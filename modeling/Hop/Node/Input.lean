import Hop.Lib.Machine
import Hop.Node.Agent

/-!
# What an agent is told

The rest of the interface of `agent/src/node.rs` (the job store) and of `agent/src/handoff.rs`
(`adopt`), and the runs of an agent: an `Input` is one call of its interface. An `Observed` agent
carries what an observer of its run knows besides: the actions that it handed over, and the
answers to its starts. In the runs of `answeredOnce` no task id is answered twice.
-/

namespace Hop.Node

open Hop.Types (Driver Job Map Task TaskState)

namespace Agent

/-! ### The job store -/

/-- Whether a definition of this name has room. -/
def hasRoomFor (a : Agent) (name : String) : Bool :=
  (a.jobs.get? name).isSome || decide (a.jobs.size < maxJobs)

/-- Store a job that the leader heard of. -/
def storeJob (a : Agent) (now : Nanos) (job : Job) : Except Error Unit × Agent :=
  if a.hasRoomFor job.name then
    (.ok (), { a with jobs := a.jobs.insert job.name job, stateTime := now })
  else (.error .tooManyJobs, a)

/-- Write a job only if it still exists. -/
def updateJob (a : Agent) (now : Nanos) (job : Job) : Bool × Agent :=
  match a.jobs.get? job.name with
  | some _ => (true, { a with jobs := a.jobs.insert job.name job, stateTime := now })
  | none => (false, a)

/-- Rewrite one field of a job that exists. -/
def rewriteJob (a : Agent) (now : Nanos) (name : String) (f : Job → Job) : Bool × Agent :=
  match a.jobs.get? name with
  | some _ => (true, { a with jobs := a.jobs.modify name f, stateTime := now })
  | none => (false, a)

def setJobPriority (a : Agent) (now : Nanos) (name : String) (priority : ℤ) : Bool × Agent :=
  a.rewriteJob now name fun j => { j with priority := some priority }

def setJobDeploying (a : Agent) (now : Nanos) (name : String) (deploying : Bool) : Bool × Agent :=
  a.rewriteJob now name fun j => { j with deploying := deploying }

/-- Remove the definition of a job only. -/
def deleteJobDefinition (a : Agent) (now : Nanos) (name : String) : Agent :=
  { a with
    jobs := a.jobs.erase name
    refused := a.refused.filter (· ≠ name)
    stateTime := now }

/-- Take jobs over from the leader; the first that has no room ends it. -/
def syncJobs (updated : Nanos) : List Job → Agent → Except Error Unit × Agent
  | [], a => (.ok (), { a with stateTime := updated })
  | job :: rest, a =>
    if a.hasRoomFor job.name then
      syncJobs updated rest { a with jobs := a.jobs.insert job.name job }
    else (.error .tooManyJobs, a)

/-! ### The hand-over -/

/-- Take over the jobs of the agent before, as far as they fit. -/
def adoptJobs : List Job → Agent → Agent
  | [], a => a
  | job :: rest, a =>
    if a.hasRoomFor job.name then adoptJobs rest { a with jobs := a.jobs.insert job.name job }
    else a

/-- Take over its tasks, as far as they fit. -/
def adoptTasks : List Task → Agent → Agent
  | [], a => a
  | task :: rest, a =>
    if a.tasks.size < maxTasks then adoptTasks rest (a.insertEntry task false) else a

/-- Take over the jobs and the tasks of the agent before. -/
def adopt (a : Agent) (jobs : List Job) (tasks : List Task) : Agent :=
  adoptTasks tasks (adoptJobs jobs a)

end Agent

/-! ### Inputs -/

/-- A call of the interface of an agent. -/
inductive Input
  | run (now : Nanos) (job : Job) (replace : Bool) (poolLargest : Option ℕ)
  | onProgress (id : String) (downloaded total : ℕ)
  | onStarted (now : Nanos) (id : String) (driver : Driver) (result : Except StartError StartOk)
  | onStatus (now : Nanos) (id : String) (status : Status)
  | onProbe (now : Nanos) (id : String) (outcome : Outcome)
  | recordUsage (id : String) (cores : ℕ) (core : Option ℕ)
  | tick (now : Nanos)
  | takeActions
  | stopTask (id : String)
  | stopJobTasks (name : String)
  | deleteJob (now : Nanos) (name : String)
  | stopAll
  | shutdown
  | storeJob (now : Nanos) (job : Job)
  | updateJob (now : Nanos) (job : Job)
  | setJobPriority (now : Nanos) (name : String) (priority : ℤ)
  | setJobDeploying (now : Nanos) (name : String) (deploying : Bool)
  | deleteJobDefinition (now : Nanos) (name : String)
  | syncJobs (jobs : List Job) (updated : Nanos)
  | setLeaderAddr (addr : String)
  | setLeaseExpiresAt (t : Nanos)
  /-- The node measures its system data anew (`settings_mut`). -/
  | setSettings (settings : Settings)

/-- The agent after an input. -/
def Agent.feed (a : Agent) : Input → Agent
  | .run now job replace poolLargest => (a.run now job replace poolLargest).2
  | .onProgress id downloaded total => a.onProgress id downloaded total
  | .onStarted now id driver result => a.onStarted now id driver result
  | .onStatus now id status => a.onStatus now id status
  | .onProbe now id outcome => a.onProbe now id outcome
  | .recordUsage id cores core => a.recordUsage id cores core
  | .tick now => (a.tick now).2
  | .takeActions => a.takeActions.2
  | .stopTask id => (a.stopTask id).2
  | .stopJobTasks name => (a.stopJobTasks name).2
  | .deleteJob now name => (a.deleteJob now name).2
  | .stopAll => a.stopAll.2
  | .shutdown => a.shutdown.2
  | .storeJob now job => (a.storeJob now job).2
  | .updateJob now job => (a.updateJob now job).2
  | .setJobPriority now name priority => (a.setJobPriority now name priority).2
  | .setJobDeploying now name deploying => (a.setJobDeploying now name deploying).2
  | .deleteJobDefinition now name => a.deleteJobDefinition now name
  | .syncJobs jobs updated => (Agent.syncJobs updated jobs a).2
  | .setLeaderAddr addr => { a with leaderAddr := addr }
  | .setLeaseExpiresAt t => { a with leaseExpiresAt := t }
  | .setSettings settings => { a with settings := settings }

/-- The actions that an input hands over to the executor. -/
def Agent.handsOver (a : Agent) : Input → List Action
  | .tick now => (a.tick now).1
  | .takeActions => a.takeActions.1
  | _ => []

/-- An answer to the start of a task. -/
structure Answer where
  id : String
  result : Except StartError StartOk
  /-- How many actions the agent had emitted by then. -/
  moment : ℕ

/-- An agent with what an observer of its run knows. -/
structure Observed where
  agent : Agent
  /-- The actions that it handed over, in order. -/
  handed : List Action
  answers : List Answer

namespace Observed

/-- All actions of the run so far. -/
def emitted (o : Observed) : List Action := o.handed ++ o.agent.out

/-- The observed agent after an input. -/
def take (o : Observed) (i : Input) : Observed where
  agent := o.agent.feed i
  handed := o.handed ++ o.agent.handsOver i
  answers := match i with
    | .onStarted _ id _ result => o.answers ++ [⟨id, result, o.emitted.length⟩]
    | _ => o.answers

/-- Whether there is an answer for the id already. -/
def answered (o : Observed) (id : String) : Bool := o.answers.any fun x => x.id = id

/-- Whether an input is no second answer for its id. -/
def admits (o : Observed) : Input → Bool
  | .onStarted _ id _ _ => !o.answered id
  | _ => true

end Observed

/-- The runs of an agent that was created by `new`. -/
def inputs : Machine Observed Input where
  Init o := ∃ settings, o = ⟨.new settings, [], []⟩
  step o i := some (o.take i)

/-- The runs in which no id is answered twice. -/
def answeredOnce : Machine Observed Input where
  Init o := ∃ settings, o = ⟨.new settings, [], []⟩
  step o i := if o.admits i then some (o.take i) else none

end Hop.Node
