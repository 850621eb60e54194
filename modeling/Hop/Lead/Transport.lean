import Hop.Types.Task

/-!
# What the leader has its agents do

`leader/src/transport.rs`. A transport is a state with the calls of the trait: any state and
any functions, so a statement about every transport is a statement about every sequence of
replies. `Logged` is a transport that also writes down each call with its reply.
-/

namespace Hop.Lead

open Hop.Types (Agent Job Task)

/-- The answer of an agent to "run this job". -/
inductive RunReply
  | accepted
  /-- The node does not fit the affinity. -/
  | affinityMismatch
  /-- Full: this agent may be able to run it later. -/
  | noCapacity
  /-- Another status. -/
  | rejected (status : ℕ)
  | unreachable
deriving DecidableEq, Repr

/-- The connection of the leader with its agents. -/
class Transport (N : Type) where
  /-- Start an instance; with `replace` the predecessor is thought away on admission and
  stopped after it. -/
  run : N → Agent → Job → (replace : Bool) → RunReply × N
  /-- Stop the tasks of a job; `true` if the stop is confirmed. -/
  stopJob : N → Agent → (job : String) → Bool × N
  stopTask : N → Agent → (taskId : String) → N
  deleteJob : N → Agent → (job : String) → N
  /-- The tasks of the agent, or `none` if it did not answer. -/
  tasks : N → Agent → Option (List Task) × N
  pause : N → Nanos → N

/-- Agents that accept every job and confirm every stop. -/
structure WillingAgents where

instance : Transport WillingAgents where
  run n _ _ _ := (.accepted, n)
  stopJob n _ _ := (true, n)
  stopTask n _ _ := n
  deleteJob n _ _ := n
  tasks n _ := (none, n)
  pause n _ := n

/-- A call with its reply. -/
inductive Call
  | run (agent : Agent) (job : Job) (replace : Bool) (reply : RunReply)
  | stopJob (agent : Agent) (job : String) (confirmed : Bool)
  | stopTask (agent : Agent) (taskId : String)
  | deleteJob (agent : Agent) (job : String)
  | tasks (agent : Agent) (reply : Option (List Task))
  | pause (d : Nanos)
deriving DecidableEq

/-- Whether the call asks an agent to run a job. -/
def Call.isRun : Call → Bool
  | .run _ _ _ _ => true
  | _ => false

/-- Whether the call is no `run` that an agent refused. -/
def Call.accepts : Call → Bool
  | .run _ _ _ reply => reply = .accepted
  | _ => true

/-- A transport that writes its calls down. -/
structure Logged (N : Type) where
  net : N
  log : List Call

instance {N : Type} [Transport N] : Transport (Logged N) where
  run n agent job replace :=
    let (reply, net) := Transport.run n.net agent job replace
    (reply, ⟨net, n.log ++ [.run agent job replace reply]⟩)
  stopJob n agent job :=
    let (confirmed, net) := Transport.stopJob n.net agent job
    (confirmed, ⟨net, n.log ++ [.stopJob agent job confirmed]⟩)
  stopTask n agent taskId :=
    ⟨Transport.stopTask n.net agent taskId, n.log ++ [.stopTask agent taskId]⟩
  deleteJob n agent job :=
    ⟨Transport.deleteJob n.net agent job, n.log ++ [.deleteJob agent job]⟩
  tasks n agent :=
    let (reply, net) := Transport.tasks n.net agent
    (reply, ⟨net, n.log ++ [.tasks agent reply]⟩)
  pause n d := ⟨Transport.pause n.net d, n.log ++ [.pause d]⟩

namespace Logged

variable {N : Type}

/-- The calls that were made since the state `before`. -/
def since (net before : Logged N) : List Call := net.log.drop before.log.length

theorem since_eq {net before : Logged N} {cs : List Call} (h : net.log = before.log ++ cs) :
    net.since before = cs := by
  rw [since, h, List.drop_left]

/-- What was called up to some moment was called up to a later one. -/
theorem mem_since_of_initial {before net net' : Logged N} {c : Call} (h : net.log <+: net'.log)
    (hc : c ∈ net.since before) : c ∈ net'.since before := by
  obtain ⟨cs, hcs⟩ := h
  rw [since, ← hcs, List.drop_append]
  exact List.mem_append_left _ hc

/-- What was called after some moment was called after an earlier one. -/
theorem mem_since_of_suffix {before net net' : Logged N} {c : Call} (h : before.log <+: net.log)
    (hc : c ∈ net'.since net) : c ∈ net'.since before := by
  have hle := h.length_le
  have hdrop : net'.since net = (net'.since before).drop (net.log.length - before.log.length) := by
    rw [since, since, List.drop_drop]
    congr 1
    omega
  rw [hdrop] at hc
  exact List.mem_of_mem_drop hc

variable [Transport N]

/-- A `run` is logged with the reply it got. -/
theorem log_run {net net' : Logged N} {agent : Agent} {job : Job} {replace : Bool} {r : RunReply}
    (h : Transport.run net agent job replace = (r, net')) :
    net'.log = net.log ++ [.run agent job replace r] := by
  cases h
  rfl

/-- A `stop_job` is logged with its confirmation. -/
theorem log_stopJob {net net' : Logged N} {agent : Agent} {job : String} {confirmed : Bool}
    (h : Transport.stopJob net agent job = (confirmed, net')) :
    net'.log = net.log ++ [.stopJob agent job confirmed] := by
  cases h
  rfl

end Logged

end Hop.Lead
