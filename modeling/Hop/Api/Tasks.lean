import Hop.Lead.State

/-!
# The tasks of a cluster

`api/src/leader.rs` and `hoplib/src/model.rs`: what the leader answers about agents, tasks and the
tasks of one job, as a client of the API reads it. The leader asks the agents; one that does not
answer is listed as silent, and one without a task of the job is left out.
-/

namespace Hop.Api

open Hop.Types
open Hop.Lead (Leader)

/-- The tasks of one agent; `none` if it did not answer the leader. -/
structure AgentTasks where
  agent : String
  tasks : Option (List Task)
deriving DecidableEq

/-- The tasks of one job, and the agents where it is placed. -/
structure JobStatus where
  agents : List Agent := []
  tasks : List AgentTasks := []
deriving DecidableEq

/-- A cluster: the leader, and what its agents answer. -/
structure Cluster where
  leader : Leader
  /-- The tasks that the agent with this id answers with; `none` if it does not answer. -/
  answer : String → Option (List Task)
  /-- Whether the last heartbeat of the agent measured the kernel, and Hop. -/
  measured : String → Bool × Bool

/-- A system task: no job has it, and it is never running. -/
def systemTask (name : String) (slot : ℤ) : Task :=
  { id := name, jobName := name, driver := "hop", pid := slot, state := .system, cores := 1 }

/-- The system tasks of an agent: those that were measured. -/
def systemTasks (known : Bool × Bool) : List Task :=
  (if known.1 then [systemTask "kern" 0] else []) ++ (if known.2 then [systemTask "hop" 1] else [])

namespace Cluster

/-- `GET /v1/agents`. -/
def agents (c : Cluster) : List Agent := c.leader.agents

/-- `GET /v1/tasks`: the agents that answered with their system tasks, then the silent ones. -/
def tasks (c : Cluster) : List AgentTasks :=
  (c.agents.filterMap fun a => (c.answer a.id).map fun ts =>
    ⟨a.id, some (ts ++ systemTasks (c.measured a.id))⟩) ++
  (c.agents.filter fun a => (c.answer a.id).isNone).map fun a => ⟨a.id, none⟩

/-- `placed_agents`: the agents where a job is placed. -/
def placedAgents (c : Cluster) (name : String) : List Agent :=
  c.agents.filter fun a => 0 < c.leader.placedOn a.id name

/-- The tasks of one job on an agent. -/
def tasksOn (c : Cluster) (name agent : String) : List Task :=
  ((c.answer agent).getD []).filter fun t => t.jobName = name

/-- `GET /v1/jobs/NAME/status`; `none` for a name that the leader refuses. -/
def jobStatus (c : Cluster) (name : String) : Option JobStatus :=
  if name = "" ∨ '/' ∈ name.toList then none
  else if (c.leader.store.get name).isNone then some {}
  else
    let placed := c.placedAgents name
    if placed = [] then some {}
    else some ⟨placed, placed.filterMap fun a =>
      let mine := c.tasksOn name a.id
      if mine = [] then none else some ⟨a.id, some mine⟩⟩

end Cluster

end Hop.Api
