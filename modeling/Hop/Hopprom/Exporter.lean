import Hop.Hopprom.Metrics
import Hop.Lib.Exposition

/-!
# The exporter

`apps/hopprom/src/exporter.rs`: the metrics of a round as text for Prometheus. It owns the names, the
texts, the order and the escapes. Writing succeeds. Behind the exporter stands what its text says
(`families`): every metric that there can be, with its samples. A metric without a sample is left out,
except for the states of the tasks (`document`).
-/

namespace Hop.Hopprom.Exporter

open Hop.Exposition (Family Sample)
open Hop.Types (Map)

variable {F : Type}

/-! ### The writer -/

/-- `# HELP` and `# TYPE` of one metric. -/
def head (name help kind : String) : List Char :=
  "# HELP ".toList ++ name.toList ++ " ".toList ++ help.toList ++ "\n# TYPE ".toList ++
    name.toList ++ " ".toList ++ kind.toList ++ "\n".toList

def isSpecial (c : Char) : Bool := decide (c = '\\') || decide (c = '"') || decide (c = '\n')

/-- What stands for a character that was found. -/
def escapeAt : Option Char → List Char
  | some '\\' => ['\\', '\\']
  | some '"' => ['\\', '"']
  | _ => ['\\', 'n']

/-- Escapes a label value, from one character that needs it to the next. -/
def escape (rest : List Char) : List Char :=
  match _h : rest.findIdx? isSpecial with
  | some i => rest.take i ++ escapeAt rest[i]? ++ escape (rest.drop (i + 1))
  | none => rest
termination_by rest.length
decreasing_by
  obtain ⟨hi, -⟩ := List.findIdx?_eq_some_iff_getElem.mp _h
  rw [List.length_drop]
  omega

/-- A series up to its number. -/
def series (name label value : String) : List Char :=
  name.toList ++ "\x7b".toList ++ label.toList ++ "=\"".toList ++ escape value.toList ++
    "\"\x7d ".toList

/-- A float with so many decimals, and what is not finite as Prometheus reads it. -/
def float (ops : F64 F) (v : F) (prec : ℕ) : List Char :=
  if ops.isNan v then "NaN".toList
  else if ops.isInfinite v then if ops.positive v then "+Inf".toList else "-Inf".toList
  else ops.fixed prec v

/-- `{n}` of an unsigned number. -/
def number (n : ℕ) : List Char := Nat.toDigits 10 n

/-- `u8::from`. -/
def flag (b : Bool) : List Char := number b.toNat

/-- One line for each label value. -/
def rows {α : Type} (name label : String) (xs : List (String × α)) (value : α → List Char) :
    List Char :=
  xs.flatMap fun x => series name label x.1 ++ value x.2 ++ "\n".toList

/-- A metric with a label. -/
def metric {α : Type} (name help kind label : String) (xs : List (String × α))
    (value : α → List Char) : List Char :=
  head name help kind ++ rows name label xs value ++ "\n".toList

/-- A metric without labels. -/
def single (name help kind : String) (value : List Char) : List Char :=
  head name help kind ++ name.toList ++ " ".toList ++ value ++ "\n\n".toList

/-- The agents that told their capacity. -/
def caps (m : Metrics F) : List (String × CapacityMetric) :=
  m.agents.entries.filterMap fun a => a.2.capacity.map fun c => (a.1, c)

/-- The agents that told a temperature. -/
def temps (m : Metrics F) : List (String × AgentMetric) :=
  m.agents.entries.filter fun a => decide (a.2.tempMilliC ≠ 0)

/-- Agents: how many there are, how many are healthy, and the capacity and temperature of each. -/
def agents (ops : F64 F) (m : Metrics F) : List Char :=
  single "hop_agents_total" "Total number of registered agents" "gauge" (number m.agentsTotal) ++
  single "hop_agents_healthy" "Number of healthy agents (seen in last 60s)" "gauge"
    (number m.agentsHealthy) ++
  (if caps m = [] then []
  else
    metric "hop_agent_cpu_cores" "Total CPU cores per agent" "gauge" "agent" (caps m)
      (fun c => number c.cpuCores) ++
    metric "hop_agent_cpu_used_cores" "Used CPU cores per agent" "gauge" "agent" (caps m)
      (fun c => float ops (ops.ratio c.cpuUsedShares 1024) 2 ) ++
    metric "hop_agent_memory_bytes" "Total memory bytes per agent" "gauge" "agent" (caps m)
      (fun c => number c.memoryBytes) ++
    metric "hop_agent_memory_used_bytes" "Used memory bytes per agent" "gauge" "agent" (caps m)
      (fun c => number c.memoryUsedBytes)) ++
  (if temps m = [] then []
  else
    metric "hop_agent_temperature_celsius"
      "CPU temperature per agent from its heartbeat (the hottest sensor)" "gauge" "agent" (temps m)
      (fun a => float ops (ops.ratio a.tempMilliC 1000) 1))

/-- A gauge for each label value, if there is any. -/
def gaugeMap (name help label : String) (map : Map ℕ) : List Char :=
  if map.entries = [] then [] else metric name help "gauge" label map.entries number

/-- Tasks: for each state (the head is always there), and for each job those that were placed and the
restarts. -/
def tasks (m : Metrics F) : List Char :=
  metric "hop_tasks_total" "Number of tasks by state" "gauge" "state" m.tasksByState.entries number ++
  gaugeMap "hop_tasks_placed" "Placed tasks per job" "job" m.tasksPlaced ++
  gaugeMap "hop_task_restarts" "Current restart count per job" "job" m.taskRestarts

/-- Jobs: how many there are, and the instances and the use of each. -/
def jobs (ops : F64 F) (m : Metrics F) : List Char :=
  single "hop_jobs_total" "Total number of jobs" "gauge" (number m.jobsTotal) ++
  (if m.jobs.entries = [] then []
  else
    metric "hop_job_instances_placed" "Placed instances per job" "gauge" "job" m.jobs.entries
      (fun j => number j.placed) ++
    metric "hop_job_instances_expected" "Expected instances per job" "gauge" "job" m.jobs.entries
      (fun j => number j.expected) ++
    metric "hop_job_healthy" "Job is healthy (placed >= expected)" "gauge" "job" m.jobs.entries
      (fun j => flag j.healthy) ++
    metric "hop_job_cpu_percent" "Average CPU usage percent per job (relative to allocation)" "gauge"
      "job" m.jobs.entries (fun j => float ops j.cpuPercent 1) ++
    metric "hop_job_mem_percent" "Average memory usage percent per job (relative to allocation)"
      "gauge" "job" m.jobs.entries (fun j => float ops j.memPercent 1))

/-- A counter for each job, if there is any. -/
def counter (name help : String) (map : Map ℕ) : List Char :=
  if map.entries = [] then [] else metric name help "counter" "job" map.entries number

/-- The seconds that the lease is still good for. -/
def lease (ops : F64 F) (m : Metrics F) (now : Option Nanos) : F :=
  match now with
  | some now =>
    if m.leaseExpiresAt ≠ 0 then ops.ratio (m.leaseExpiresAt - now : ℕ) second else ops.zero
  | none => ops.zero

/-- The leader and its lease. -/
def leader (ops : F64 F) (m : Metrics F) (now : Option Nanos) : List Char :=
  metric "hop_leader_info" "Current leader address as a label (1 = a leader is known)" "gauge" "leader"
    [(m.leader, decide (m.leader ≠ ""))] flag ++
  single "hop_leader_lease_seconds"
    "Seconds until the local leader's lease lapses unless renewed (0 when this node does not lead)"
    "gauge" (float ops (lease ops m now) 1) ++
  single "hop_leader_changes_total" "Leader switches observed since hopprom started" "counter"
    (number m.leaderChanges) ++
  single "hop_cluster_settling" "1 while a new leader waits before its first reconcile" "gauge"
    (flag m.settling) ++
  single "hop_jobs_deploying" "Jobs whose last rollout did not finish" "gauge"
    (number m.deploying.length) ++
  (if m.deploying = [] then []
  else
    metric "hop_job_deploying" "1 for each job whose last rollout did not finish" "gauge" "job"
      (m.deploying.map fun job => (job, ())) (fun _ => "1".toList))

/-- `render`: the whole text; `now` is the clock that the lease is measured by. -/
def render (ops : F64 F) (m : Metrics F) (now : Option Nanos) : List Char :=
  agents ops m ++ tasks m ++ jobs ops m ++
  counter "hop_task_starts_total" "Total task starts per job" m.startsTotal ++
  counter "hop_task_failures_total" "Total task failures per job" m.failuresTotal ++
  counter "hop_task_restarts_total" "Total task restarts per job" m.restartsTotal ++
  leader ops m now

/-! ### What it says -/

/-- A metric with one sample for each label value. -/
def labelled {α : Type} (name help kind label : String) (xs : List (String × α))
    (value : α → List Char) : Family where
  name := name.toList
  help := help.toList
  kind := kind.toList
  samples := xs.map fun x => ⟨name.toList, [(label.toList, x.1.toList)], value x.2, none⟩

/-- A metric with one sample. -/
def plain (name help kind : String) (value : List Char) : Family where
  name := name.toList
  help := help.toList
  kind := kind.toList
  samples := [⟨name.toList, [], value, none⟩]

def agentFamilies (ops : F64 F) (m : Metrics F) : List Family :=
  [plain "hop_agents_total" "Total number of registered agents" "gauge" (number m.agentsTotal),
    plain "hop_agents_healthy" "Number of healthy agents (seen in last 60s)" "gauge"
      (number m.agentsHealthy),
    labelled "hop_agent_cpu_cores" "Total CPU cores per agent" "gauge" "agent" (caps m)
      fun c => number c.cpuCores,
    labelled "hop_agent_cpu_used_cores" "Used CPU cores per agent" "gauge" "agent" (caps m)
      fun c => float ops (ops.ratio c.cpuUsedShares 1024) 2,
    labelled "hop_agent_memory_bytes" "Total memory bytes per agent" "gauge" "agent" (caps m)
      fun c => number c.memoryBytes,
    labelled "hop_agent_memory_used_bytes" "Used memory bytes per agent" "gauge" "agent" (caps m)
      fun c => number c.memoryUsedBytes,
    labelled "hop_agent_temperature_celsius"
      "CPU temperature per agent from its heartbeat (the hottest sensor)" "gauge" "agent" (temps m)
      fun a => float ops (ops.ratio a.tempMilliC 1000) 1]

def taskFamilies (m : Metrics F) : List Family :=
  [labelled "hop_tasks_total" "Number of tasks by state" "gauge" "state" m.tasksByState.entries number,
    labelled "hop_tasks_placed" "Placed tasks per job" "gauge" "job" m.tasksPlaced.entries number,
    labelled "hop_task_restarts" "Current restart count per job" "gauge" "job" m.taskRestarts.entries
      number]

def jobFamilies (ops : F64 F) (m : Metrics F) : List Family :=
  [plain "hop_jobs_total" "Total number of jobs" "gauge" (number m.jobsTotal),
    labelled "hop_job_instances_placed" "Placed instances per job" "gauge" "job" m.jobs.entries
      fun j => number j.placed,
    labelled "hop_job_instances_expected" "Expected instances per job" "gauge" "job" m.jobs.entries
      fun j => number j.expected,
    labelled "hop_job_healthy" "Job is healthy (placed >= expected)" "gauge" "job" m.jobs.entries
      fun j => flag j.healthy,
    labelled "hop_job_cpu_percent" "Average CPU usage percent per job (relative to allocation)" "gauge"
      "job" m.jobs.entries fun j => float ops j.cpuPercent 1,
    labelled "hop_job_mem_percent" "Average memory usage percent per job (relative to allocation)"
      "gauge" "job" m.jobs.entries fun j => float ops j.memPercent 1]

def counterFamilies (m : Metrics F) : List Family :=
  [labelled "hop_task_starts_total" "Total task starts per job" "counter" "job" m.startsTotal.entries
      number,
    labelled "hop_task_failures_total" "Total task failures per job" "counter" "job"
      m.failuresTotal.entries number,
    labelled "hop_task_restarts_total" "Total task restarts per job" "counter" "job"
      m.restartsTotal.entries number]

def leaderFamilies (ops : F64 F) (m : Metrics F) (now : Option Nanos) : List Family :=
  [labelled "hop_leader_info" "Current leader address as a label (1 = a leader is known)" "gauge"
      "leader" [(m.leader, decide (m.leader ≠ ""))] flag,
    plain "hop_leader_lease_seconds"
      "Seconds until the local leader's lease lapses unless renewed (0 when this node does not lead)"
      "gauge" (float ops (lease ops m now) 1),
    plain "hop_leader_changes_total" "Leader switches observed since hopprom started" "counter"
      (number m.leaderChanges),
    plain "hop_cluster_settling" "1 while a new leader waits before its first reconcile" "gauge"
      (flag m.settling),
    plain "hop_jobs_deploying" "Jobs whose last rollout did not finish" "gauge"
      (number m.deploying.length),
    labelled "hop_job_deploying" "1 for each job whose last rollout did not finish" "gauge" "job"
      (m.deploying.map fun job => (job, ())) fun _ => "1".toList]

/-- Every metric there can be. -/
def families (ops : F64 F) (m : Metrics F) (now : Option Nanos) : List Family :=
  agentFamilies ops m ++ taskFamilies m ++ jobFamilies ops m ++ counterFamilies m ++
    leaderFamilies ops m now

/-- Whether a metric is shown: if it has a sample, or is the one of the task states. -/
def shown (f : Family) : Bool := !f.samples.isEmpty || decide (f.name = "hop_tasks_total".toList)

/-- What the exporter says of the metrics. -/
def document (ops : F64 F) (m : Metrics F) (now : Option Nanos) : List Family :=
  (families ops m now).filter shown

end Hop.Hopprom.Exporter
