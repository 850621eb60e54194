import Hop.Types.Job

/-!
# The store of the desired state, and the errors of the leader

`leader/src/store.rs` and the constants and errors of `leader/src/lib.rs`. `MemStore` is the
only implementation of the trait `JobStore`: the jobs by name, in the order of insertion. That
no two jobs have the same name and that there are at most `maxJobs` is part of the type.
-/

namespace Hop.Lead

open Hop.Types (Job Name)

/-- The largest number of agents a leader keeps. -/
def maxAgents : ℕ := 256

/-- The largest number of jobs of a cluster. -/
def maxJobs : ℕ := 1024

/-- How long without a heartbeat an agent is dead: 30 s. -/
def defaultAgentTimeout : Nanos := 30 * second

/-- The pause between two steps of a rolling update. -/
def rollingUpdateDelay : Nanos := 2 * second

/-- Every how many ticks a reconcile runs as a safety net. -/
def reconcileEveryTicks : ℕ := 3

/-- Why no agent took an instance. -/
inductive Refusal
  | noAgents
  /-- All agents that could run the job were full. -/
  | full (agents : ℕ)
  | noneAccepted (tried : ℕ)
deriving DecidableEq, Repr

/-- What can go wrong in the leader. -/
inductive Error
  | json (e : Hop.Types.Error)
  | nameRequired
  | notFound (job : Name)
  /-- An instance could not be placed. The job is stored: the next reconcile tries again. -/
  | dispatch (job : Name) (inst count : ℕ) (why : Refusal)
  | daemonRejected (job : Name)
  /-- A rolling update stopped halfway; the old instances go on. -/
  | rolling (job : Name) (inst : ℕ) (why : Refusal)
  /-- A blue-green update could not put everything beside the old. -/
  | blueGreen (job : Name) (inst count : ℕ) (why : Refusal)
  | tooMany (what : String) (max : ℕ)
  | initJob (index : ℕ) (cause : Hop.Types.Error)
deriving DecidableEq, Repr

/-- A store in memory. -/
structure MemStore where
  jobs : List Job
  stateTime : Nanos
  nodup : (jobs.map Job.name).Nodup
  bounded : jobs.length ≤ maxJobs

namespace MemStore

/-- An empty store. -/
def new : MemStore := ⟨[], 0, List.nodup_nil, Nat.zero_le _⟩

/-- The job with this name. -/
def get (s : MemStore) (name : String) : Option Job := s.jobs.find? fun j => j.name = name

/-- Put `job` in the place of the one with its name. -/
def replace (job : Job) (jobs : List Job) : List Job :=
  jobs.map fun j => if j.name = job.name then job else j

theorem map_name_replace (job : Job) (jobs : List Job) :
    (replace job jobs).map Job.name = jobs.map Job.name := by
  unfold replace
  rw [List.map_map]
  refine List.map_congr_left fun j _ => ?_
  dsimp only [Function.comp]
  split_ifs with h
  · exact h.symm
  · rfl

theorem get_eq_some_iff {s : MemStore} {name : String} {j : Job} :
    s.get name = some j ↔ j ∈ s.jobs ∧ j.name = name := by
  constructor
  · intro h
    exact ⟨List.mem_of_find?_eq_some h, by simpa using List.find?_some h⟩
  · rintro ⟨hj, rfl⟩
    obtain ⟨k, hk⟩ : ∃ k, s.get j.name = some k :=
      Option.isSome_iff_exists.mp (List.find?_isSome.mpr ⟨j, hj, by simp⟩)
    have hkn : k.name = j.name := by simpa using List.find?_some hk
    rw [hk, List.inj_on_of_nodup_map s.nodup (List.mem_of_find?_eq_some hk) hj hkn]

theorem get_eq_none_iff {s : MemStore} {name : String} :
    s.get name = none ↔ name ∉ s.jobs.map Job.name := by
  simp [get, List.find?_eq_none]

/-- Upsert by name. -/
def put (s : MemStore) (job : Job) : Except Error MemStore :=
  if h : job.name ∈ s.jobs.map Job.name then
    .ok { s with
      jobs := replace job s.jobs
      nodup := by rw [map_name_replace]; exact s.nodup
      bounded := by simpa [replace] using s.bounded }
  else if hlen : s.jobs.length < maxJobs then
    .ok { s with
      jobs := s.jobs ++ [job]
      nodup := by
        rw [List.map_append]
        refine s.nodup.append (List.nodup_singleton _) fun n hn hj => ?_
        exact h (List.mem_singleton.mp hj ▸ hn)
      bounded := by simpa [Nat.succ_le_iff] using hlen }
  else .error (.tooMany "jobs" maxJobs)

/-- What is in the store after a job was put was there, or is the job. -/
theorem mem_of_put {s s' : MemStore} {job j : Job} (h : s.put job = .ok s') (hj : j ∈ s'.jobs) :
    j ∈ s.jobs ∨ j = job := by
  unfold put at h
  split_ifs at h with hmem hlen
  · cases h
    obtain ⟨k, hk, rfl⟩ := List.mem_map.mp hj
    split_ifs
    · exact .inr rfl
    · exact .inl hk
  · cases h
    rcases List.mem_append.mp hj with hj | hj
    · exact .inl hj
    · exact .inr (List.mem_singleton.mp hj)

/-- Take the job with this name out. -/
def remove (s : MemStore) (name : String) : MemStore :=
  { s with
    jobs := s.jobs.filter fun j => j.name ≠ name
    nodup := s.nodup.sublist (List.filter_sublist.map _)
    bounded := (List.length_filter_le _ _).trans s.bounded }

/-- Change the job with this name in fields other than its name. -/
def update (s : MemStore) (name : String) (f : Job → Job) (hf : ∀ j, (f j).name = j.name) :
    MemStore :=
  { s with
    jobs := s.jobs.map fun j => if j.name = name then f j else j
    nodup := by
      have : (s.jobs.map fun j => if j.name = name then f j else j).map Job.name =
          s.jobs.map Job.name := by
        rw [List.map_map]
        refine List.map_congr_left fun j _ => ?_
        dsimp only [Function.comp]
        split_ifs
        · exact hf j
        · rfl
      rw [this]
      exact s.nodup
    bounded := by simpa using s.bounded }

/-- Rewrite only the priority. -/
def setPriority (s : MemStore) (name : String) (p : ℤ) : MemStore :=
  s.update name (fun j => { j with priority := some p }) fun _ => rfl

/-- Rewrite only the flag `deploying`. -/
def setDeploying (s : MemStore) (name : String) (d : Bool) : MemStore :=
  s.update name (fun j => { j with deploying := d }) fun _ => rfl

def setStateTime (s : MemStore) (t : Nanos) : MemStore := { s with stateTime := t }

theorem map_name_update (s : MemStore) (name : String) (f : Job → Job)
    (hf : ∀ j, (f j).name = j.name) :
    (s.update name f hf).jobs.map Job.name = s.jobs.map Job.name := by
  unfold update
  rw [List.map_map]
  refine List.map_congr_left fun j _ => ?_
  dsimp only [Function.comp]
  split_ifs
  · exact hf j
  · rfl

end MemStore

end Hop.Lead
