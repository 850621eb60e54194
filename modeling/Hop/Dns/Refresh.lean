import Hop.Dns.Watcher
import Hop.Hoplib.Frames

/-!
# The incremental refresh

A job event makes the watcher ask the leader for that one job; a full refresh asks for everything.
The two agree on a job exactly if the leader's books lead to the addresses of all running tasks with
that name up to case, and there is one: the incremental refresh writes an empty list where the full
one leaves the job out.
-/

namespace Hop.Dns

open Hop.Types
open Hop.Api (AgentTasks Cluster JobStatus object)

variable {name : String}

/-! ### The builders -/

/-- Each address once, at its first place. -/
def uniq (ips : List Ipv4) : List Ipv4 := ips.foldl pushUnique []

theorem pushUnique_ne_nil (list : List Ipv4) (ip : Ipv4) : pushUnique list ip ≠ [] := by
  rw [pushUnique]
  split_ifs with h
  · exact List.ne_nil_of_mem h
  · simp

theorem foldl_pushUnique_ne_nil {list : List Ipv4} (h : list ≠ []) (ips : List Ipv4) :
    ips.foldl pushUnique list ≠ [] := by
  induction ips generalizing list with
  | nil => exact h
  | cons ip ips ih => exact ih (pushUnique_ne_nil list ip)

theorem uniq_eq_nil_iff {ips : List Ipv4} : uniq ips = [] ↔ ips = [] := by
  rcases ips with _ | ⟨ip, ips⟩
  · simp [uniq]
  · simp only [reduceCtorEq, iff_false]
    exact foldl_pushUnique_ne_nil (pushUnique_ne_nil [] ip) ips

/-- The tasks of a list, with their agents. -/
def pairs (tasks : List AgentTasks) : List (String × Task) :=
  tasks.flatMap fun at' => (at'.tasks.getD []).map fun t => (at'.agent, t)

section Builders

variable (agents : List Agent) (loc : Option Local)

/-- The address of a task with its agent. -/
def pairIp (p : String × Task) : Option Ipv4 := taskIp p.1 (agentIp agents p.1) p.2 loc

theorem buildJob_eq (job : String) (tasks : List AgentTasks) :
    buildJob job agents tasks loc =
      uniq (((pairs tasks).filter fun p => lowerText p.2.jobName = lowerText job).filterMap
        (pairIp agents loc)) := by
  have hpairs : buildJob job agents tasks loc = (pairs tasks).foldl
      (fun ips p => addJobTask job p.1 (agentIp agents p.1) loc ips p.2) [] := by
    rw [pairs, List.foldl_flatMap]
    simp only [List.foldl_map]
    rfl
  rw [hpairs, uniq]
  generalize ([] : List Ipv4) = ips
  induction pairs tasks generalizing ips with
  | nil => rfl
  | cons p ps ih =>
    rw [List.foldl_cons, ih, addJobTask]
    by_cases hname : lowerText p.2.jobName = lowerText job
    · rw [if_neg (not_not.mpr hname), List.filter_cons_of_pos (by simpa using hname)]
      rcases hip : taskIp p.1 (agentIp agents p.1) p.2 loc with _ | addr
      · rw [List.filterMap_cons_none (by exact hip)]
      · rw [List.filterMap_cons_some (by exact hip), List.foldl_cons]
    · rw [if_pos hname, List.filter_cons_of_neg (by simpa using hname)]

/-- The entry of a name without and with addresses. -/
def entryOf (ips : List Ipv4) : Option (List Ipv4) := if ips = [] then none else some (uniq ips)

theorem entryOf_inj {ips ips' : List Ipv4} : entryOf ips = entryOf ips' ↔ uniq ips = uniq ips' := by
  rw [entryOf, entryOf]
  by_cases h : ips = []
  · subst h
    by_cases h' : ips' = []
    · rw [h']
      exact ⟨fun _ => rfl, fun _ => rfl⟩
    · rw [if_pos rfl, if_neg h']
      refine ⟨fun heq => (nomatch heq), fun heq => ?_⟩
      exact absurd (uniq_eq_nil_iff.mp heq.symm) h'
  · by_cases h' : ips' = []
    · rw [if_neg h, if_pos h', h']
      refine ⟨fun heq => (nomatch heq), fun heq => ?_⟩
      exact absurd (uniq_eq_nil_iff.mp heq) h
    · rw [if_neg h, if_neg h', Option.some.injEq]

theorem get?_addTask (jobs : Jobs) (p : String × Task) (k : Bytes) :
    (addTask p.1 (agentIp agents p.1) loc jobs p.2).get? k =
      if jobKey p.2.jobName = k then
        match pairIp agents loc p with
        | none => jobs.get? k
        | some addr => some (pushUnique ((jobs.get? k).getD []) addr)
      else jobs.get? k := by
  rw [addTask, pairIp]
  rcases taskIp p.1 (agentIp agents p.1) p.2 loc with _ | addr
  · simp
  · dsimp only
    by_cases hk : jobKey p.2.jobName = k
    · subst hk
      rw [if_pos rfl]
      rcases jobs.get? (jobKey p.2.jobName) with _ | list
      · exact SortedMap.get?_insert_self _ _ _
      · exact SortedMap.get?_insert_self _ _ _
    · rw [if_neg hk]
      rcases jobs.get? (jobKey p.2.jobName) with _ | list
      · simp only [SortedMap.get?_insert, if_neg hk]
      · simp only [SortedMap.get?_insert, if_neg hk]

theorem get?_buildJobs (tasks : List AgentTasks) (k : Bytes) :
    (buildJobs agents tasks loc).get? k =
      entryOf (((pairs tasks).filter fun p => jobKey p.2.jobName = k).filterMap
        (pairIp agents loc)) := by
  have hpairs : buildJobs agents tasks loc = (pairs tasks).foldl
      (fun jobs p => addTask p.1 (agentIp agents p.1) loc jobs p.2) .empty := by
    rw [pairs, List.foldl_flatMap]
    simp only [List.foldl_map]
    rfl
  -- over any table: what is there already is kept, and the addresses come behind it
  have hfold : ∀ (ps : List (String × Task)) (jobs : Jobs),
      (ps.foldl (fun jobs p => addTask p.1 (agentIp agents p.1) loc jobs p.2) jobs).get? k =
        let ips := (ps.filter fun p => jobKey p.2.jobName = k).filterMap (pairIp agents loc)
        if ips = [] then jobs.get? k else some (ips.foldl pushUnique ((jobs.get? k).getD [])) := by
    intro ps
    induction ps with
    | nil => intro jobs; rfl
    | cons p ps ih =>
      intro jobs
      rw [List.foldl_cons, ih, get?_addTask]
      by_cases hname : jobKey p.2.jobName = k
      · rw [if_pos hname, List.filter_cons_of_pos (by simpa using hname)]
        rcases hip : pairIp agents loc p with _ | addr
        · rw [List.filterMap_cons_none hip]
        · rw [List.filterMap_cons_some hip]
          dsimp only
          rw [if_neg (List.cons_ne_nil _ _), List.foldl_cons, Option.getD_some]
          split_ifs with hnil
          · rw [hnil, List.foldl_nil]
          · rfl
      · rw [if_neg hname, List.filter_cons_of_neg (by simpa using hname)]
  rw [hpairs, hfold]
  rfl

end Builders

/-! ### What a cluster says of a name -/

theorem agentIp_of_mem {agents : List Agent} (h : agents.Pairwise fun a b => a.id < b.id) {a : Agent}
    (ha : a ∈ agents) : agentIp agents a.id = extractIp a.endpoint := by
  have hfind : agents.find? (fun b => b.id = a.id) = some a := by
    induction agents with
    | nil => cases ha
    | cons b agents ih =>
      obtain ⟨hb, hagents⟩ := List.pairwise_cons.mp h
      rcases List.mem_cons.mp ha with rfl | ha
      · simp
      · rw [List.find?_cons_of_neg (by simpa using (hb a ha).ne), ih hagents ha]
  rw [agentIp, hfind]
  rfl

section Names

variable (c : Cluster) (loc : Option Local)

/-- The addresses of the running tasks whose name is this one up to case. -/
def running (k : Bytes) : List Ipv4 :=
  c.agents.flatMap fun a => ((c.answer a.id).getD []).filterMap fun t =>
    if jobKey t.jobName = k then taskIp a.id (extractIp a.endpoint) t loc else none

/-- The addresses of the running tasks with exactly this name, on the agents that the books of the
leader have for it. -/
def booked (name : String) : List Ipv4 :=
  if (c.leader.store.get name).isNone then []
  else (c.placedAgents name).flatMap fun a => (c.tasksOn name a.id).filterMap fun t =>
    taskIp a.id (extractIp a.endpoint) t loc

theorem taskIp_system {agent : String} {ip : Option Ipv4} {t : Task} {known : Bool × Bool}
    (h : t ∈ Api.systemTasks known) : taskIp agent ip t loc = none := by
  have hstate : t.state = .system := by
    rw [Api.systemTasks] at h
    rcases List.mem_append.mp h with h | h
    · split_ifs at h
      · rw [List.mem_singleton.mp h]
        rfl
      · cases h
    · split_ifs at h
      · rw [List.mem_singleton.mp h]
        rfl
      · cases h
  exact if_pos (by rw [hstate]; decide)

theorem get?_full (k : Bytes) :
    (buildJobs c.agents c.tasks loc).get? k = entryOf (running c loc k) := by
  have hsilent : ∀ as : List Agent, pairs (as.map fun a => ⟨a.id, none⟩) = [] := by
    intro as
    rw [pairs, List.flatMap_map]
    simp
  -- one agent after the other; the system tasks have no address
  have hagents : ∀ as : List Agent, (∀ a ∈ as, a ∈ c.agents) →
      ((pairs (as.filterMap fun a => (c.answer a.id).map fun ts =>
        ⟨a.id, some (ts ++ Api.systemTasks (c.measured a.id))⟩)).filter fun p =>
          jobKey p.2.jobName = k).filterMap (pairIp c.agents loc) =
      as.flatMap fun a => ((c.answer a.id).getD []).filterMap fun t =>
        if jobKey t.jobName = k then taskIp a.id (extractIp a.endpoint) t loc else none := by
    intro as has
    induction as with
    | nil => rfl
    | cons a as ih =>
      obtain ⟨ha, has⟩ := List.forall_mem_cons.mp has
      have hip : agentIp c.agents a.id = extractIp a.endpoint :=
        agentIp_of_mem c.leader.agentsSorted ha
      rw [List.flatMap_cons, ← ih has]
      rcases hans : c.answer a.id with _ | ts
      · rw [List.filterMap_cons_none (by rw [hans]; rfl)]
        rfl
      · rw [List.filterMap_cons_some (by rw [hans]; rfl), pairs, List.flatMap_cons,
          List.filter_append, List.filterMap_append]
        congr 1
        have hsystem : ((Api.systemTasks (c.measured a.id)).map fun t => (a.id, t)).filterMap
            (fun p => if jobKey p.2.jobName = k then pairIp c.agents loc p else none) = [] := by
          rw [List.filterMap_eq_nil_iff]
          intro p hp
          obtain ⟨t, ht, rfl⟩ := List.mem_map.mp hp
          rw [pairIp, taskIp_system loc ht, ite_self]
        rw [List.filterMap_filter]
        simp only [Option.getD_some, List.map_append, List.filterMap_append,
          decide_eq_true_eq]
        rw [hsystem, List.append_nil, List.filterMap_map]
        refine List.filterMap_congr fun t _ => ?_
        simp only [Function.comp_apply, pairIp, hip]
  rw [get?_buildJobs, Cluster.tasks, pairs, List.flatMap_append, ← pairs, ← pairs, hsilent,
    List.append_nil, hagents _ fun a ha => ha, running]

theorem toLower_cases (ch : Char) : ch.toLower = ch ∨
    (97 ≤ ch.toLower.val.toNat ∧ ch.toLower.val.toNat ≤ 122) := by
  by_cases h : 'A'.val ≤ ch.val ∧ ch.val ≤ 'Z'.val
  · right
    have hlow : ch.toLower.val = ch.val + 32 := by
      rw [Char.toLower, dif_pos h]
      rfl
    have hle : 65 ≤ ch.val.toNat := UInt32.le_iff_toNat_le.mp h.1
    have hge : ch.val.toNat ≤ 90 := UInt32.le_iff_toNat_le.mp h.2
    have hsum : (ch.val + 32).toNat = (ch.val.toNat + 32) % 2 ^ 32 := rfl
    rw [hlow, hsum]
    omega
  · left
    rw [Char.toLower, dif_neg h]

theorem toLower_toLower (ch : Char) : ch.toLower.toLower = ch.toLower := by
  rcases toLower_cases ch with h | h
  · rw [h, h]
  · have hnot : ¬('A'.val ≤ ch.toLower.val ∧ ch.toLower.val ≤ 'Z'.val) := by
      rintro ⟨-, hle⟩
      have : ch.toLower.val.toNat ≤ 90 := UInt32.le_iff_toNat_le.mp hle
      omega
    rw [Char.toLower.eq_def ch.toLower, dif_neg hnot]

theorem lowerText_lowerText (s : String) : lowerText (lowerText s) = lowerText s := by
  rw [lowerText, lowerText, String.toList_ofList, List.map_map]
  congr 1
  exact List.map_congr_left fun ch _ => toLower_toLower ch

theorem jobKey_lowerText (name : String) : jobKey (lowerText name) = jobKey name := by
  rw [jobKey, lowerText_lowerText, jobKey]

theorem slash_mem_lowerText :
    '/' ∈ (lowerText name).toList ↔ '/' ∈ name.toList := by
  rw [lowerText, String.toList_ofList, List.mem_map]
  constructor
  · rintro ⟨ch, hmem, heq⟩
    rcases toLower_cases ch with h | h
    · rwa [← heq, h]
    · rw [heq] at h
      exact absurd h.1 (by decide)
  · exact fun h => ⟨'/', h, by decide⟩

theorem lowerText_eq_empty : lowerText name = "" ↔ name = "" := by
  rw [← String.toList_inj, ← String.toList_inj, lowerText, String.toList_ofList]
  simp

/-- What the leader answers about one job. -/
theorem buildJob_jobStatus {st : JobStatus} (hst : c.jobStatus name = some st) :
    buildJob name st.agents st.tasks loc = uniq (booked c loc name) := by
  rw [Cluster.jobStatus] at hst
  rw [booked]
  by_cases hname : name = "" ∨ '/' ∈ name.toList
  · rw [if_pos hname] at hst
    cases hst
  rw [if_neg hname] at hst
  by_cases hjob : (c.leader.store.get name).isNone
  · rw [if_pos hjob] at hst ⊢
    cases hst
    rfl
  rw [if_neg hjob] at hst ⊢
  have hplaced : ∀ as : List Agent, (∀ a ∈ as, a ∈ c.placedAgents name) →
      ((pairs (as.filterMap fun a => if c.tasksOn name a.id = [] then none
        else some ⟨a.id, some (c.tasksOn name a.id)⟩)).filter fun p =>
          lowerText p.2.jobName = lowerText name).filterMap (pairIp (c.placedAgents name) loc) =
      as.flatMap fun a => (c.tasksOn name a.id).filterMap fun t =>
        taskIp a.id (extractIp a.endpoint) t loc := by
    intro as has
    induction as with
    | nil => rfl
    | cons a as ih =>
      obtain ⟨ha, has⟩ := List.forall_mem_cons.mp has
      have hip : agentIp (c.placedAgents name) a.id = extractIp a.endpoint :=
        agentIp_of_mem (c.leader.agentsSorted.filter _) ha
      rw [List.flatMap_cons, ← ih has]
      by_cases hmine : c.tasksOn name a.id = []
      · rw [List.filterMap_cons_none (by exact if_pos hmine), hmine]
        rfl
      · rw [List.filterMap_cons_some (by exact if_neg hmine), pairs, List.flatMap_cons, List.filter_append,
          List.filterMap_append]
        congr 1
        rw [List.filter_eq_self.mpr, List.filterMap_map]
        · refine List.filterMap_congr fun t _ => ?_
          simp only [Function.comp_apply, pairIp, hip]
        · intro p hp
          obtain ⟨t, ht, rfl⟩ := List.mem_map.mp hp
          rw [Option.getD_some] at ht
          have := (List.mem_filter.mp ht).2
          simp only [decide_eq_true_eq] at this ⊢
          rw [this]
  by_cases hnone : c.placedAgents name = []
  · rw [if_pos hnone] at hst
    cases hst
    rw [hnone]
    rfl
  · rw [if_neg hnone] at hst
    cases hst
    rw [buildJob_eq]
    exact congrArg uniq (hplaced _ fun a ha => ha)

end Names

/-! ### Job events -/

/-- The event of a job. -/
def jobEvent (name : String) : Hoplib.Event := ⟨utf8 "job", object [("name", name)]⟩

/-- A name that the reader of JSON refuses. -/
def TooLong (name : String) : Prop := Json.maxInput < (object [("name", name)]).length

instance (name : String) : Decidable (TooLong name) :=
  inferInstanceAs (Decidable (Json.maxInput < _))

theorem classify_of_tooLong (h : TooLong name) : classify (jobEvent name) = .full := by
  rw [TooLong, Hoplib.object_eq, Json.length_write] at h
  rw [classify, jobEvent, Hoplib.topic_job, Hoplib.object_eq, Json.parse_write_tooLarge h]
  rfl

theorem classify_of_fits (h : ¬TooLong name) :
    classify (jobEvent name) = if name = "" then .ignore else .job name := by
  obtain ⟨o, ho, hname⟩ := Hoplib.field_object "name" name (Nat.not_lt.mp h)
  rw [classify, jobEvent, Hoplib.topic_job, ho, Except.map, hname]

/-- What happens at a watcher: the event of a job, or a turn of the loop. -/
inductive Op
  | event (now : Nanos) (name : String)
  | next (now : Nanos)

/-- The jobs that were announced. -/
def announced : List Op → List String
  | [] => []
  | .event _ name :: ops => name :: announced ops
  | .next _ :: ops => announced ops

/-- One step of the driver; the leader answers from the cluster as it is now. -/
def step (c : Cluster) (loc : Option Local) (s : Watcher × Cache) : Op → Watcher × Cache
  | .event now name => (s.1.event now (jobEvent name), s.2)
  | .next now =>
    match s.1.next now with
    | (.refresh what, w) => refresh c loc w what now s.2
    | (_, w) => (w, s.2)

def run (c : Cluster) (loc : Option Local) (s : Watcher × Cache) (ops : List Op) : Watcher × Cache :=
  ops.foldl (step c loc) s

/-- Nothing waits. -/
def Watcher.Idle (w : Watcher) : Prop := w.due = none ∧ w.full = false ∧ w.jobs = []

/-- The leader refuses to answer about this name. -/
def Refused (name : String) : Prop := name = "" ∨ '/' ∈ name.toList

theorem jobStatus_eq_none_iff {c : Cluster} :
    c.jobStatus name = none ↔ Refused name := by
  rw [Cluster.jobStatus, Refused]
  by_cases h : name = "" ∨ '/' ∈ name.toList
  · rw [if_pos h]
    exact ⟨fun _ => h, fun _ => rfl⟩
  · rw [if_neg h]
    refine ⟨fun heq => ?_, fun h' => absurd h' h⟩
    dsimp only at heq
    split_ifs at heq

/-! ### The conditions -/

section Agree

variable (c c' : Cluster) (loc : Option Local)

/-- The tasks of a job on a registered agent. -/
def listed (c : Cluster) (name id : String) : List Task :=
  if ∃ a ∈ c.agents, a.id = id then c.tasksOn name id else []

/-- The tasks of the job differ between the two clusters. -/
def Changed (name : String) : Prop := ∃ id, listed c name id ≠ listed c' name id

/-- The event of this job ends in a full refresh. -/
def EndsInFull (name : String) : Prop := TooLong name ∨ '/' ∈ name.toList

/-- When the incremental refresh agrees with the full one. -/
structure Agrees : Prop where
  /-- The books of the leader lead to all running tasks of a changed job, and there is one. -/
  told : ∀ n, Changed c c' n → n ≠ "" → ¬EndsInFull n →
    running c' loc (jobKey n) ≠ [] ∧
      uniq (booked c' loc (lowerText n)) = uniq (running c' loc (jobKey n))
  /-- What no event is about has the addresses that it had. -/
  kept : (∃ n, Changed c c' n ∧ EndsInFull n) ∨
    ∀ k, (∀ n, Changed c c' n → n ≠ "" → jobKey n ≠ k) →
      uniq (running c loc k) = uniq (running c' loc k)

end Agree

/-! ### Runs -/

section Runs

variable {c c' : Cluster} {loc : Option Local} {cl : Bytes} {cache : Cache}

/-- The picture of a cluster. -/
abbrev picture (c : Cluster) (loc : Option Local) : Jobs := buildJobs c.agents c.tasks loc

theorem set_update (cache : Cache) (cl k : Bytes) (jobs : Jobs) (ips : List Ipv4) :
    (cache.update cl jobs).set cl k ips = cache.update cl (jobs.insert k ips) := by
  rw [Cache.set, Cache.update, SortedMap.get?_insert_self]
  dsimp only
  rw [SortedMap.insert_insert_self]
  rfl

theorem update_update (cache : Cache) (cl : Bytes) (jobs jobs' : Jobs) :
    (cache.update cl jobs).update cl jobs' = cache.update cl jobs' := by
  rw [Cache.update, Cache.update, SortedMap.insert_insert_self]
  rfl

/-- What the loop over the jobs does. -/
theorem refreshJobs_spec {w : Watcher} (hw : w.cluster = some cl) (names : List String)
    (jobs : Jobs) : ∃ ok jobs', refreshJobs c' loc w names (cache.update cl jobs) =
      (ok, cache.update cl jobs') ∧ (ok = true → (∀ n ∈ names, ¬Refused n) ∧
        ∀ k, (∃ n ∈ names, jobKey n = k ∧ jobs'.get? k = some (uniq (booked c' loc n))) ∨
          ((∀ n ∈ names, jobKey n ≠ k) ∧ jobs'.get? k = jobs.get? k)) := by
  induction names generalizing jobs with
  | nil =>
    refine ⟨true, jobs, rfl, fun _ => ⟨fun n hn => (nomatch hn), fun k => ?_⟩⟩
    exact .inr ⟨fun n hn => (nomatch hn), rfl⟩
  | cons n names ih =>
    rw [refreshJobs]
    rcases hst : c'.jobStatus n with _ | st
    · exact ⟨false, jobs, rfl, fun h => (nomatch h)⟩
    · have hok : ¬Refused n := fun h => by
        rw [jobStatus_eq_none_iff.mpr h] at hst
        cases hst
      have hupdate : w.refreshedJob n st loc =
          some (.set cl (jobKey n) (uniq (booked c' loc n))) := by
        rw [Watcher.refreshedJob, hw, buildJob_jobStatus c' loc hst]
        rfl
      rw [Option.bind_some, hupdate]
      dsimp only [Update.apply]
      rw [set_update]
      obtain ⟨ok, jobs', hrun, hspec⟩ := ih (jobs.insert (jobKey n) (uniq (booked c' loc n)))
      refine ⟨ok, jobs', hrun, fun h => ?_⟩
      obtain ⟨hnames, hget⟩ := hspec h
      refine ⟨List.forall_mem_cons.mpr ⟨hok, hnames⟩, fun k => ?_⟩
      rcases hget k with ⟨m, hm, hk, hval⟩ | ⟨hother, hval⟩
      · exact .inl ⟨m, List.mem_cons_of_mem n hm, hk, hval⟩
      · rw [SortedMap.get?_insert] at hval
        by_cases hk : jobKey n = k
        · rw [if_pos hk] at hval
          exact .inl ⟨n, List.mem_cons_self, hk, hval⟩
        · rw [if_neg hk] at hval
          exact .inr ⟨List.forall_mem_cons.mpr ⟨hk, hother⟩, hval⟩

variable (c c' loc cl cache)

/-- A watcher in the middle of its work: each name has its new addresses, or its old ones and is
not forgotten, or a full refresh waits. -/
structure Working (w : Watcher) (jobs : Jobs) (seen : List String) : Prop where
  cluster : w.cluster = some cl
  waits : w.due = none → w.full = false ∧ w.jobs = []
  names : ∀ j ∈ w.jobs, ∃ n ∈ seen, lowerText n = j ∧ n ≠ "" ∧ ¬TooLong n
  entries : w.full = true ∨ ∀ k, jobs.get? k = (picture c' loc).get? k ∨
    (jobs.get? k = (picture c loc).get? k ∧ ∀ n ∈ seen, ¬TooLong n ∧
      (n ≠ "" → lowerText n ∈ w.jobs ∨ (jobKey n ≠ k ∧ '/' ∉ n.toList)))

variable {c c' loc cl cache}

namespace Working

variable {w : Watcher} {jobs : Jobs} {seen : List String}

/-- A full refresh waits. -/
theorem pendFull (h : Working c c' loc cl w jobs seen) (now : Nanos) (n : String) :
    Working c c' loc cl (w.pendFull now) jobs (seen ++ [n]) where
  cluster := h.cluster
  waits hdue := (nomatch hdue)
  names _ hj := (nomatch hj)
  entries := .inl rfl

theorem event (h : Working c c' loc cl w jobs seen) (now : Nanos) (n : String) :
    Working c c' loc cl (w.event now (jobEvent n)) jobs (seen ++ [n]) := by
  have hnames : ∀ j ∈ w.jobs, ∃ m ∈ seen ++ [n], lowerText m = j ∧ m ≠ "" ∧ ¬TooLong m := by
    intro j hj
    obtain ⟨m, hm, hspec⟩ := h.names j hj
    exact ⟨m, List.mem_append_left _ hm, hspec⟩
  rw [Watcher.event]
  by_cases hlong : TooLong n
  · rw [classify_of_tooLong hlong]
    exact h.pendFull now n
  rw [classify_of_fits hlong]
  by_cases hempty : n = ""
  · -- the event of a job without a name is ignored
    rw [if_pos hempty]
    refine ⟨h.cluster, h.waits, hnames, h.entries.imp_right fun hk k => ?_⟩
    refine (hk k).imp_right fun hT => ⟨hT.1, fun m hm => ?_⟩
    rcases List.mem_append.mp hm with hm | hm
    · exact hT.2 m hm
    · rw [List.mem_singleton.mp hm]
      exact ⟨hlong, fun hne => absurd hempty hne⟩
  rw [if_neg hempty]
  dsimp only
  by_cases hfull : w.full = true
  · rw [if_pos hfull]
    exact ⟨h.cluster, h.waits, hnames, .inl hfull⟩
  rw [if_neg hfull]
  by_cases hmem : lowerText n ∈ w.jobs
  · rw [if_pos hmem]
    refine ⟨h.cluster, fun hdue => (nomatch hdue), hnames, h.entries.imp_right fun hk k => ?_⟩
    refine (hk k).imp_right fun hT => ⟨hT.1, fun m hm => ?_⟩
    rcases List.mem_append.mp hm with hm | hm
    · exact hT.2 m hm
    · rw [List.mem_singleton.mp hm]
      exact ⟨hlong, fun _ => .inl hmem⟩
  rw [if_neg hmem]
  by_cases hmany : maxPending ≤ w.jobs.length
  · rw [if_pos hmany]
    exact h.pendFull now n
  rw [if_neg hmany]
  refine ⟨h.cluster, fun hdue => (nomatch hdue), fun j hj => ?_, h.entries.imp_right fun hk k => ?_⟩
  · rcases List.mem_append.mp hj with hj | hj
    · exact hnames j hj
    · exact ⟨n, List.mem_append_right _ List.mem_cons_self, (List.mem_singleton.mp hj).symm, hempty,
        hlong⟩
  · refine (hk k).imp_right fun hT => ⟨hT.1, fun m hm => ?_⟩
    rcases List.mem_append.mp hm with hm | hm
    · refine ⟨(hT.2 m hm).1, fun hne => ?_⟩
      exact ((hT.2 m hm).2 hne).imp_left fun hj => List.mem_append_left _ hj
    · rw [List.mem_singleton.mp hm]
      exact ⟨hlong, fun _ => .inl (List.mem_append_right _ List.mem_cons_self)⟩

/-- A turn of the loop. -/
theorem next (h : Working c c' loc cl w jobs seen) (hagree : Agrees c c' loc)
    (hseen : ∀ n ∈ seen, Changed c c' n) (now : Nanos) :
    ∃ w' jobs', step c' loc (w, cache.update cl jobs) (.next now) = (w', cache.update cl jobs') ∧
      Working c c' loc cl w' jobs' seen := by
  have hcluster : w.cluster.isNone = false := by
    rw [h.cluster]
    rfl
  rw [step, Watcher.next, hcluster]
  simp only [Bool.false_eq_true, if_false]
  rcases hdue : w.due with _ | t
  · exact ⟨w, jobs, rfl, h⟩
  dsimp only
  by_cases hnow : t ≤ now
  swap
  · rw [if_neg hnow]
    exact ⟨w, jobs, rfl, h⟩
  rw [if_pos hnow]
  dsimp only
  by_cases hfull : w.full = true
  · -- a full refresh: all names have their new addresses
    rw [if_pos hfull, refresh]
    dsimp only [Watcher.refreshedFull]
    rw [h.cluster]
    dsimp only [Option.map_some, Update.apply]
    rw [update_update]
    refine ⟨_, picture c' loc, rfl, rfl, fun _ => ⟨rfl, rfl⟩, fun j hj => (nomatch hj), ?_⟩
    exact .inr fun k => .inl rfl
  rw [if_neg hfull, refresh]
  obtain ⟨ok, jobs', hrun, hspec⟩ := @refreshJobs_spec c' loc cl cache
    { w with due := none, jobs := [], full := false } h.cluster w.jobs jobs
  rw [hrun]
  dsimp only
  rcases ok with _ | _
  · -- the leader refused a name: everything, at once
    exact ⟨_, jobs', rfl, h.cluster, fun hd => (nomatch hd), fun j hj => (nomatch hj), .inl rfl⟩
  obtain ⟨hok, hget⟩ := hspec rfl
  refine ⟨_, jobs', rfl, h.cluster, fun _ => ⟨rfl, rfl⟩, fun j hj => (nomatch hj), .inr fun k => ?_⟩
  rcases hget k with ⟨j, hj, hkey, hval⟩ | ⟨hother, hval⟩
  · -- a name that was asked for has what the leader told
    left
    obtain ⟨n, hn, rfl, hne, hlong⟩ := h.names j hj
    have hslash : '/' ∉ n.toList := fun hs => hok _ hj (.inr (slash_mem_lowerText.mpr hs))
    obtain ⟨hrun', htold⟩ := hagree.told n (hseen n hn) hne (not_or.mpr ⟨hlong, hslash⟩)
    rw [jobKey_lowerText] at hkey
    rw [hval, get?_full, ← hkey, entryOf, if_neg hrun', htold]
  · rcases (h.entries.resolve_left hfull) k with hF | ⟨hT, hwait⟩
    · exact .inl (hval.trans hF)
    · refine .inr ⟨hval.trans hT, fun n hn => ⟨(hwait n hn).1, fun hne => .inr ?_⟩⟩
      rcases (hwait n hn).2 hne with hj | hdone
      · refine ⟨?_, fun hs => hok _ hj (.inr (slash_mem_lowerText.mpr hs))⟩
        have := hother _ hj
        rwa [jobKey_lowerText] at this
      · exact hdone

theorem run (ops : List Op) (h : Working c c' loc cl w jobs seen) (hagree : Agrees c c' loc)
    (hseen : ∀ n ∈ seen ++ announced ops, Changed c c' n) :
    ∃ w' jobs', Dns.run c' loc (w, cache.update cl jobs) ops = (w', cache.update cl jobs') ∧
      Working c c' loc cl w' jobs' (seen ++ announced ops) := by
  induction ops generalizing w jobs seen with
  | nil =>
    rw [announced, List.append_nil]
    exact ⟨w, jobs, rfl, h⟩
  | cons op ops ih =>
    rcases op with ⟨now, n⟩ | now
    · have hsplit : seen ++ announced (.event now n :: ops) = seen ++ [n] ++ announced ops := by
        simp [announced]
      rw [hsplit] at hseen ⊢
      exact ih (h.event now n) hseen
    · obtain ⟨w₁, jobs₁, hstep, h₁⟩ := @next c c' loc cl cache w jobs seen h hagree
        (fun n hn => hseen n (List.mem_append_left _ hn)) now
      obtain ⟨w', jobs', hrun, h'⟩ := ih h₁ hseen
      refine ⟨w', jobs', ?_, h'⟩
      rw [Dns.run, List.foldl_cons, hstep]
      exact hrun

/-- When nothing waits any more, all names have their new addresses. -/
theorem done (h : Working c c' loc cl w jobs seen) (hagree : Agrees c c' loc) (hdue : w.due = none)
    (hseen : ∀ n, Changed c c' n → n ∈ seen) : jobs = picture c' loc := by
  obtain ⟨hfull, hjobs⟩ := h.waits hdue
  refine SortedMap.ext_get? fun k => ?_
  rcases h.entries with hf | hk
  · rw [hfull] at hf
    cases hf
  rcases hk k with hF | ⟨hT, hwait⟩
  · exact hF
  have hdone : ∀ n, Changed c c' n → n ≠ "" → jobKey n ≠ k ∧ '/' ∉ n.toList := by
    intro n hn hne
    refine ((hwait n (hseen n hn)).2 hne).resolve_left fun hj => ?_
    rw [hjobs] at hj
    cases hj
  rw [hT, get?_full, get?_full, entryOf_inj]
  rcases hagree.kept with ⟨n, hn, hlong | hslash⟩ | hkept
  · exact absurd hlong (hwait n (hseen n hn)).1
  · have hne : n ≠ "" := by
      rintro rfl
      cases hslash
    exact absurd hslash (hdone n hn hne).2
  · exact hkept k fun n hn hne => (hdone n hn hne).1

end Working

/-! ### One event after the other -/

instance (n : String) : Decidable (EndsInFull n) :=
  inferInstanceAs (Decidable (TooLong n ∨ '/' ∈ n.toList))

/-- The event of a job, and the turns of the loop that it needs. -/
def turn (n : String) : List Op := [.event 0 n, .next u64Max, .next u64Max]

variable (c' loc) in
/-- What a turn makes of the picture. -/
def turned (jobs : Jobs) (n : String) : Jobs :=
  if n = "" then jobs
  else if EndsInFull n then picture c' loc
  else jobs.insert (jobKey n) (uniq (booked c' loc (lowerText n)))

theorem next_idle {w : Watcher} (hw : w.cluster = some cl) (h : w.Idle) (now : Nanos) (x : Cache) :
    step c' loc (w, x) (.next now) = (w, x) := by
  rw [step, Watcher.next, hw, h.1]
  rfl

theorem idle_lost (w : Watcher) : w.lost.Idle := ⟨rfl, rfl, rfl⟩

theorem next_full {w : Watcher} {t now : Nanos} (hw : w.cluster = some cl) (hdue : w.due = some t)
    (hle : t ≤ now) (hfull : w.full = true) (jobs : Jobs) :
    step c' loc (w, cache.update cl jobs) (.next now) =
      (w.lost, cache.update cl (picture c' loc)) := by
  rw [step, Watcher.next, Watcher.lost, hw, hdue]
  simp only [Option.isNone_some, Bool.false_eq_true, if_false, if_pos hle, if_pos hfull, refresh,
    Watcher.refreshedFull, Option.map_some, Update.apply, update_update]

theorem run_turn {w : Watcher} (hw : w.cluster = some cl) (h : w.Idle) (jobs : Jobs) (n : String) :
    ∃ w', run c' loc (w, cache.update cl jobs) (turn n) = (w', cache.update cl (turned c' loc jobs n)) ∧
      w'.cluster = some cl ∧ w'.Idle := by
  obtain ⟨hdue, hfull, hjobs⟩ := h
  rw [run, turn, List.foldl_cons, List.foldl_cons, List.foldl_cons, List.foldl_nil, turned]
  by_cases hempty : n = ""
  · have hevent : w.event 0 (jobEvent n) = w := by
      have hfits : ¬TooLong n := by
        rw [hempty]
        decide
      rw [Watcher.event, classify_of_fits hfits, if_pos hempty]
    rw [step, hevent, next_idle hw ⟨hdue, hfull, hjobs⟩, next_idle hw ⟨hdue, hfull, hjobs⟩,
      if_pos hempty]
    exact ⟨w, rfl, hw, hdue, hfull, hjobs⟩
  rw [if_neg hempty]
  by_cases hlong : TooLong n
  · have hevent : w.event 0 (jobEvent n) = w.pendFull 0 := by
      rw [Watcher.event, classify_of_tooLong hlong]
    have hw' : (w.pendFull 0).cluster = some cl := hw
    have hdue' : (w.pendFull 0).due = some (satAdd u64Max 0 w.debounce) := by
      rw [Watcher.pendFull, Watcher.arm, hdue]
      rfl
    rw [step, hevent, next_full hw' hdue' (satAdd_le_max _ _ _) rfl, if_pos (.inl hlong)]
    have hlost : (w.pendFull 0).lost.cluster = some cl := hw
    exact ⟨_, next_idle hlost (idle_lost _) _ _, hlost, idle_lost _⟩
  -- the job is asked for
  have hevent : w.event 0 (jobEvent n) =
      { w with jobs := [lowerText n], due := some (satAdd u64Max 0 w.debounce) } := by
    rw [Watcher.event, classify_of_fits hlong, if_neg hempty]
    simp only [hfull, hjobs, hdue, Watcher.arm, maxPending]
    rfl
  have hle : satAdd u64Max 0 w.debounce ≤ u64Max := satAdd_le_max _ _ _
  have hnext : step c' loc (w.event 0 (jobEvent n), cache.update cl jobs) (.next u64Max) =
      refresh c' loc w.lost (.jobs [lowerText n]) u64Max (cache.update cl jobs) := by
    rw [hevent, step, Watcher.next, Watcher.lost]
    simp only [hw, hfull, Option.isNone_some, Bool.false_eq_true, if_false, if_pos hle]
  have hstep : step c' loc (w, cache.update cl jobs) (.event 0 n) =
      (w.event 0 (jobEvent n), cache.update cl jobs) := rfl
  rw [hstep, hnext, refresh]
  by_cases hslash : '/' ∈ n.toList
  · -- the leader refuses the name: everything, at once
    have hrefused : refreshJobs c' loc w.lost [lowerText n] (cache.update cl jobs) =
        (false, cache.update cl jobs) := by
      have hnone : c'.jobStatus (lowerText n) = none :=
        jobStatus_eq_none_iff.mpr (.inr (slash_mem_lowerText.mpr hslash))
      rw [refreshJobs, hnone]
      rfl
    have hends : EndsInFull n := .inr hslash
    rw [if_pos hends]
    dsimp only
    rw [hrefused]
    have hfailed : (w.lost.refreshFailed u64Max (.jobs [lowerText n])).cluster = some cl := hw
    exact ⟨_, next_full hfailed rfl (le_refl u64Max) rfl jobs, hw, idle_lost _⟩
  · have hnot : ¬Refused (lowerText n) := by
      rintro (he | hs)
      · exact hempty (lowerText_eq_empty.mp he)
      · exact hslash (slash_mem_lowerText.mp hs)
    have hends : ¬EndsInFull n := not_or.mpr ⟨hlong, hslash⟩
    obtain ⟨st, hst⟩ := Option.ne_none_iff_exists'.mp fun h => hnot (jobStatus_eq_none_iff.mp h)
    have hlost : w.lost.cluster = some cl := hw
    have htold : refreshJobs c' loc w.lost [lowerText n] (cache.update cl jobs) =
        (true, cache.update cl (jobs.insert (jobKey n) (uniq (booked c' loc (lowerText n))))) := by
      rw [refreshJobs, hst, Option.bind_some, Watcher.refreshedJob, hlost,
        buildJob_jobStatus c' loc hst, jobKey_lowerText]
      dsimp only [Option.map_some, Update.apply]
      rw [set_update, refreshJobs]
    rw [if_neg hends]
    dsimp only
    rw [htold]
    exact ⟨_, next_idle hlost (idle_lost w) _ _, hlost, idle_lost w⟩

theorem run_turns {w : Watcher} (hw : w.cluster = some cl) (h : w.Idle) (jobs : Jobs)
    (ns : List String) : ∃ w', run c' loc (w, cache.update cl jobs) (ns.flatMap turn) =
      (w', cache.update cl (ns.foldl (turned c' loc) jobs)) ∧ w'.cluster = some cl ∧ w'.Idle := by
  induction ns generalizing w jobs with
  | nil => exact ⟨w, rfl, hw, h⟩
  | cons n ns ih =>
    obtain ⟨w₁, hrun₁, hw₁, h₁⟩ := @run_turn c' loc cl cache w hw h jobs n
    obtain ⟨w', hrun, hw', h'⟩ := ih hw₁ h₁ (turned c' loc jobs n)
    refine ⟨w', ?_, hw', h'⟩
    rw [List.flatMap_cons, run, List.foldl_append]
    rw [run] at hrun₁
    rw [hrun₁]
    exact hrun

theorem announced_turns (ns : List String) : announced (ns.flatMap turn) = ns := by
  induction ns with
  | nil => rfl
  | cons n ns ih =>
    rw [List.flatMap_cons, turn, List.cons_append, announced]
    exact congrArg (n :: ·) ih

/-! ### The two refreshes -/

theorem mem_names_of_changed {n : String} (h : Changed c c' n) :
    n ∈ (c.agents ++ c'.agents).flatMap fun a =>
      ((c.answer a.id).getD [] ++ (c'.answer a.id).getD []).map Task.jobName := by
  have hmem : ∀ (d : Cluster) (id : String) (t : Task), t ∈ listed d n id → ∃ a ∈ d.agents,
      a.id = id ∧ t ∈ (d.answer a.id).getD [] ∧ t.jobName = n := by
    intro d id t ht
    rw [listed] at ht
    split_ifs at ht with hid
    · obtain ⟨a, ha, rfl⟩ := hid
      obtain ⟨hin, hname⟩ := List.mem_filter.mp ht
      exact ⟨a, ha, rfl, hin, by simpa using hname⟩
    · cases ht
  -- one of the two lists has a task
  obtain ⟨id, hne⟩ := h
  rw [List.mem_flatMap]
  rcases hl : listed c n id with _ | ⟨t, ts⟩
  · rcases hl' : listed c' n id with _ | ⟨t, ts⟩
    · exact absurd (hl.trans hl'.symm) hne
    · obtain ⟨a, ha, -, ht, hname⟩ := hmem c' id t (hl' ▸ List.mem_cons_self)
      refine ⟨a, List.mem_append_right _ ha, List.mem_map.mpr ⟨t, ?_, hname⟩⟩
      exact List.mem_append_right _ ht
  · obtain ⟨a, ha, -, ht, hname⟩ := hmem c id t (hl ▸ List.mem_cons_self)
    refine ⟨a, List.mem_append_left _ ha, List.mem_map.mpr ⟨t, ?_, hname⟩⟩
    exact List.mem_append_left _ ht

/-- The changed jobs, in some order. -/
theorem exists_names (c c' : Cluster) : ∃ ns : List String, ∀ n, n ∈ ns ↔ Changed c c' n := by
  classical
  refine ⟨((c.agents ++ c'.agents).flatMap fun a =>
    ((c.answer a.id).getD [] ++ (c'.answer a.id).getD []).map Task.jobName).filter
      fun n => Changed c c' n, fun n => ?_⟩
  rw [List.mem_filter]
  simp only [decide_eq_true_eq]
  exact ⟨fun h => h.2, fun h => ⟨mem_names_of_changed h, h⟩⟩

theorem get?_foldl_turned {k : Bytes} (ns : List String)
    (h : ∀ n ∈ ns, n = "" ∨ (¬EndsInFull n ∧ jobKey n ≠ k)) (jobs : Jobs) :
    (ns.foldl (turned c' loc) jobs).get? k = jobs.get? k := by
  induction ns generalizing jobs with
  | nil => rfl
  | cons n ns ih =>
    obtain ⟨hn, hns⟩ := List.forall_mem_cons.mp h
    rw [List.foldl_cons, ih hns, turned]
    rcases hn with rfl | ⟨hfull, hk⟩
    · rw [if_pos rfl]
    · by_cases hempty : n = ""
      · rw [if_pos hempty]
      · rw [if_neg hempty, if_neg hfull, SortedMap.get?_insert, if_neg hk]

/-- The entry of a name after some turns. -/
theorem get?_foldl_turned_cases (k : Bytes) (ns : List String) (jobs : Jobs) :
    (ns.foldl (turned c' loc) jobs).get? k = jobs.get? k ∨
      (ns.foldl (turned c' loc) jobs).get? k = (picture c' loc).get? k ∨
      ∃ n ∈ ns, (ns.foldl (turned c' loc) jobs).get? k =
        some (uniq (booked c' loc (lowerText n))) := by
  induction ns generalizing jobs with
  | nil => exact .inl rfl
  | cons n ns ih =>
    rw [List.foldl_cons]
    rcases ih (turned c' loc jobs n) with h | h | ⟨m, hm, h⟩
    · rw [h, turned]
      split_ifs
      · exact .inl rfl
      · exact .inr (.inl rfl)
      · rw [SortedMap.get?_insert]
        split_ifs
        · exact .inr (.inr ⟨n, List.mem_cons_self, rfl⟩)
        · exact .inl rfl
    · exact .inr (.inl h)
    · exact .inr (.inr ⟨m, List.mem_cons_of_mem n hm, h⟩)

variable (c c' loc) in
/-- A name that the two clusters know something about. -/
def Known (k : Bytes) : Prop :=
  running c loc k ≠ [] ∨ running c' loc k ≠ [] ∨ ∃ n, Changed c c' n ∧ n ≠ "" ∧ jobKey n = k

/-- **The conditions are necessary**: if they fail, the events in some order leave another picture
of a name that the clusters know. -/
theorem agrees_of_entries (h : ∀ ns : List String, (∀ n, n ∈ ns ↔ Changed c c' n) → ∀ k,
    Known c c' loc k →
      (ns.foldl (turned c' loc) (picture c loc)).get? k = (picture c' loc).get? k) :
    Agrees c c' loc := by
  obtain ⟨ns, hns⟩ := exists_names c c'
  refine ⟨fun n hn hne hfull => ?_, ?_⟩
  · -- the event of this job comes last
    have hlast := h (ns ++ [n]) (fun m => by
      rw [List.mem_append, List.mem_singleton, hns]
      exact ⟨fun h => h.elim id fun h => h ▸ hn, .inl⟩) (jobKey n) (.inr (.inr ⟨n, hn, hne, rfl⟩))
    rw [List.foldl_append, List.foldl_cons, List.foldl_nil, turned, if_neg hne, if_neg hfull,
      SortedMap.get?_insert_self, get?_full, entryOf] at hlast
    split_ifs at hlast with hrunning
    exact ⟨hrunning, Option.some.inj hlast⟩
  · by_cases hfull : ∃ n, Changed c c' n ∧ EndsInFull n
    · exact .inl hfull
    · refine .inr fun k hk => ?_
      by_cases hknown : Known c c' loc k
      · have hget := h ns hns k hknown
        rw [get?_foldl_turned ns, get?_full, get?_full, entryOf_inj] at hget
        · exact hget
        · intro n hn
          by_cases hempty : n = ""
          · exact .inl hempty
          · have hchanged := (hns n).mp hn
            exact .inr ⟨fun hf => hfull ⟨n, hchanged, hf⟩, hk n hchanged hempty⟩
      · rw [Known, not_or, not_or, not_not, not_not] at hknown
        rw [hknown.1, hknown.2.1]

/-- **The conditions are enough**: whatever the order of the events and the turns between them, the
cache becomes that of a full refresh. -/
theorem caches_agree {w : Watcher} (hw : w.cluster = some cl) (h : w.Idle)
    (hagree : Agrees c c' loc) {ops : List Op} (hops : ∀ n, n ∈ announced ops ↔ Changed c c' n)
    (hdue : (run c' loc (w, cache.update cl (picture c loc)) ops).1.due = none) :
    (run c' loc (w, cache.update cl (picture c loc)) ops).2 = cache.update cl (picture c' loc) := by
  have hstart : Working c c' loc cl w (picture c loc) [] := by
    refine ⟨hw, fun _ => h.2, fun j hj => ?_, .inr fun k => .inr ⟨rfl, fun n hn => (nomatch hn)⟩⟩
    rw [h.2.2] at hj
    cases hj
  obtain ⟨w', jobs', hrun, hwork⟩ := @Working.run c c' loc cl cache w (picture c loc) [] ops hstart
    hagree fun n hn => (hops n).mp hn
  rw [hrun] at hdue ⊢
  rw [hwork.done hagree hdue fun n hn => (hops n).mpr hn]

end Runs

end Hop.Dns
