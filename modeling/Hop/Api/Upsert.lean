import Hop.Api.Node
import Hop.Lead.Priorities

/-!
# A job that is posted

`apply`, `admit` (`admitJob` here) and `upsert` of `api/src/leader.rs`, over the leader of
`api/src/cluster.rs`. A new job with a priority of its own is to stand at that place of the order. A
dispatch that succeeds is followed by `patch_job_priority`, which sees to it (`Moved`). One that
fails returns before that: the job is stored under the number it asked for, beside the job that
has it, and the names decide (`order_pending`).
-/

namespace Hop.Types

/-- The text of an error of the types. -/
def Error.text : Error → String
  | .tooLarge len max => s!"input of {len} bytes exceeds {max}"
  | .tooDeep offset max => s!"nesting deeper than {max} at byte {offset}"
  | .syntaxError offset expected => s!"invalid JSON at byte {offset}: expected {expected}"
  | .trailing offset => s!"more than one JSON document (second starts at byte {offset})"
  | .duplicateKey key => s!"duplicate key \"{key.text}\""
  | .wrongType field want => s!"{field.text}: expected {want}"
  | .unknownField field => s!"unknown field \"{field.text}\""
  | .outOfRange field => s!"{field.text}: number out of range"
  | .invalid field why => s!"{field.text}: {why}"
  | .tooMany field max => s!"{field.text}: more than {max} entries"
  | .fixedPortRolls job port number => s!"job {job.text}: a fixed port ({port.text} {number}) " ++
      "cannot roll; use update_policy recreate or a dynamic port"
  | .aborted => ""

end Hop.Types

namespace Hop.Lead

/-- The text of a refusal. -/
def Refusal.text : Refusal → String
  | .noAgents => "no agents available"
  | .full agents => s!"no capacity on all {agents} agent(s)"
  | .noneAccepted tried => s!"no agent accepted after trying {tried}"

/-- The text of an error of the leader. -/
def Error.text : Error → String
  | .json e => e.text
  | .nameRequired => "job name required"
  | .notFound job => s!"job {job.text} not found"
  | .dispatch job inst count why =>
    s!"{job.text}: failed to dispatch instance {inst}/{count}: {why.text}"
  | .daemonRejected job => s!"all agents rejected daemon job {job.text}"
  | .rolling job inst why => s!"{job.text}: rolling update failed at instance {inst}: {why.text}"
  | .blueGreen job inst count why =>
    s!"{job.text}: blue-green: failed to dispatch instance {inst}/{count}: {why.text}"
  | .tooMany what max => s!"more than {max} {what}"
  | .initJob index cause => s!"init job {index}: {cause.text}"

end Hop.Lead

namespace Hop.Api

open Hop.Types (Job)
open Hop.Types.Json (Value)
open Hop.Lead (Leader Transport Logged MemStore maxJobs)
open Hop.Lead.Leader

variable {N : Type} [Transport N]
variable {l' : Leader}
variable {job : Job} {l : Leader}

/-! ### Posting a job -/

/-- Read the job of a request and see whether it has anything to run. -/
def admitJob (body : Bytes) : Except Response Job :=
  match Job.fromJson body with
  | .error _ => .error (.error 400 "invalid json")
  | .ok job =>
    if job.name = "" then .error (.error 400 "name required")
    else
      let job := job.applyHopShorthand
      if job.command = "" ∧ job.image = "" ∧ ¬(job.driver = some .hop ∧ job.artifacts ≠ []) then
        .error (.error 400
          "command or image required (or driver \"hop\" with at least one artifact)")
      else .ok job

/-- Update a job that exists, or dispatch a new one. -/
def upsert (l : Leader) (net : N) (job : Job) : Response × Leader × N :=
  match l.store.get job.name with
  | some _ =>
    match l.updateJob net job with
    | (.ok (), l, net) =>
      (⟨200, .fields [("name", .string job.name), ("status", .string "updated"),
        ("policy", .string job.policy.asStr)]⟩, l, net)
    | (.error why, l, net) => (.error 500 why.text, l, net)
  | none =>
    match l.dispatchJob net { job with priority := some (job.priority.getD l.nextPriority) } with
    | (.error why, l, net) =>
      (⟨201, .fields [("name", .string job.name), ("status", .string "pending"),
        ("error", .string why.text)]⟩, l, net)
    | (.ok (), l, net) =>
      let reply : Response :=
        ⟨201, .fields [("name", .string job.name), ("status", .string "dispatched")]⟩
      match job.priority with
      | none => (reply, l, net)
      | some p => (reply, (l.patchJobPriority net job.name p).2)

/-- `POST /v1/jobs`. -/
def apply (l : Leader) (net : N) (body : Bytes) : Response × Leader × N :=
  match admitJob body with
  | .error r => (r, l, net)
  | .ok job =>
    match job.checkRollable with
    | .error e => (.error 400 e.text, l, net)
    | .ok () => upsert l net job

/-! ### Where the job stands -/

/-- **The job stands where it asked to**: at the place `p` of the order of the jobs that are stored
now, or at the nearest one there is, and the others are in their old order. -/
def Honoured (l l' : Leader) (name : String) (p : ℤ) : Prop :=
  name ∈ l'.priorityOrder ∧
    (l'.priorityOrder.idxOf name : ℤ) = min (max p 0) (l'.store.jobs.length - 1) ∧
    l'.priorityOrder.filter (fun n => n ≠ name) = l.priorityOrder

/-- No stored job that comes first by name has the number already. -/
def Untied (l : Leader) (name : String) (p : ℤ) : Prop :=
  p < 0 ∨ l.store.jobs.length ≤ p ∨
    ∃ other, l.priorityOrder[p.toNat]? = some other ∧ name < other

/-- The keys of a leader with dense priorities, in order. -/
theorem sorted_keys (h : l.Dense) :
    (l.store.jobs.map keyOf).insertionSort KeyLe =
      l.priorityOrder.mapIdx fun i n => ((i : ℤ), n) := by
  refine List.ext_getElem ?_ fun i hi hi' => ?_
  · rw [List.length_mapIdx, l.priorityOrder_perm.length_eq, List.length_insertionSort,
      List.length_map, List.length_map]
  · rw [List.getElem_mapIdx]
    have hfst := congrArg (fun ps => ps[i]?) h.priorities
    have hlen : i < l.store.jobs.length := by
      rwa [List.length_insertionSort, List.length_map] at hi
    refine Prod.ext ?_ ?_
    · simpa [hi, hlen] using hfst
    · simp only [priorityOrder, List.getElem_map]
      rfl

/-- One job more, under a key that comes after the first `t` names and before the others. -/
theorem order_append {t : ℕ} (h : l.Dense) (hjobs : l'.store.jobs = l.store.jobs ++ [job])
    (hbefore : ∀ i n, l.priorityOrder[i]? = some n → i < t → KeyLe ((i : ℤ), n) (keyOf job))
    (hafter : ∀ i n, l.priorityOrder[i]? = some n → t ≤ i → KeyLe (keyOf job) ((i : ℤ), n)) :
    l'.priorityOrder = l.priorityOrder.take t ++ job.name :: l.priorityOrder.drop t := by
  let keys := l.priorityOrder.mapIdx fun i n => ((i : ℤ), n)
  have hkeys : (l.store.jobs.map keyOf).insertionSort KeyLe = keys := sorted_keys h
  have hsorted : keys.Pairwise KeyLe := by
    rw [← hkeys]
    exact List.pairwise_insertionSort KeyLe _
  have hget : ∀ (i : ℕ) key, keys[i]? = some key →
      l.priorityOrder[i]? = some key.2 ∧ key = ((i : ℤ), key.2) := by
    intro i key hkey
    rw [List.getElem?_mapIdx] at hkey
    obtain ⟨n, hn, rfl⟩ := Option.map_eq_some_iff.mp hkey
    exact ⟨hn, rfl⟩
  have htake : ∀ key ∈ keys.take t, KeyLe key (keyOf job) := by
    intro key hkey
    obtain ⟨i, hi⟩ := List.mem_iff_getElem?.mp hkey
    have hit : i < t := by
      have hlt := (List.getElem?_eq_some_iff.mp hi).1
      rw [List.length_take] at hlt
      omega
    rw [List.getElem?_take_of_lt hit] at hi
    obtain ⟨hn, hkey⟩ := hget i key hi
    rw [hkey]
    exact hbefore i _ hn hit
  have hdrop : ∀ key ∈ keys.drop t, KeyLe (keyOf job) key := by
    intro key hkey
    obtain ⟨i, hi⟩ := List.mem_iff_getElem?.mp hkey
    rw [List.getElem?_drop] at hi
    obtain ⟨hn, hkey⟩ := hget _ key hi
    rw [hkey]
    exact hafter _ _ hn (Nat.le_add_right t i)
  -- the sorted list of the new keys is the old one with the new key put in
  have hinsert : (l'.store.jobs.map keyOf).insertionSort KeyLe =
      keys.take t ++ keyOf job :: keys.drop t := by
    have hsplit : (keys.take t ++ keys.drop t).Pairwise KeyLe := by rwa [List.take_append_drop]
    obtain ⟨hleft, hright, hcross⟩ := List.pairwise_append.mp hsplit
    refine List.Perm.eq_of_pairwise' (List.pairwise_insertionSort KeyLe _) ?_ ?_
    · refine List.pairwise_append.mpr ⟨hleft, List.pairwise_cons.mpr ⟨hdrop, hright⟩, ?_⟩
      intro a ha b hb
      rcases List.mem_cons.mp hb with rfl | hb
      · exact htake a ha
      · exact hcross a ha b hb
    · have hold : keys.Perm (l.store.jobs.map keyOf) := by
        rw [← hkeys]
        exact List.perm_insertionSort KeyLe _
      refine (List.perm_insertionSort KeyLe _).trans ?_
      rw [hjobs, List.map_append]
      refine (List.perm_append_comm.trans (hold.symm.cons _)).trans ?_
      have hmiddle := (@List.perm_middle _ (keyOf job) (keys.take t) (keys.drop t)).symm
      rwa [List.take_append_drop] at hmiddle
  have hnames : keys.map Prod.snd = l.priorityOrder := by
    refine List.ext_getElem? fun i => ?_
    rw [List.getElem?_map, List.getElem?_mapIdx, Option.map_map]
    exact Option.map_id'
  have horder : l'.priorityOrder = ((l'.store.jobs.map keyOf).insertionSort KeyLe).map Prod.snd := rfl
  rw [horder, hinsert, List.map_append, List.map_cons, List.map_take, List.map_drop, hnames]
  rfl

theorem filter_inserted {order order' : List String} {name : String} {t : ℕ} (hnew : name ∉ order)
    (h : order' = order.take t ++ name :: order.drop t) :
    order'.filter (fun n => n ≠ name) = order := by
  rw [h, List.filter_append, List.filter_cons_of_neg (by simp), ← List.filter_append,
    List.take_append_drop]
  exact List.filter_eq_self.mpr fun n hn => decide_eq_true fun h => hnew (h ▸ hn)

/-- The job is the one at the place `t`. -/
theorem honoured_iff {p : ℤ} {t : ℕ} (hjobs : l'.store.jobs = l.store.jobs ++ [job])
    (hnew : job.name ∉ l.priorityOrder) (ht : t ≤ l.store.jobs.length)
    (horder : l'.priorityOrder = l.priorityOrder.take t ++ job.name :: l.priorityOrder.drop t) :
    Honoured l l' job.name p ↔ (t : ℤ) = min (max p 0) l.store.jobs.length := by
  have hlen : l.priorityOrder.length = l.store.jobs.length := by
    rw [l.priorityOrder_perm.length_eq, List.length_map]
  have hindex : l'.priorityOrder.idxOf job.name = t := by
    rw [horder, List.idxOf_append_of_notMem fun h => hnew (List.mem_of_mem_take h),
      List.idxOf_cons_self, List.length_take, Nat.add_zero, hlen]
    exact min_eq_left ht
  have hmem : job.name ∈ l'.priorityOrder := by
    rw [horder]
    exact List.mem_append_right _ List.mem_cons_self
  have hcount : (l'.store.jobs.length : ℤ) - 1 = l.store.jobs.length := by
    rw [hjobs, List.length_append, List.length_singleton]
    omega
  rw [Honoured, hindex, hcount]
  exact ⟨fun h => h.2.1, fun h => ⟨hmem, h, filter_inserted hnew horder⟩⟩

/-- A job that is stored under the number it asked for is put into the order at that place, unless
another one has the number and comes first by name. -/
theorem order_pending {p : ℤ} (h : l.Dense) (hjobs : l'.store.jobs = l.store.jobs ++ [job])
    (hnew : job.name ∉ l.priorityOrder) (hp : job.priority = some p) :
    ∃ t ≤ l.store.jobs.length,
      l'.priorityOrder = l.priorityOrder.take t ++ job.name :: l.priorityOrder.drop t ∧
      ((t : ℤ) = min (max p 0) l.store.jobs.length ↔ Untied l job.name p) := by
  have hlen : l.priorityOrder.length = l.store.jobs.length := by
    rw [l.priorityOrder_perm.length_eq, List.length_map]
  have hkey : keyOf job = (p, job.name) := by
    rw [keyOf, hp]
    rfl
  have hbound : ∀ (i : ℕ) n, l.priorityOrder[i]? = some n → i < l.store.jobs.length := by
    intro i n hn
    rw [← hlen]
    exact (List.getElem?_eq_some_iff.mp hn).1
  by_cases hneg : p < 0
  · -- in front of all
    have horder := order_append (t := 0) h hjobs (fun i n _ hlt => absurd hlt (Nat.not_lt_zero i))
      fun i n _ _ => by rw [hkey]; exact .inl (by dsimp only; omega)
    refine ⟨0, Nat.zero_le _, horder, iff_of_true ?_ (.inl hneg)⟩
    omega
  by_cases hlarge : l.store.jobs.length ≤ p
  · -- behind all
    have horder := order_append (t := l.store.jobs.length) h hjobs
      (fun i n _ hlt => by rw [hkey]; exact .inl (by dsimp only; omega))
      fun i n hn hle => absurd (hbound i n hn) hle.not_gt
    refine ⟨l.store.jobs.length, le_rfl, horder, iff_of_true ?_ (.inr (.inl hlarge))⟩
    omega
  have hq : p.toNat < l.priorityOrder.length := by omega
  have hother : l.priorityOrder[p.toNat]? = some l.priorityOrder[p.toNat] :=
    List.getElem?_eq_getElem hq
  have hne : job.name ≠ l.priorityOrder[p.toNat] := fun heq => hnew (heq ▸ List.getElem_mem hq)
  by_cases hlt : job.name < l.priorityOrder[p.toNat]
  · -- before the job with the same number
    have horder := order_append (t := p.toNat) h hjobs
      (fun i n _ hlt => by rw [hkey]; exact .inl (by dsimp only; omega))
      fun i n hn hle => by
        rw [hkey]
        rcases Nat.eq_or_lt_of_le hle with rfl | hlt'
        · obtain rfl : l.priorityOrder[p.toNat] = n := Option.some.inj (hother.symm.trans hn)
          exact .inr ⟨by dsimp only; omega, hlt.le⟩
        · exact .inl (by dsimp only; omega)
    refine ⟨p.toNat, by omega, horder, iff_of_true ?_ (.inr (.inr ⟨_, hother, hlt⟩))⟩
    omega
  · -- behind it, one place too far
    have horder := order_append (t := p.toNat + 1) h hjobs
      (fun i n hn hlt' => by
        rw [hkey]
        rcases Nat.eq_or_lt_of_le (Nat.le_of_lt_succ hlt') with rfl | hlt''
        · obtain rfl : l.priorityOrder[p.toNat] = n := Option.some.inj (hother.symm.trans hn)
          exact .inr ⟨by dsimp only; omega, not_lt.mp hlt⟩
        · exact .inl (by dsimp only; omega))
      fun i n _ hle => by rw [hkey]; exact .inl (by dsimp only; omega)
    refine ⟨p.toNat + 1, by omega, horder, iff_of_false (by omega) ?_⟩
    rintro (hneg' | hlarge' | ⟨other, hother', hlt'⟩)
    · exact hneg hneg'
    · exact hlarge hlarge'
    · obtain rfl : l.priorityOrder[p.toNat] = other := Option.some.inj (hother.symm.trans hother')
      exact hlt hlt'

/-! ### Posting a new job -/

/-- A job that is put away and not placed yet. -/
theorem storePut_new (hnew : l.store.get job.name = none) (hroom : l.store.jobs.length < maxJobs) :
    ∃ l', l.storePut job = .ok l' ∧ l'.store.jobs = l.store.jobs ++ [job] := by
  have hnot := MemStore.get_eq_none_iff.mp hnew
  rw [storePut, MemStore.put, dif_neg hnot, dif_pos hroom]
  exact ⟨_, rfl, rfl⟩

theorem storePut_full (hnew : l.store.get job.name = none) (hfull : ¬l.store.jobs.length < maxJobs)
    : ∃ e, l.storePut job = .error e := by
  have hnot := MemStore.get_eq_none_iff.mp hnew
  rw [storePut, MemStore.put, dif_neg hnot, dif_neg hfull]
  exact ⟨_, rfl⟩

/-- A dispatch of a new job adds it to the store, placed or not. -/
theorem jobs_dispatchJob (net : Logged N) (hname : job.name ≠ "")
    (hnew : l.store.get job.name = none) (hroom : l.store.jobs.length < maxJobs) :
    (l.dispatchJob net job).2.1.store.jobs = l.store.jobs ++ [job] := by
  obtain ⟨l₁, hput, hjobs⟩ := storePut_new hnew hroom
  rw [dispatchJob, if_neg hname, hput]
  dsimp only
  split_ifs
  · exact hjobs
  · have hmoves := moves_reconcileJob l₁ net job
    rcases h : l₁.reconcileJob net job with ⟨e | _, l₂, net₂⟩
    · rw [h] at hmoves
      dsimp only at hmoves ⊢
      rw [hmoves.store, hjobs]
    · rw [h] at hmoves
      dsimp only at hmoves ⊢
      exact (congrArg MemStore.jobs hmoves.store).trans hjobs
  · have hmoves := moves_dispatchLoop job (max job.desired 1) (max job.desired 1) 0 l₁ net
    rw [dispatchCount]
    rcases h : dispatchLoop job (max job.desired 1) (max job.desired 1) 0 l₁ net with
      ⟨e | _, l₂, net₂⟩
    · rw [h] at hmoves
      dsimp only at hmoves ⊢
      rw [hmoves.store, hjobs]
    · rw [h] at hmoves
      dsimp only at hmoves ⊢
      exact (congrArg MemStore.jobs hmoves.store).trans hjobs

/-- Moving a job that was put away under any number. -/
theorem honoured_patched {p : ℤ} (h : l.Dense) (hjobs : l'.store.jobs = l.store.jobs ++ [job])
    (hnew : job.name ∉ l.priorityOrder) (hp : job.priority = some p) (net : Logged N) :
    Honoured l (l'.patchJobPriority net job.name p).2.1 job.name p := by
  have hget : l'.store.get job.name = some job := by
    refine MemStore.get_eq_some_iff.mpr ⟨?_, rfl⟩
    rw [hjobs]
    exact List.mem_append_right _ (List.mem_singleton_self job)
  have hmem := mem_priorityOrder hget
  have hmoved := moved_patched hmem p
  have hstore := store_patchJobPriority hget net p
  have horder : (l'.patchJobPriority net job.name p).2.1.priorityOrder =
      (l'.patched job.name p).priorityOrder := by rw [priorityOrder, hstore, ← priorityOrder]
  have hlen : (l'.patched job.name p).store.jobs.length = l'.store.jobs.length := by
    have hlength := congrArg List.length hmoved.fields
    rwa [List.length_map, List.length_map] at hlength
  obtain ⟨t, -, hinserted, -⟩ := order_pending h hjobs hnew hp
  rw [Honoured, horder, hstore, hlen]
  exact ⟨hmoved.perm.mem_iff.mpr hmem, hmoved.index,
    hmoved.others.trans (filter_inserted hnew hinserted)⟩

/-- **An explicit priority is honoured** exactly when the job finds room in the store and, besides,
the first dispatch succeeds or no job that comes first by name has the number. -/
theorem upsert_honours {l : Leader} (h : l.Dense) (net : Logged N) {job : Job} {p : ℤ}
    (hname : job.name ≠ "") (hnew : l.store.get job.name = none) (hp : job.priority = some p) :
    Honoured l (upsert l net job).2.1 job.name p ↔
      l.store.jobs.length < maxJobs ∧
        ((l.dispatchJob net job).1 = .ok () ∨ Untied l job.name p) := by
  have hnot : job.name ∉ l.priorityOrder := fun hmem =>
    MemStore.get_eq_none_iff.mp hnew (l.priorityOrder_perm.mem_iff.mp hmem)
  have hexplicit : { job with priority := some (job.priority.getD l.nextPriority) } = job := by
    rw [hp, Option.getD_some, ← hp]
  rw [upsert, hnew]
  dsimp only
  rw [hexplicit]
  by_cases hroom : l.store.jobs.length < maxJobs
  · have hjobs := jobs_dispatchJob net hname hnew hroom
    rcases hd : l.dispatchJob net job with ⟨e | _, l', net'⟩
    · -- the number it asked for is all it got
      rw [hd] at hjobs
      dsimp only at hjobs ⊢
      obtain ⟨t, ht, horder, hiff⟩ := order_pending h hjobs hnot hp
      rw [honoured_iff hjobs hnot ht horder, hiff]
      exact ⟨fun huntied => ⟨hroom, .inr huntied⟩, fun hcond => hcond.2.resolve_left (nomatch ·)⟩
    · rw [hd] at hjobs
      dsimp only at hjobs ⊢
      rw [hp]
      exact iff_of_true (honoured_patched h hjobs hnot hp net') ⟨hroom, .inl rfl⟩
  · -- there is no room, so it is not there at all
    obtain ⟨e, hput⟩ := storePut_full hnew hroom
    have hd : l.dispatchJob net job = (.error e, l, net) := by rw [dispatchJob, if_neg hname, hput]
    rw [hd]
    exact iff_of_false (fun hon => hnot hon.1) fun hcond => hroom hcond.1

/-- One job, and no agent to place anything on. -/
def lonely : Leader := Leader.new "n" ⟨[{ name := "a", priority := some 0 }], 0, by decide, by decide⟩

theorem dense_lonely : lonely.Dense := by
  rw [Leader.Dense]
  decide

/-- `B` comes before `a` by name, so the first place is its own without a dispatch. -/
theorem upsert_honours_lonely :
    Honoured lonely (upsert lonely fullNet { name := "B", command := "run", priority := some 0 }).2.1
      "B" 0 :=
  (@upsert_honours _ _ _ dense_lonely fullNet { name := "B", command := "run", priority := some 0 } 0
    (by decide) (by decide) rfl).mpr
    ⟨by decide, .inr (.inr (.inr ⟨"a", by decide, by decide⟩))⟩

/-- `b` asks for the first place, and nothing runs it: it is stored behind `a`. -/
theorem not_upsert_honours : lonely.Dense ∧ lonely.store.get "b" = none ∧
    ¬Honoured lonely
      (upsert lonely fullNet { name := "b", command := "run", priority := some 0 }).2.1 "b" 0 := by
  refine ⟨dense_lonely, by decide, ?_⟩
  rw [Honoured]
  decide

end Hop.Api
