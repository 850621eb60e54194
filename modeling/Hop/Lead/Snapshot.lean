import Hop.Lead.Steps
import Hop.Types.Instant

/-!
# A successor loads what the leader committed

The writer of the snapshot has no bound and the reader has one: a document of more than 1 MiB is
refused. `stateSize` is the number of bytes that the jobs take, and `restores_iff_stateSize` says
that a fresh leader restores a snapshot exactly if that number is within the bound. All other
bounds of the reader (the number of jobs, the entries of a map, the ranges of the numbers, the
depth) are kept by every job that was ever read, by every renumbering and by every rollout.
-/

namespace Hop.Types.Job

/-! ### What the reader accepted stays writable -/

theorem Writable.applyHopShorthand {j : Job} (h : j.Writable) : j.applyHopShorthand.Writable := by
  unfold Job.applyHopShorthand
  split_ifs
  · exact { h with }
  · exact h

theorem Writable.ranked {j : Job} (h : j.Writable) {p : ℤ} (hp : InI64 p) :
    Writable { j with priority := some p } :=
  { h with priority := fun _ heq => Option.some.inj heq ▸ hp }

end Hop.Types.Job

namespace Hop.Lead

open Hop.Types (Job InI64)
open Hop.Types.Json (Value Fits maxInput)

theorem inI64_of_le {i : ℕ} (h : i ≤ maxJobs) : InI64 i := by
  have hmax : ((maxJobs : ℕ) : ℤ) ≤ i64Max := by decide
  have hmin : i64Min ≤ 0 := by decide
  exact ⟨hmin.trans (Int.natCast_nonneg i), (Int.ofNat_le.mpr h).trans hmax⟩

theorem steady_writable : Steady Job.Writable where
  rank _ _ hi h := h.ranked (inI64_of_le hi.le)
  deploy _ _ h := { h with }

/-- A job as the interface submits it: read from JSON, by the rules of the command line or the
configuration, with the driver that one artifact stands for and with the next free priority. -/
inductive Submitted : Job → Prop
  | fromJson {input : Bytes} {job : Job} (h : Job.fromJson input = .ok job) : Submitted job
  | fromValue {v : Value} {strict : Bool} {job : Job} (h : Job.fromValue v strict = .ok job) :
      Submitted job
  | shorthand {job : Job} (h : Submitted job) : Submitted job.applyHopShorthand
  | ranked {job : Job} (h : Submitted job) {i : ℕ} (hi : i ≤ maxJobs) :
      Submitted { job with priority := some (i : ℤ) }

theorem Submitted.writable {job : Job} (h : Submitted job) : job.Writable := by
  induction h with
  | fromJson h => exact Job.writable_of_fromJson h
  | fromValue h => exact Job.writable_of_fromValue h
  | shorthand _ ih => exact ih.applyHopShorthand
  | ranked _ hi ih => exact ih.ranked (inI64_of_le hi)

/-- Every job of the request was submitted. -/
def Request.Submits : Request → Prop
  | .op (.dispatchJob job) => Submitted job
  | .op (.updateJob job) => Submitted job
  | .op (.seedInitJobs jobs) => ∀ job ∈ jobs, Submitted job
  | _ => True

namespace Leader

/-! ### Reading a snapshot -/

/-- What is read from a snapshot is writable. -/
theorem writable_of_readState {data : Bytes} {updated : Nanos} {jobs : List Job}
    (h : readState data = .ok (updated, jobs)) : ∀ j ∈ jobs, j.Writable := by
  unfold readState at h
  obtain ⟨v, -, h⟩ := bind_eq_ok h
  obtain ⟨obj, -, h⟩ := bind_eq_ok h
  refine foldlM_invariant (P := fun st : Nanos × List Job => ∀ j ∈ st.2, j.Writable)
    (fun st kv st' hst hread => ?_) h (fun _ hj => absurd hj List.not_mem_nil)
  unfold readField at hread
  dsimp only at hread
  split_ifs at hread
  · obtain ⟨s, -, hread⟩ := bind_eq_ok hread
    obtain ⟨t, -, hread⟩ := bind_eq_ok hread
    cases hread
    exact hst
  · obtain ⟨js, hjs, hread⟩ := bind_eq_ok hread
    cases hread
    exact (Types.De.list_invariant (fun _ _ => Job.writable_of_fromValue) hjs).2
  · cases hread
    exact hst

/-- How many bytes a snapshot of these jobs takes. -/
def stateSize (jobs : List Job) (now : Nanos) : ℕ :=
  20 + Types.Json.stringSize (Types.Time.writeRfc3339 now) +
    if jobs = [] then 2 else (jobs.map fun j => Types.Json.size j.toValue + 1).sum + 1

theorem itemsSize_map (jobs : List Job) :
    Types.Json.itemsSize (jobs.map Job.toValue) =
      (jobs.map fun j => Types.Json.size j.toValue + 1).sum := by
  induction jobs with
  | nil => rfl
  | cons j jobs ih => rw [List.map_cons, Types.Json.itemsSize, ih, List.map_cons, List.sum_cons]

theorem size_snapshotValue (l : Leader) (now : Nanos) :
    Types.Json.size (l.snapshotValue now) = stateSize l.store.jobs now := by
  have hupdated : Types.Json.stringSize "updated" = 9 := by decide
  have hjobs : Types.Json.stringSize "jobs" = 6 := by decide
  unfold snapshotValue stateSize
  rw [Types.Json.size, Types.Json.pairsSize, Types.Json.pairsSize, Types.Json.size, hupdated, hjobs]
  cases l.store.jobs with
  | nil =>
    rw [List.map_nil, Types.Json.size, if_pos rfl]
    omega
  | cons j jobs =>
    rw [List.map_cons, Types.Json.size, if_neg (List.cons_ne_nil _ _), itemsSize_map, List.map_cons,
      List.sum_cons]
    omega

theorem fits_snapshotValue {l : Leader} (h : l.StoreAll Job.Writable) (now : Nanos) :
    Fits Types.Json.maxDepth (l.snapshotValue now) := by
  refine ⟨(by decide : ["updated", "jobs"].Nodup), fun kv hkv => ?_⟩
  rcases List.mem_cons.mp hkv with rfl | hkv
  · trivial
  · rw [List.mem_singleton.mp hkv]
    intro v hv
    obtain ⟨j, hj, rfl⟩ := List.mem_map.mp hv
    exact Job.fits_toValue (h j hj) 25

/-- A snapshot within the bound is read back. -/
theorem readState_snapshot {l : Leader} (h : l.StoreAll Job.Writable) {now : Nanos}
    (hnow : now ≤ u64Max) (hsize : stateSize l.store.jobs now ≤ maxInput) :
    readState (l.snapshot now) = .ok (now, l.store.jobs) := by
  have hparse : Types.Json.parse (l.snapshot now) = .ok (l.snapshotValue now) :=
    Types.Json.parse_write (fits_snapshotValue h now) (by rwa [size_snapshotValue])
  have hobject : Types.De.object (l.snapshotValue now) "state" =
      .ok [("updated", .string (Types.Time.writeRfc3339 now)),
        ("jobs", .array (l.store.jobs.map Job.toValue))] := rfl
  have hupdated : readField (0, []) ("updated", .string (Types.Time.writeRfc3339 now)) =
      .ok (now, []) := by
    have htime := Types.Time.parseRfc3339_writeRfc3339 hnow
    unfold readField
    dsimp only
    rw [if_pos rfl]
    simp only [Types.De.string, Value.asStr, Types.De.want, bind, Except.bind, htime]
  have hjobs : readField (now, []) ("jobs", .array (l.store.jobs.map Job.toValue)) =
      .ok (now, l.store.jobs) := by
    have hlist : Types.De.list (.array (l.store.jobs.map Job.toValue)) "jobs" maxJobs
        (fun v => Job.fromValue v false) = .ok l.store.jobs := by
      refine Types.De.list_array l.store.bounded ?_ "jobs"
      exact fun j hj => Job.fromValue_toValue (h j hj) false
    unfold readField
    dsimp only
    rw [if_neg (by decide), if_pos ⟨rfl, rfl⟩, hlist]
    rfl
  have hfold : [("updated", Value.string (Types.Time.writeRfc3339 now)),
      ("jobs", .array (l.store.jobs.map Job.toValue))].foldlM readField (0, []) =
      .ok (now, l.store.jobs) := by
    rw [List.foldlM_cons, hupdated]
    change List.foldlM readField (now, []) _ = _
    rw [List.foldlM_cons, hjobs]
    rfl
  unfold readState
  rw [hparse]
  simp only [bind, Except.bind]
  rw [hobject]
  exact hfold

/-- Jobs with new names are appended one after the other. -/
theorem putLoaded_new (jobs : List Job) {l : Leader}
    (hnodup : ((l.store.jobs ++ jobs).map Job.name).Nodup)
    (hlen : (l.store.jobs ++ jobs).length ≤ maxJobs) :
    ∃ store, putLoaded jobs l = (.ok (), { l with store := store }) ∧
      store.jobs = l.store.jobs ++ jobs := by
  induction jobs generalizing l with
  | nil => exact ⟨l.store, rfl, (List.append_nil _).symm⟩
  | cons job rest ih =>
    have hnew : job.name ∉ l.store.jobs.map Job.name := by
      intro hmem
      rw [List.map_append, List.map_cons] at hnodup
      exact (List.nodup_append.mp hnodup).2.2 _ hmem _ List.mem_cons_self rfl
    have hroom : l.store.jobs.length < maxJobs := by
      rw [List.length_append, List.length_cons] at hlen
      omega
    obtain ⟨store, hput, hjobs⟩ : ∃ store, l.store.put job = .ok store ∧
        store.jobs = l.store.jobs ++ [job] := by
      unfold MemStore.put
      rw [dif_neg hnew, dif_pos hroom]
      exact ⟨_, rfl, rfl⟩
    have hsame : store.jobs ++ rest = l.store.jobs ++ job :: rest := by
      rw [hjobs, List.append_assoc, List.singleton_append]
    obtain ⟨store', hrest, hjobs'⟩ := ih (l := { l with store := store })
      (by rw [hsame]; exact hnodup) (by rw [hsame]; exact hlen)
    refine ⟨store', ?_, hjobs'.trans hsame⟩
    unfold putLoaded
    rw [hput]
    exact hrest

/-- A fresh leader restores the snapshot: the load succeeds, the jobs are the same field by field
and in the same order, and the time is the one of the snapshot. -/
def Restores (l : Leader) (id : String) (now : Nanos) : Prop :=
  ∃ l', (Leader.new id .new).loadCommittedState (some (l.snapshot now)) = (.ok true, l') ∧
    l'.store.jobs = l.store.jobs ∧ l'.store.stateTime = now

/-- A snapshot beyond the bound is refused, and nothing is loaded. -/
theorem loadCommittedState_tooLarge {l : Leader} {now : Nanos}
    (hsize : maxInput < stateSize l.store.jobs now) (l₀ : Leader) :
    l₀.loadCommittedState (some (l.snapshot now)) =
      (.error (.json (.tooLarge (stateSize l.store.jobs now) maxInput)), l₀) := by
  have hparse : Types.Json.parse (l.snapshot now) =
      .error (.tooLarge (stateSize l.store.jobs now) maxInput) := by
    rw [← size_snapshotValue] at hsize ⊢
    exact Types.Json.parse_write_tooLarge hsize
  have hread : readState (l.snapshot now) =
      .error (.tooLarge (stateSize l.store.jobs now) maxInput) := by
    unfold readState
    rw [hparse]
    rfl
  unfold loadCommittedState
  dsimp only
  rw [hread]

/-- The jobs are restored exactly if they fit. -/
theorem restores_iff_of_writable {l : Leader} (h : l.StoreAll Job.Writable) (id : String)
    {now : Nanos} (hnow : now ≤ u64Max) :
    l.Restores id now ↔ stateSize l.store.jobs now ≤ maxInput := by
  constructor
  · rintro ⟨l', hload, -⟩
    by_contra hsize
    rw [loadCommittedState_tooLarge (Nat.not_le.mp hsize)] at hload
    cases hload
  · intro hsize
    obtain ⟨store, hput, hjobs⟩ := putLoaded_new l.store.jobs (l := Leader.new id .new)
      l.store.nodup l.store.bounded
    refine ⟨{ Leader.new id .new with store := store.setStateTime now }, ?_, hjobs, rfl⟩
    unfold loadCommittedState
    dsimp only
    rw [readState_snapshot h hnow hsize]
    dsimp only
    have hput' : putLoaded l.store.jobs (((Leader.new id .new).stale l.store.jobs).foldl
        (fun l name => (l.storeRemove name).2) (Leader.new id .new)) = _ := hput
    rw [hput']

end Leader

open Leader

/-! ### Runs -/

variable {N : Type} [Transport N]

/-- Every stored job of a leader that serves submitted jobs is writable. -/
theorem writable_of_run {s₀ s : Sys N} {rs : List Request} (hinit : requests.Init s₀)
    (hrs : ∀ r ∈ rs, r.Submits) (hrun : requests.run s₀ rs = some s) :
    s.leader.StoreAll Job.Writable := by
  obtain ⟨id, hl, -⟩ := hinit
  have h₀ : s₀.leader.StoreAll Job.Writable := by
    rw [hl]
    exact fun _ hj => absurd hj List.not_mem_nil
  clear hl
  induction rs generalizing s₀ with
  | nil =>
    cases hrun
    exact h₀
  | cons r rs ih =>
    refine ih (fun r' hr' => hrs r' (List.mem_cons_of_mem r hr')) hrun
      (storeAll_serve steady_writable ?_ h₀)
    have hr := hrs r List.mem_cons_self
    cases r with
    | op op =>
      cases op with
      | dispatchJob job => exact Submitted.writable hr
      | updateJob job =>
        intro old hold
        have hjob : job.Writable := Submitted.writable hr
        have hwold := h₀ old (MemStore.get_eq_some_iff.mp hold).1
        refine { hjob with priority := fun p hp => ?_ }
        unfold updated at hp
        cases hpri : job.priority with
        | none =>
          rw [hpri] at hp
          exact hwold.priority p hp
        | some q =>
          rw [hpri] at hp
          exact hjob.priority p (hpri ▸ hp)
      | seedInitJobs jobs =>
        intro job hjob i hi
        have hw : job.Writable := (hr job hjob).writable
        cases hpri : job.priority with
        | none => exact hw.ranked (inI64_of_le hi)
        | some q => exact hw.ranked (hw.priority q hpri)
      | _ => trivial
    | loadCommittedState snapshot => exact fun _ _ _ _ hread => writable_of_readState hread
    | _ => trivial

/-- **A successor restores what was committed exactly if it fits**: in every state that a leader
reaches with submitted jobs, the snapshot of any moment is restored by a fresh leader if and only
if its jobs take no more than the bound of the JSON reader. -/
theorem restores_iff_stateSize {s₀ s : Sys N} {rs : List Request} (hinit : requests.Init s₀)
    (hrs : ∀ r ∈ rs, r.Submits) (hrun : requests.run s₀ rs = some s) (id : String) {now : Nanos}
    (hnow : now ≤ u64Max) :
    s.leader.Restores id now ↔ stateSize s.leader.store.jobs now ≤ maxInput :=
  restores_iff_of_writable (writable_of_run hinit hrs hrun) id hnow

/-- A job that runs one command. -/
def commandJob (name command : String) : Job := { name := name, command := command }

theorem writable_commandJob (name command : String) : (commandJob name command).Writable :=
  { Job.writable_default with }

/-- A leader with one small job is restored. -/
theorem restores_one_job :
    ((emptyLeader.serve (.op (.dispatchJob (commandJob "web" "./web")))).leader).Restores "b" 1000 := by
  have hrun : requests.run emptyLeader [.op (.dispatchJob (commandJob "web" "./web"))] =
      some (emptyLeader.serve (.op (.dispatchJob (commandJob "web" "./web")))) := rfl
  refine (restores_iff_stateSize ⟨"a", rfl, rfl⟩ (fun r hr => ?_) hrun "b" (by decide)).mpr ?_
  · rw [List.mem_singleton.mp hr]
    exact .fromValue (Job.fromValue_toValue (writable_commandJob _ _) false)
  · decide

/-! ### Two jobs that do not fit together -/

/-- A command of `n` letters. -/
def longCommand (n : ℕ) : String := String.ofList (List.replicate n 'a')

theorem stringSize_longCommand (n : ℕ) : Types.Json.stringSize (longCommand n) = n + 2 := by
  have hsize : Types.Json.charSize 'a' = 1 := by decide
  unfold Types.Json.stringSize longCommand
  rw [String.toList_ofList, List.map_replicate, hsize, List.sum_replicate_nat, mul_one]

theorem longCommand_ne_empty {n : ℕ} (h : 0 < n) : longCommand n ≠ "" := by
  intro heq
  have hsize := stringSize_longCommand n
  rw [heq] at hsize
  have hempty : Types.Json.stringSize "" = 2 := by decide
  omega

theorem size_commandJob (name : String) {command : String} (h : command ≠ "") :
    Types.Json.size (commandJob name command).toValue =
      Types.Json.stringSize name + Types.Json.stringSize command + 20 := by
  have hfields : (commandJob name command).fields =
      [("name", .string name), ("command", .string command)] := by
    have hopt : Types.De.strOpt "command" command = [("command", .string command)] := if_neg h
    have hrest : (commandJob name command).fields =
        Types.De.str "name" name ++ [] ++ [] ++ [] ++ [] ++ [] ++ Types.De.strOpt "command" command ++
          [] ++ [] ++ [] ++ [] ++ [] ++ [] ++ [] ++ [] ++ [] ++ [] ++ [] ++ [] ++ [] := rfl
    rw [hrest, hopt]
    simp only [List.append_nil, Types.De.str, List.singleton_append]
  have hname : Types.Json.stringSize "name" = 6 := by decide
  have hcommand : Types.Json.stringSize "command" = 9 := by decide
  unfold Job.toValue
  rw [hfields, Types.Json.size, Types.Json.size, Types.Json.pairsSize, Types.Json.pairsSize,
    Types.Json.size, hname, hcommand]
  omega

/-- A leader without agents keeps the two jobs. -/
theorem run_two_jobs (command : String) :
    ∃ s, requests.run emptyLeader [.op (.dispatchJob (commandJob "x" command)),
        .op (.dispatchJob (commandJob "y" command))] = some s ∧
      s.leader.store.jobs = [commandJob "x" command, commandJob "y" command] := ⟨_, rfl, rfl⟩

/-- Two jobs of 600 000 letters are each accepted, and together they take more than the reader of
the snapshot allows: the successor refuses to load them. -/
theorem snapshot_two_large_jobs :
    Job.fromJson (commandJob "x" (longCommand 600000)).toJson =
        .ok (commandJob "x" (longCommand 600000)) ∧
      Job.fromJson (commandJob "y" (longCommand 600000)).toJson =
        .ok (commandJob "y" (longCommand 600000)) ∧
      ∃ s, requests.run emptyLeader [.op (.dispatchJob (commandJob "x" (longCommand 600000))),
          .op (.dispatchJob (commandJob "y" (longCommand 600000)))] = some s ∧
        ((Leader.new "b" .new).loadCommittedState (some (s.leader.snapshot 0))).1 ≠ .ok true ∧
        ¬ s.leader.Restores "b" 0 := by
  have hne : longCommand 600000 ≠ "" := longCommand_ne_empty (by decide)
  have hlong := stringSize_longCommand 600000
  have hx : Types.Json.stringSize "x" = 3 := by decide
  have hy : Types.Json.stringSize "y" = 3 := by decide
  have hmax : maxInput = 1048576 := by decide
  have hsize : ∀ name, Types.Json.stringSize name = 3 →
      Types.Json.size (commandJob name (longCommand 600000)).toValue = 600025 := by
    intro name hname
    rw [size_commandJob name hne, hname, hlong]
  have haccept : ∀ name, Types.Json.stringSize name = 3 →
      Job.fromJson (commandJob name (longCommand 600000)).toJson =
        .ok (commandJob name (longCommand 600000)) := by
    intro name hname
    refine Job.fromJson_toJson (writable_commandJob _ _) ?_
    rw [hsize name hname, hmax]
    decide
  obtain ⟨s, hrun, hjobs⟩ := run_two_jobs (longCommand 600000)
  have hstate : maxInput < stateSize s.leader.store.jobs 0 := by
    rw [hjobs, stateSize, if_neg (List.cons_ne_nil _ _), List.map_cons, List.map_cons, List.map_nil,
      List.sum_cons, List.sum_cons, List.sum_nil, hsize "x" hx, hsize "y" hy, hmax]
    omega
  have hload := loadCommittedState_tooLarge hstate (Leader.new "b" .new)
  refine ⟨haccept "x" hx, haccept "y" hy, s, hrun, ?_, ?_⟩
  · rw [hload]
    exact fun h => by cases h
  · rintro ⟨l', hl', -⟩
    rw [hload] at hl'
    cases hl'

end Hop.Lead
