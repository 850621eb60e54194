import Hop.Types.JobJson

/-!
# A job is read back from its own text

`Job.Writable` is what the reader guarantees of a job: numbers in the range of their type and
collections within their bounds. Every job that is read is writable (`Job.writable_of_fromValue`);
a writable job is read back from its own value (`Job.fromValue_toValue`), and that value survives
the text (`Job.fits_toValue`).
-/

namespace Hop.Types

open Json (Value)

variable {strict : Bool} {v : Value} {field : String} {α : Type} {j : Job} {n : ℕ}
  {hc : HealthCheck}
variable {f : α → Value}

/-! ### Fields one after the other -/

/-- Reading these pairs turns `st` into `st'`. -/
def Sets {σ : Type} (step : σ → String × Value → Except Error σ) (pairs : List (String × Value))
    (st st' : σ) : Prop := pairs.foldlM step st = .ok st'

namespace Sets

variable {σ : Type} {step : σ → String × Value → Except Error σ} {st st' : σ} {key : String}

theorem nil : Sets step [] st st := rfl

theorem append {m : σ} {a b : List (String × Value)} (ha : Sets step a st m)
    (hb : Sets step b m st') : Sets step (a ++ b) st st' := by
  unfold Sets
  rw [List.foldlM_append, ha]
  exact hb

theorem one (h : step st (key, v) = .ok st') : Sets step [(key, v)] st st' := by
  unfold Sets
  rw [List.foldlM_cons, h]
  rfl

/-- A field that is left out if it has its default. -/
theorem ite {p : Prop} [Decidable p] (hskip : p → st' = st)
    (hset : ¬ p → step st (key, v) = .ok st') :
    Sets step (if p then [] else [(key, v)]) st st' := by
  by_cases hp : p
  · rw [if_pos hp, hskip hp]
    exact nil
  · rw [if_neg hp]
    exact one (hset hp)

/-- A field that is left out if there is none. -/
theorem elim {o : Option α} (hskip : o = none → st' = st)
    (hset : ∀ a, o = some a → step st (key, f a) = .ok st') :
    Sets step (o.elim [] fun a => [(key, f a)]) st st' := by
  cases o with
  | none =>
    rw [hskip rfl]
    exact nil
  | some a => exact one (hset a rfl)

end Sets

/-! ### Values of fields -/

/-- The range of `i64`. -/
def InI64 (n : ℤ) : Prop := i64Min ≤ n ∧ n ≤ i64Max

theorem De.uint_uint (h : n ≤ u64Max) (field : String) :
    De.uint (.uint n) field = .ok n := by
  have hn : (UInt64.ofNat n).toNat = n := UInt64.toNat_ofNat_of_lt' (Nat.lt_succ_of_le h)
  simp only [Value.uint, De.uint, Json.Number.asU64, De.inRange, hn]

theorem De.duration_uint (h : n ≤ u64Max) (field : String) :
    De.duration (.uint n) field = .ok n := De.uint_uint h field

theorem De.int_int {n : ℤ} (h : InI64 n) (field : String) : De.int (.int n) field = .ok n := by
  obtain ⟨hmin, hmax⟩ := h
  unfold Value.int
  by_cases hn : 0 ≤ n
  · have hto : (UInt64.ofNat n.toNat).toNat = n.toNat := by
      refine UInt64.toNat_ofNat_of_lt' ?_
      unfold i64Max at hmax
      have : n.toNat < 2 ^ 64 := by omega
      exact this
    have hle : ((UInt64.ofNat n.toNat).toNat : ℤ) ≤ i64Max := by
      rw [hto]
      omega
    rw [if_pos hn]
    simp only [Value.uint, De.int, Json.Number.asI64, hle, if_true, De.inRange]
    rw [hto, Int.toNat_of_nonneg hn]
  · have hto : (Int64.ofInt n).toInt = n := by
      refine Int64.toInt_ofInt_of_le hmin ?_
      unfold i64Max at hmax
      omega
    rw [if_neg hn]
    simp only [De.int, Json.Number.asI64, De.inRange, hto]

/-- A fold that inserts what it reads. -/
theorem foldlM_insert {ν : Type} {f : String × ν → Value} {r : Value → Except Error ν}
    (es : List (String × ν)) (h : ∀ e ∈ es, r (f e) = .ok e.2) (m : Map ν) :
    (es.map fun e => (e.1, f e)).foldlM (fun m kv => do
      let s ← r kv.2
      .ok (m.insert kv.1 s)) m = .ok (es.foldl (fun m e => m.insert e.1 e.2) m) := by
  induction es generalizing m with
  | nil => rfl
  | cons e es ih =>
    rw [List.map_cons, List.foldlM_cons, h e List.mem_cons_self]
    exact ih (fun d hd => h d (List.mem_cons_of_mem e hd)) _

theorem De.strMap_strMapValue {m : Map String} {max : ℕ} (h : m.size ≤ max) (field : String) :
    De.strMap (De.strMapValue m) field max = .ok m := by
  have hlen : ¬ max < (m.entries.map fun e => (e.1, Value.string e.2)).length := by
    rw [List.length_map]
    exact Nat.not_lt.mpr h
  have hfold := foldlM_insert (f := fun e => Value.string e.2)
    (r := fun v => De.string v field) m.entries (fun _ _ => rfl) .empty
  unfold De.strMap De.strMapValue
  simp only [De.object, Value.asObject, De.want, bind, Except.bind, hlen, if_false] at hfold ⊢
  rw [hfold]
  exact congrArg Except.ok m.ofList_entries

/-- Ports as they are read. -/
theorem foldlM_ports {m : Map ℕ} (hrange : ∀ e ∈ m.entries, e.2 ≤ u16Max) (field : String) :
    (m.entries.map fun e => (e.1, Value.uint e.2)).foldlM (fun (m : Map ℕ) kv => do
      let n ← De.uint kv.2 field
      if u16Max < n then .error (.outOfRange (.new field)) else .ok (m.insert kv.1 n)) .empty =
      .ok m := by
  have hread : ∀ e ∈ m.entries, (do
      let n ← De.uint (.uint e.2) field
      if u16Max < n then .error (.outOfRange (.new field)) else .ok n) = .ok e.2 := by
    intro e he
    have hle := hrange e he
    rw [De.uint_uint (hle.trans (by decide))]
    exact if_neg (Nat.not_lt.mpr hle)
  have hfold := foldlM_insert (f := fun e => Value.uint e.2) (r := fun v => do
    let n ← De.uint v field
    if u16Max < n then .error (.outOfRange (.new field)) else .ok n) m.entries hread .empty
  refine Eq.trans ?_ (hfold.trans (congrArg Except.ok m.ofList_entries))
  congr 1
  funext m kv
  rcases De.uint kv.2 field with e | n
  · rfl
  · simp only [bind, Except.bind]
    split_ifs
    · rfl
    · rfl

/-- The ports of a job as they are read. -/
theorem ports_portsValue {m : Map ℕ} (hsize : m.size ≤ maxPorts)
    (hrange : ∀ e ∈ m.entries, e.2 ≤ u16Max) (field : String) :
    ports (Job.portsValue m) field = .ok m := by
  have hlen : ¬ maxPorts < (m.entries.map fun e => (e.1, Value.uint e.2)).length := by
    rw [List.length_map]
    exact Nat.not_lt.mpr hsize
  have hfold := foldlM_ports hrange field
  simp only [ports, Job.portsValue, De.object, Value.asObject, De.want, bind, Except.bind, hlen,
    if_false] at hfold ⊢
  exact hfold

/-! ### Reading back -/

structure Artifact.Writable (a : Artifact) : Prop where
  matches' : a.matches'.size ≤ maxMapEntries
  headers : a.headers.size ≤ maxMapEntries
  auth : a.auth.size ≤ maxMapEntries

structure HealthCheck.Writable (hc : HealthCheck) : Prop where
  interval : hc.interval ≤ u64Max
  timeout : hc.timeout ≤ u64Max
  initialTimeout : hc.initialTimeout ≤ u64Max
  failureThreshold : InI64 hc.failureThreshold

/-- What the reader guarantees of a job. -/
structure Job.Writable (j : Job) : Prop where
  affinity : j.affinity.size ≤ maxMapEntries
  artifacts : j.artifacts.length ≤ maxArtifacts
  artifact : ∀ a ∈ j.artifacts, a.Writable
  count : InI64 j.count
  ports : j.ports.size ≤ maxPorts
  port : ∀ e ∈ j.ports.entries, e.2 ≤ u16Max
  cpuShares : InI64 j.cpuShares
  memoryLimit : j.memoryLimit ≤ u64Max
  env : j.env.size ≤ maxMapEntries
  tags : j.tags.size ≤ maxMapEntries
  volumes : j.volumes.size ≤ maxMapEntries
  healthCheck : ∀ hc ∈ j.healthCheck, hc.Writable
  maxRestarts : ∀ n ∈ j.maxRestarts, InI64 n
  restartWindow : j.restartWindow ≤ u64Max
  priority : ∀ p ∈ j.priority, InI64 p

/-- A map that is empty is the default. -/
theorem map_eq_empty {ν : Type} {m : Map ν} (h : m.isEmpty = true) : m = .empty := by
  obtain ⟨es, hes⟩ := m
  obtain rfl : es = [] := List.isEmpty_iff.mp h
  rfl

/-- A field is set to what is read. -/
theorem set_ok {σ : Type} {x : Except Error α} {a : α} (h : x = .ok a) (f : α → σ) :
    (x >>= fun a => .ok (f a)) = .ok (f a) := by
  rw [h]
  rfl

/-- The same for an integer, which is one of two numbers. -/
theorem set_int {σ : Type} {step : σ → String × Value → Except Error σ} {st : σ} {key : String}
    {f : ℤ → σ} (hstep : ∀ m, step st (key, .number m) =
      De.int (.number m) key >>= fun a => .ok (f a)) {n : ℤ} (h : InI64 n) :
    step st (key, .int n) = .ok (f n) := by
  obtain ⟨m, hm⟩ : ∃ m, Value.int n = .number m := by
    unfold Value.int
    split_ifs
    · exact ⟨_, rfl⟩
    · exact ⟨_, rfl⟩
  have hread := De.int_int h key
  rw [hm] at hread ⊢
  rw [hstep]
  exact set_ok hread f

theorem Artifact.fromValue_toValue {a : Artifact} (h : a.Writable) (strict : Bool) :
    Artifact.fromValue strict a.toValue = .ok a := by
  suffices hsets : Sets (Artifact.setField strict) a.fields {} a from hsets
  unfold Artifact.fields
  simp only [List.append_assoc]
  refine .append (.one rfl) ?_
  refine .append (.ite (fun hm => ?_) fun _ => set_ok (De.strMap_strMapValue h.matches' _) _) ?_
  · rw [map_eq_empty hm]
  refine .append (.ite (fun hm => ?_) fun _ => set_ok (De.strMap_strMapValue h.headers _) _) ?_
  · rw [map_eq_empty hm]
  refine .append (.ite (fun hm => ?_) fun _ => set_ok (De.strMap_strMapValue h.auth _) _) ?_
  · rw [map_eq_empty hm]
  refine .append (.ite (fun hs => ?_) fun _ => rfl) ?_
  · rw [hs]
  refine .ite (fun hs => ?_) fun _ => rfl
  · cases a
    subst hs
    rfl

theorem CheckType.parse_asStr (t : CheckType) : CheckType.parse t.asStr = some t := by
  cases t <;> decide

theorem Driver.parse_asStr (d : Driver) : Driver.parse d.asStr = some d := by
  cases d <;> decide

theorem UpdatePolicy.parse_asStr (p : UpdatePolicy) : UpdatePolicy.parse p.asStr = some p := by
  cases p <;> decide

/-- A name is read back. -/
theorem parseOpt_string {parse : String → Option α} {s : String} {a : α} (h : parse s = some a)
    (hs : s ≠ "") (field : String) :
    parseOpt (.string s) field parse = .ok (some a) := by
  simp only [parseOpt, De.string, Value.asStr, De.want, bind, Except.bind, hs, if_false, h]

/-- The first `n` fields of a health check, in the order in which they are written. -/
def HealthCheck.upTo (hc : HealthCheck) (n : ℕ) : HealthCheck where
  kind := if 0 < n then hc.kind else none
  path := if 1 < n then hc.path else ""
  port := if 2 < n then hc.port else ""
  interval := if 3 < n then hc.interval else 0
  timeout := if 4 < n then hc.timeout else 0
  initialTimeout := if 5 < n then hc.initialTimeout else 0
  failureThreshold := if 6 < n then hc.failureThreshold else 0

theorem HealthCheck.fromValue_toValue (h : hc.Writable) (strict : Bool) :
    HealthCheck.fromValue strict hc.toValue = .ok hc := by
  suffices hsets : Sets (HealthCheck.setField strict) hc.fields (hc.upTo 0) (hc.upTo 7) from hsets
  unfold HealthCheck.fields
  simp only [List.append_assoc]
  refine .append (m := hc.upTo 1) (.elim (fun hk => ?_) fun t ht => ?_) ?_
  · unfold upTo
    rw [hk]
    rfl
  · unfold upTo
    rw [ht]
    exact set_ok (parseOpt_string (CheckType.parse_asStr t) (by cases t <;> decide) _) _
  refine .append (m := hc.upTo 2) (.one rfl) ?_
  refine .append (m := hc.upTo 3) (.ite (fun hs => ?_) fun _ => rfl) ?_
  · unfold upTo
    rw [hs]
    rfl
  refine .append (m := hc.upTo 4) (.ite (fun hn => ?_) fun _ =>
    set_ok (De.duration_uint h.interval _) _) ?_
  · unfold upTo
    rw [hn]
    rfl
  refine .append (m := hc.upTo 5) (.ite (fun hn => ?_) fun _ =>
    set_ok (De.duration_uint h.timeout _) _) ?_
  · unfold upTo
    rw [hn]
    rfl
  refine .append (m := hc.upTo 6) (.ite (fun hn => ?_) fun _ =>
    set_ok (De.duration_uint h.initialTimeout _) _) ?_
  · unfold upTo
    rw [hn]
    rfl
  refine .ite (fun hn => ?_) fun _ => (set_int (fun _ => rfl) h.failureThreshold).trans rfl
  · unfold upTo
    rw [hn]
    rfl

theorem mapM_ok {read : Value → Except Error α} {as : List α} (h : ∀ a ∈ as, read (f a) = .ok a) :
    (as.map f).mapM read = .ok as := by
  induction as with
  | nil => rfl
  | cons a as ih =>
    rw [List.map_cons, List.mapM_cons, h a List.mem_cons_self,
      ih fun b hb => h b (List.mem_cons_of_mem a hb)]
    rfl

theorem De.list_array {read : Value → Except Error α} {as : List α} {max : ℕ}
    (hlen : as.length ≤ max) (h : ∀ a ∈ as, read (f a) = .ok a) (field : String) :
    De.list (.array (as.map f)) field max read = .ok as := by
  have hnot : ¬ max < (as.map f).length := by
    rw [List.length_map]
    exact Nat.not_lt.mpr hlen
  simp only [De.list, De.array, Value.asArray, De.want, bind, Except.bind, hnot, if_false]
  exact mapM_ok h

namespace Job

/-- The first `n` fields of a job, in the order in which they are written. -/
def upTo (j : Job) (n : ℕ) : Job where
  name := if 0 < n then j.name else ""
  affinity := if 1 < n then j.affinity else .empty
  driver := if 2 < n then j.driver else none
  image := if 3 < n then j.image else ""
  artifacts := if 4 < n then j.artifacts else []
  user := if 5 < n then j.user else ""
  command := if 6 < n then j.command else ""
  count := if 7 < n then j.count else 0
  ports := if 8 < n then j.ports else .empty
  cpuShares := if 9 < n then j.cpuShares else 0
  memoryLimit := if 10 < n then j.memoryLimit else 0
  env := if 11 < n then j.env else .empty
  tags := if 12 < n then j.tags else .empty
  volumes := if 13 < n then j.volumes else .empty
  healthCheck := if 14 < n then j.healthCheck else none
  maxRestarts := if 15 < n then j.maxRestarts else none
  restartWindow := if 16 < n then j.restartWindow else 0
  updatePolicy := if 17 < n then j.updatePolicy else none
  priority := if 18 < n then j.priority else none
  deploying := if 19 < n then j.deploying else false

theorem upTo_zero (j : Job) : j.upTo 0 = {} := rfl

theorem upTo_all (j : Job) : j.upTo 20 = j := rfl

/-- The fields of a job set a job to it. -/
theorem sets_fields (h : j.Writable) (strict : Bool) :
    Sets (setField strict) j.fields (j.upTo 0) (j.upTo 20) := by
  unfold fields
  simp only [List.append_assoc]
  refine .append (m := j.upTo 1) (.one rfl) ?_
  refine .append (m := j.upTo 2) (.ite (fun hm => ?_) fun _ =>
    set_ok (De.strMap_strMapValue h.affinity _) _) ?_
  · unfold upTo
    rw [map_eq_empty hm]
    rfl
  refine .append (m := j.upTo 3) (.elim (fun hd => ?_) fun d hd => ?_) ?_
  · unfold upTo
    rw [hd]
    rfl
  · unfold upTo
    rw [hd]
    exact set_ok (parseOpt_string (Driver.parse_asStr d) (by cases d <;> decide) _) _
  refine .append (m := j.upTo 4) (.ite (fun hs => ?_) fun _ => rfl) ?_
  · unfold upTo
    rw [hs]
    rfl
  refine .append (m := j.upTo 5) (.ite (fun hs => ?_) fun _ => set_ok (De.list_array h.artifacts
    (fun a ha => Artifact.fromValue_toValue (h.artifact a ha) strict) _) _) ?_
  · unfold upTo
    rw [hs]
    rfl
  refine .append (m := j.upTo 6) (.ite (fun hs => ?_) fun _ => rfl) ?_
  · unfold upTo
    rw [hs]
    rfl
  refine .append (m := j.upTo 7) (.ite (fun hs => ?_) fun _ => rfl) ?_
  · unfold upTo
    rw [hs]
    rfl
  refine .append (m := j.upTo 8) (.ite (fun hn => ?_) fun _ =>
    (set_int (fun _ => rfl) h.count).trans rfl) ?_
  · unfold upTo
    rw [hn]
    rfl
  refine .append (m := j.upTo 9) (.ite (fun hm => ?_) fun _ =>
    set_ok (ports_portsValue h.ports h.port _) _) ?_
  · unfold upTo
    rw [map_eq_empty hm]
    rfl
  refine .append (m := j.upTo 10) (.ite (fun hn => ?_) fun _ =>
    (set_int (fun _ => rfl) h.cpuShares).trans rfl) ?_
  · unfold upTo
    rw [hn]
    rfl
  refine .append (m := j.upTo 11) (.ite (fun hn => ?_) fun _ =>
    set_ok (De.uint_uint h.memoryLimit _) _) ?_
  · unfold upTo
    rw [hn]
    rfl
  refine .append (m := j.upTo 12) (.ite (fun hm => ?_) fun _ =>
    set_ok (De.strMap_strMapValue h.env _) _) ?_
  · unfold upTo
    rw [map_eq_empty hm]
    rfl
  refine .append (m := j.upTo 13) (.ite (fun hm => ?_) fun _ =>
    set_ok (De.strMap_strMapValue h.tags _) _) ?_
  · unfold upTo
    rw [map_eq_empty hm]
    rfl
  refine .append (m := j.upTo 14) (.ite (fun hm => ?_) fun _ =>
    set_ok (De.strMap_strMapValue h.volumes _) _) ?_
  · unfold upTo
    rw [map_eq_empty hm]
    rfl
  refine .append (m := j.upTo 15) (.elim (fun hc => ?_) fun hc hhc => ?_) ?_
  · unfold upTo
    rw [hc]
    rfl
  · unfold upTo
    rw [hhc]
    exact set_ok (HealthCheck.fromValue_toValue (h.healthCheck hc hhc) strict) _
  refine .append (m := j.upTo 16) (.elim (fun hn => ?_) fun n hn => ?_) ?_
  · unfold upTo
    rw [hn]
    rfl
  · unfold upTo
    rw [hn]
    exact (set_int (fun _ => rfl) (h.maxRestarts n hn)).trans rfl
  refine .append (m := j.upTo 17) (.ite (fun hn => ?_) fun _ =>
    set_ok (De.duration_uint h.restartWindow _) _) ?_
  · unfold upTo
    rw [hn]
    rfl
  refine .append (m := j.upTo 18) (.elim (fun hd => ?_) fun d hd => ?_) ?_
  · unfold upTo
    rw [hd]
    rfl
  · unfold upTo
    rw [hd]
    exact set_ok (parseOpt_string (UpdatePolicy.parse_asStr d) (by cases d <;> decide) _) _
  refine .append (m := j.upTo 19) (.elim (fun hp => ?_) fun p hp => ?_) ?_
  · unfold upTo
    rw [hp]
    rfl
  · unfold upTo
    rw [hp]
    exact (set_int (fun _ => rfl) (h.priority p hp)).trans rfl
  cases hd : j.deploying with
  | false =>
    unfold upTo
    rw [hd]
    exact .nil
  | true =>
    unfold upTo
    rw [hd]
    exact .one rfl

theorem fromValue_object (pairs : List (String × Value)) (strict : Bool) :
    fromValue (.object pairs) strict = pairs.foldlM (setField strict) {} := rfl

/-- **A job is read back from its own value.** -/
theorem fromValue_toValue (h : j.Writable) (strict : Bool) :
    fromValue j.toValue strict = .ok j := by
  have hsets := sets_fields h strict
  rw [upTo_zero, upTo_all] at hsets
  unfold Sets at hsets
  unfold toValue
  rw [fromValue_object, hsets]

end Job

/-! ### The value fits the text -/

open Json (Fits)

/-- Pairs with keys from a list, in its order, and values that are read back. -/
structure Keyed (keys : List String) (left : ℕ) (pairs : List (String × Value)) : Prop where
  keys : (pairs.map Prod.fst).Sublist keys
  fits : ∀ kv ∈ pairs, Fits left kv.2

namespace Keyed

variable {key : String} {left : ℕ} {v : Value}

theorem nil (keys : List String) : Keyed keys left [] :=
  ⟨List.nil_sublist _, fun _ h => absurd h List.not_mem_nil⟩

theorem one (h : Fits left v) : Keyed [key] left [(key, v)] :=
  ⟨List.Sublist.refl _, fun kv hkv => by rw [List.mem_singleton.mp hkv]; exact h⟩

theorem append {ks ks' : List String} {a b : List (String × Value)} (ha : Keyed ks left a)
    (hb : Keyed ks' left b) : Keyed (ks ++ ks') left (a ++ b) := by
  refine ⟨?_, fun kv hkv => ?_⟩
  · rw [List.map_append]
    exact ha.keys.append hb.keys
  · rcases List.mem_append.mp hkv with hkv | hkv
    · exact ha.fits kv hkv
    · exact hb.fits kv hkv

theorem cons {ks : List String} {a b : List (String × Value)} (ha : Keyed [key] left a)
    (hb : Keyed ks left b) : Keyed (key :: ks) left (a ++ b) := ha.append hb

theorem ite {p : Prop} [Decidable p] (h : Fits left v) :
    Keyed [key] left (if p then [] else [(key, v)]) := by
  split_ifs
  · exact nil _
  · exact one h

theorem elim {o : Option α} (h : ∀ a ∈ o, Fits left (f a)) :
    Keyed [key] left (o.elim [] fun a => [(key, f a)]) := by
  cases o with
  | none => exact nil _
  | some a => exact one (h a rfl)

theorem object {k : List String} {pairs : List (String × Value)} (h : Keyed k n pairs)
    (hk : k.Nodup) : Fits (n + 1) (.object pairs) :=
  ⟨hk.sublist h.keys, h.fits⟩

end Keyed

theorem fits_strMapValue (m : Map String) (left : ℕ) : Fits (left + 2) (De.strMapValue m) := by
  refine ⟨?_, fun kv hkv => ?_⟩
  · rw [List.map_map]
    exact m.keys_nodup
  · obtain ⟨e, -, rfl⟩ := List.mem_map.mp hkv
    trivial

theorem fits_portsValue (m : Map ℕ) (left : ℕ) : Fits (left + 2) (Job.portsValue m) := by
  refine ⟨?_, fun kv hkv => ?_⟩
  · rw [List.map_map]
    exact m.keys_nodup
  · obtain ⟨e, -, rfl⟩ := List.mem_map.mp hkv
    trivial

theorem fits_int {n : ℤ} (h : InI64 n) (left : ℕ) : Fits (left + 1) (.int n) := by
  unfold Value.int
  by_cases hn : 0 ≤ n
  · rw [if_pos hn]
    trivial
  · have hto : (Int64.ofInt n).toInt = n := by
      refine Int64.toInt_ofInt_of_le h.1 ?_
      have := h.2
      unfold i64Max at this
      omega
    rw [if_neg hn]
    change (Int64.ofInt n).toInt < 0
    omega

theorem Artifact.fits_toValue (a : Artifact) (left : ℕ) : Fits (left + 3) a.toValue := by
  refine Keyed.object (k := ["url", "match", "headers", "auth", "extract", "filename"])
    (n := left + 2) ?_ (by decide)
  have hs : ∀ s, Fits (left + 2) (.string s) := fun _ => trivial
  exact (((((Keyed.one (hs _)).append (.ite (fits_strMapValue _ left))).append
    (.ite (fits_strMapValue _ left))).append (.ite (fits_strMapValue _ left))).append
    (.ite (hs _))).append (.ite (hs _))

theorem HealthCheck.fits_toValue (h : hc.Writable) (left : ℕ) :
    Fits (left + 2) hc.toValue := by
  refine Keyed.object (k := ["type", "path", "port", "interval", "timeout", "initial_timeout",
    "failure_threshold"]) (n := left + 1) ?_ (by decide)
  have hs : ∀ s, Fits (left + 1) (.string s) := fun _ => trivial
  have hu : ∀ n, Fits (left + 1) (.uint n) := fun _ => trivial
  exact ((((((Keyed.elim fun _ _ => hs _).append (.one (hs _))).append (.ite (hs _))).append
    (.ite (hu _))).append (.ite (hu _))).append (.ite (hu _))).append
    (.ite (fits_int h.failureThreshold left))

/-- The keys of a job, in the order in which they are written. -/
def Job.keys : List String :=
  ["name", "affinity", "driver", "image", "artifacts", "user", "command", "count", "ports",
    "cpu_shares", "memory_limit", "env", "tags", "volumes", "health_check", "max_restarts",
    "restart_window", "update_policy", "priority", "deploying"]

theorem Job.keyed_fields (h : j.Writable) (left : ℕ) :
    Keyed keys (left + 4) j.fields := by
  have hs : ∀ s, Fits (left + 4) (.string s) := fun _ => trivial
  have hu : ∀ n, Fits (left + 4) (.uint n) := fun _ => trivial
  have hm : ∀ m, Fits (left + 4) (De.strMapValue m) := fun m => fits_strMapValue m (left + 2)
  have hi : ∀ {n}, InI64 n → Fits (left + 4) (.int n) := fun hn => fits_int hn (left + 3)
  have hartifacts : Fits (left + 4) (.array (j.artifacts.map Artifact.toValue)) := by
    intro v hv
    obtain ⟨a, -, rfl⟩ := List.mem_map.mp hv
    exact a.fits_toValue left
  have hcheck : ∀ hc ∈ j.healthCheck, Fits (left + 4) hc.toValue := fun hc hhc =>
    HealthCheck.fits_toValue (h.healthCheck hc hhc) (left + 2)
  unfold keys fields
  simp only [List.append_assoc]
  refine .cons (.one (hs _)) (.cons (.ite (hm _)) (.cons (.elim fun _ _ => hs _) ?_))
  refine .cons (.ite (hs _)) (.cons (.ite hartifacts) (.cons (.ite (hs _)) ?_))
  refine .cons (.ite (hs _)) (.cons (.ite (hi h.count)) ?_)
  refine .cons (.ite (fits_portsValue _ (left + 2))) (.cons (.ite (hi h.cpuShares)) ?_)
  refine .cons (.ite (hu _)) (.cons (.ite (hm _)) (.cons (.ite (hm _)) (.cons (.ite (hm _)) ?_)))
  refine .cons (.elim hcheck) (.cons (.elim fun _ hn => hi (h.maxRestarts _ hn)) ?_)
  refine .cons (.ite (hu _)) (.cons (.elim fun _ _ => hs _) ?_)
  refine .cons (.elim fun _ hp => hi (h.priority _ hp)) ?_
  split_ifs
  · exact .one trivial
  · exact .nil _

/-- **The value of a job fits the text.** -/
theorem Job.fits_toValue (h : j.Writable) (left : ℕ) : Fits (left + 5) j.toValue := by
  exact (keyed_fields h left).object (by decide)

/-! ### What is read is writable -/

theorem De.inI64_of_int {n : ℤ} (h : De.int v field = .ok n) :
    InI64 n := by
  unfold De.int at h
  split at h
  · rename_i m
    cases m with
    | int w =>
      cases h
      have hlt : w.toInt < 2 ^ 63 := w.toInt_lt
      refine ⟨w.le_toInt, ?_⟩
      unfold i64Max
      omega
    | uint w =>
      simp only [Json.Number.asI64] at h
      split_ifs at h with hw
      · cases h
        refine ⟨?_, hw⟩
        unfold i64Min
        omega
      · cases h
    | float text => cases h
  · cases h

theorem De.le_of_uint (h : De.uint v field = .ok n) :
    n ≤ u64Max := by
  unfold De.uint at h
  split at h
  · rename_i m
    cases m with
    | int w => cases h
    | uint w =>
      cases h
      exact Nat.le_pred_of_lt w.toNat_lt
    | float text => cases h
  · cases h

theorem le_of_parseDuration {s : String} {d : Nanos} (h : parseDuration s = .ok d) :
    d ≤ u64Max := by
  unfold parseDuration at h
  dsimp only at h
  generalize (if (utf8 s).head? = some 45 ∨ (utf8 s).head? = some 43 then (utf8 s).tail
    else utf8 s) = rest at h
  by_cases h0 : rest = [48]
  · rw [if_pos h0] at h
    cases h
    exact Nat.zero_le _
  by_cases hnil : rest = []
  · rw [if_neg h0, if_pos hnil] at h
    cases h
  rw [if_neg h0, if_neg hnil] at h
  obtain ⟨total, -, h⟩ := bind_eq_ok h
  by_cases hmax : i64Max < total
  · rw [if_pos hmax] at h
    cases h
  · rw [if_neg hmax] at h
    split_ifs at h
    cases h
    have hle : i64Max ≤ (u64Max : ℤ) := by decide
    exact Int.ofNat_le.mp ((not_lt.mp hmax).trans hle)

theorem De.le_of_duration (h : De.duration v field = .ok n) : n ≤ u64Max := by
  unfold De.duration at h
  split at h
  · unfold De.durationStr at h
    split at h
    · rename_i d hd
      cases h
      exact le_of_parseDuration hd
    all_goals cases h
  · exact De.le_of_uint h

/-- A fold that adds at most one entry for each pair. -/
theorem size_le_of_foldlM {ν : Type} {step : Map ν → String × Value → Except Error (Map ν)}
    (hstep : ∀ m kv m', step m kv = .ok m' → m'.size ≤ m.size + 1)
    {obj : List (String × Value)} {m m' : Map ν} (h : obj.foldlM step m = .ok m') :
    m'.size ≤ m.size + obj.length := by
  induction obj generalizing m with
  | nil =>
    cases h
    exact le_rfl
  | cons kv obj ih =>
    rw [List.foldlM_cons] at h
    obtain ⟨mid, hmid, h⟩ := bind_eq_ok h
    have hone := hstep m kv mid hmid
    have hrest := ih h
    rw [List.length_cons]
    omega

theorem De.size_le_of_strMap {max : ℕ} {m : Map String} (h : De.strMap v field max = .ok m) :
    m.size ≤ max := by
  unfold De.strMap at h
  obtain ⟨obj, -, h⟩ := bind_eq_ok h
  split_ifs at h with hlen
  have hsize := size_le_of_foldlM (fun m kv m' hm => ?_) h
  · have hempty : (SortedMap.empty : Map String).size = 0 := rfl
    omega
  · obtain ⟨s, -, hm⟩ := bind_eq_ok hm
    cases hm
    exact m.size_insert_le kv.1 s

theorem size_le_of_ports {m : Map ℕ} (h : ports v field = .ok m) :
    m.size ≤ maxPorts ∧ ∀ e ∈ m.entries, e.2 ≤ u16Max := by
  unfold ports at h
  obtain ⟨obj, -, h⟩ := bind_eq_ok h
  split_ifs at h with hlen
  refine ⟨?_, ?_⟩
  · have hsize := size_le_of_foldlM (fun m kv m' hm => ?_) h
    · have hempty : (SortedMap.empty : Map ℕ).size = 0 := rfl
      omega
    · obtain ⟨n, -, hm⟩ := bind_eq_ok hm
      split_ifs at hm
      cases hm
      exact m.size_insert_le kv.1 n
  · refine foldlM_invariant (P := fun m : Map ℕ => ∀ e ∈ m.entries, e.2 ≤ u16Max)
      (fun m kv m' hm hins => ?_) h (fun _ he => absurd he List.not_mem_nil)
    obtain ⟨n, -, hins⟩ := bind_eq_ok hins
    split_ifs at hins with hn
    cases hins
    intro e he
    rcases SortedMap.mem_insertEntry he with rfl | he
    · exact Nat.not_lt.mp hn
    · exact hm e he

theorem De.list_invariant {read : Value → Except Error α} {P : α → Prop}
    (hread : ∀ v a, read v = .ok a → P a) {max : ℕ} {as : List α}
    (h : De.list v field max read = .ok as) : as.length ≤ max ∧ ∀ a ∈ as, P a := by
  unfold De.list at h
  obtain ⟨arr, -, h⟩ := bind_eq_ok h
  split_ifs at h with hlen
  obtain ⟨hlen', hall⟩ := mapM_invariant hread h
  exact ⟨hlen' ▸ Nat.not_lt.mp hlen, hall⟩

/-- Whatever is read has the property. -/
def Keeps {σ : Type} (P : σ → Prop) (x : Except Error σ) : Prop := ∀ s, x = .ok s → P s

namespace Keeps

variable {σ : Type} {P : σ → Prop}

theorem ok {s : σ} (h : P s) : Keeps P (.ok s) := by
  rintro s' heq
  exact Except.ok.inj heq ▸ h

theorem ite {c : Prop} [Decidable c] {a b : Except Error σ} (ha : Keeps P a) (hb : Keeps P b) :
    Keeps P (if c then a else b) := by
  by_cases hc : c
  · rw [if_pos hc]
    exact ha
  · rw [if_neg hc]
    exact hb

theorem bind {x : Except Error α} {f : α → σ} (h : ∀ a, x = .ok a → P (f a)) :
    Keeps P (x >>= fun a => .ok (f a)) := by
  intro s hs
  obtain ⟨a, ha, hs⟩ := bind_eq_ok hs
  exact Except.ok.inj hs ▸ h a ha

end Keeps

theorem Artifact.writable_default : Writable {} := ⟨Nat.zero_le _, Nat.zero_le _, Nat.zero_le _⟩

theorem Artifact.keeps_setField {a : Artifact} (h : a.Writable) (kv : String × Value) :
    Keeps Writable (a.setField strict kv) := by
  refine .ite (.ok h) (.ite (.bind fun _ _ => { h with }) ?_)
  refine .ite (.bind fun _ hm => { h with matches' := De.size_le_of_strMap hm }) ?_
  refine .ite (.bind fun _ hm => { h with headers := De.size_le_of_strMap hm }) ?_
  refine .ite (.bind fun _ hm => { h with auth := De.size_le_of_strMap hm }) ?_
  exact .ite (.bind fun _ _ => { h with }) (.ite (.bind fun _ _ => { h with }) (.bind fun _ _ => h))

theorem Artifact.writable_of_fromValue {a : Artifact} (h : Artifact.fromValue strict v = .ok a) :
    a.Writable := by
  unfold Artifact.fromValue at h
  obtain ⟨obj, -, h⟩ := bind_eq_ok h
  exact foldlM_invariant (fun _ kv _ hst hset => keeps_setField hst kv _ hset) h writable_default

theorem HealthCheck.writable_default : Writable {} :=
  ⟨Nat.zero_le _, Nat.zero_le _, Nat.zero_le _, by decide, by decide⟩

theorem HealthCheck.keeps_setField (h : hc.Writable) (kv : String × Value) :
    Keeps Writable (hc.setField strict kv) := by
  refine .ite (.ok h) (.ite (.bind fun _ _ => { h with }) (.ite (.bind fun _ _ => { h with })
    (.ite (.bind fun _ _ => { h with }) ?_)))
  refine .ite (.bind fun _ hn => { h with interval := De.le_of_duration hn }) ?_
  refine .ite (.bind fun _ hn => { h with timeout := De.le_of_duration hn }) ?_
  refine .ite (.bind fun _ hn => { h with initialTimeout := De.le_of_duration hn }) ?_
  exact .ite (.bind fun _ hn => { h with failureThreshold := De.inI64_of_int hn })
    (.bind fun _ _ => h)

theorem HealthCheck.writable_of_fromValue (h : HealthCheck.fromValue strict v = .ok hc) :
    hc.Writable := by
  unfold HealthCheck.fromValue at h
  obtain ⟨obj, -, h⟩ := bind_eq_ok h
  exact foldlM_invariant (fun _ kv _ hst hset => keeps_setField hst kv _ hset) h writable_default

namespace Job

theorem writable_default : Writable {} where
  affinity := Nat.zero_le _
  artifacts := Nat.zero_le _
  artifact := fun _ h => absurd h List.not_mem_nil
  count := ⟨by decide, by decide⟩
  ports := Nat.zero_le _
  port := fun _ h => absurd h List.not_mem_nil
  cpuShares := ⟨by decide, by decide⟩
  memoryLimit := Nat.zero_le _
  env := Nat.zero_le _
  tags := Nat.zero_le _
  volumes := Nat.zero_le _
  healthCheck := fun _ h => nomatch h
  maxRestarts := fun _ h => nomatch h
  restartWindow := Nat.zero_le _
  priority := fun _ h => nomatch h

theorem keeps_setField (h : j.Writable) (kv : String × Value) :
    Keeps Writable (j.setField strict kv) := by
  refine .ite (.ok h) (.ite (.bind fun _ _ => { h with }) ?_)
  refine .ite (.bind fun _ hm => { h with affinity := De.size_le_of_strMap hm }) ?_
  refine .ite (.bind fun _ _ => { h with }) (.ite (.bind fun _ _ => { h with }) ?_)
  refine .ite (.bind fun _ hl => ?_) ?_
  · obtain ⟨hlen, hall⟩ := De.list_invariant (fun _ _ => Artifact.writable_of_fromValue) hl
    exact { h with artifacts := hlen, artifact := hall }
  refine .ite (.bind fun _ _ => { h with }) (.ite (.bind fun _ _ => { h with }) ?_)
  refine .ite (.bind fun _ hn => { h with count := De.inI64_of_int hn }) ?_
  refine .ite (.bind fun _ hp => ?_) ?_
  · obtain ⟨hsize, hrange⟩ := size_le_of_ports hp
    exact { h with ports := hsize, port := hrange }
  refine .ite (.bind fun _ hn => { h with cpuShares := De.inI64_of_int hn }) ?_
  refine .ite (.bind fun _ hn => { h with memoryLimit := De.le_of_uint hn }) ?_
  refine .ite (.bind fun _ hm => { h with env := De.size_le_of_strMap hm }) ?_
  refine .ite (.bind fun _ hm => { h with tags := De.size_le_of_strMap hm }) ?_
  refine .ite (.bind fun _ hm => { h with volumes := De.size_le_of_strMap hm }) ?_
  refine .ite (.bind fun _ hc => ?_) ?_
  · exact { h with healthCheck := fun _ heq =>
              Option.some.inj heq ▸ HealthCheck.writable_of_fromValue hc }
  refine .ite (.bind fun _ hn => ?_) ?_
  · exact { h with maxRestarts := fun _ heq => Option.some.inj heq ▸ De.inI64_of_int hn }
  refine .ite (.bind fun _ hn => { h with restartWindow := De.le_of_duration hn }) ?_
  refine .ite (.bind fun _ _ => { h with }) ?_
  refine .ite (.bind fun _ hn => ?_) ?_
  · exact { h with priority := fun _ heq => Option.some.inj heq ▸ De.inI64_of_int hn }
  exact .ite (.bind fun _ _ => { h with }) (.bind fun _ _ => h)

/-- **Every job that is read is writable.** -/
theorem writable_of_fromValue (h : fromValue v strict = .ok j) : j.Writable := by
  unfold fromValue at h
  obtain ⟨obj, -, h⟩ := bind_eq_ok h
  exact foldlM_invariant (fun _ kv _ hst hset => keeps_setField hst kv _ hset) h writable_default

theorem writable_of_fromJson {input : Bytes} (h : fromJson input = .ok j) :
    j.Writable := by
  unfold fromJson at h
  obtain ⟨v, -, h⟩ := bind_eq_ok h
  exact writable_of_fromValue h

/-- **A job is read back from its own text**, if the text is within the limit. -/
theorem fromJson_toJson (h : j.Writable) (hsize : Json.size j.toValue ≤ Json.maxInput) :
    fromJson j.toJson = .ok j := by
  unfold fromJson toJson
  rw [Json.parse_write (fits_toValue h 27) hsize]
  simp only [bind, Except.bind]
  rw [fromValue_toValue h]

end Job

end Hop.Types
