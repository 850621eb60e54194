import Hop.Dns.Server

/-!
# The names of questions

A name on the wire is a list of labels; the server reads it as a text, its labels in small letters
with dots between them (`nameText_wireOf`, `of_nameText_wireOf`). What it looks up are parts of this
text behind a dot (`Above`): the parents of a wildcard, the zones, the name of a cluster.
-/

namespace Hop.Dns

/-! ### Names -/

/-- Labels on the wire. -/
def wireOf (labels : List Bytes) : Bytes :=
  labels.flatMap (fun l => UInt8.ofNat l.length :: l) ++ [0]

/-- A name that a question can have. -/
structure Name where
  labels : List Bytes
  sizes : ∀ l ∈ labels, 1 ≤ l.length ∧ l.length ≤ labelMax
  short : (wireOf labels).length ≤ nameMax

namespace Name

def wire (n : Name) : Bytes := wireOf n.labels

/-- `m` is `n` with one or more labels before it. -/
def Below (m n : Name) : Prop := ∃ ls, ls ≠ [] ∧ m.labels.map lower = ls ++ n.labels.map lower

end Name

theorem plainLen_label {l rest : Bytes} : plainLen (l ++ rest) l.length =
    (plainLen rest 0).map (· + l.length) := by
  induction l with
  | nil => simp
  | cons b l ih =>
    rw [List.cons_append, List.length_cons, plainLen, ih, Option.map_map]
    rfl

theorem toNat_ofNat_of_le {n : ℕ} (h : n ≤ labelMax) : (UInt8.ofNat n).toNat = n := by
  rw [labelMax] at h
  simp
  omega

theorem ofNat_ne_zero {n : ℕ} (h : 1 ≤ n) (h' : n ≤ labelMax) : UInt8.ofNat n ≠ 0 := by
  intro h0
  have := congrArg UInt8.toNat h0
  rw [toNat_ofNat_of_le h'] at this
  simp at this
  omega

/-- A name is read to its end, whatever stands behind it. -/
theorem plainLen_wireOf {labels : List Bytes} (h : ∀ l ∈ labels, 1 ≤ l.length ∧ l.length ≤ labelMax)
    (rest : Bytes) : plainLen (wireOf labels ++ rest) 0 = some (wireOf labels).length := by
  induction labels with
  | nil => rfl
  | cons l labels ih =>
    obtain ⟨⟨hl, hl'⟩, hrest⟩ := List.forall_mem_cons.mp h
    have hcons : wireOf (l :: labels) = UInt8.ofNat l.length :: (l ++ wireOf labels) := by
      simp [wireOf]
    rw [hcons, List.cons_append, List.append_assoc, plainLen, if_neg (ofNat_ne_zero hl hl'),
      toNat_ofNat_of_le hl', if_neg (by omega), plainLen_label, ih hrest]
    simp
    omega

/-! ### Texts -/

/-- Labels with dots between them. -/
def dotted : List Bytes → Bytes
  | [] => []
  | l :: ls => if ls = [] then l else l ++ dot :: dotted ls

theorem dotted_cons_cons (l m : Bytes) (ls : List Bytes) :
    dotted (l :: m :: ls) = l ++ dot :: dotted (m :: ls) := by
  rw [dotted, if_neg (List.cons_ne_nil m ls)]

theorem nameTextFrom_label {l rest buf : Bytes} (hplain : ∀ b ∈ l, plainByte b = true)
    (hroom : buf.length + l.length ≤ nameMax) :
    nameTextFrom (l ++ rest) buf l.length = nameTextFrom rest (buf ++ lower l) 0 := by
  induction l generalizing buf with
  | nil => rw [List.nil_append, List.length_nil, lower, List.map_nil, List.append_nil]
  | cons b l ih =>
    obtain ⟨hb, hl⟩ := List.forall_mem_cons.mp hplain
    rw [List.length_cons] at hroom
    rw [List.cons_append, List.length_cons, nameTextFrom, if_pos hb, push, if_pos (by omega)]
    dsimp only
    rw [ih hl (by rw [List.length_append, List.length_singleton]; omega), lower, lower,
      List.map_cons, List.append_assoc]
    rfl

/-- A label that was read has only plain bytes. -/
theorem of_nameTextFrom_label {l rest buf t : Bytes}
    (h : nameTextFrom (l ++ rest) buf l.length = some t) :
    (∀ b ∈ l, plainByte b = true) ∧ nameTextFrom rest (buf ++ lower l) 0 = some t := by
  induction l generalizing buf with
  | nil =>
    rw [List.nil_append, List.length_nil] at h
    rw [lower, List.map_nil, List.append_nil]
    exact ⟨nofun, h⟩
  | cons b l ih =>
    rw [List.cons_append, List.length_cons, nameTextFrom, push] at h
    split_ifs at h with hb hroom
    obtain ⟨hl, hrest⟩ := ih h
    rw [List.append_assoc] at hrest
    exact ⟨List.forall_mem_cons.mpr ⟨hb, hl⟩, hrest⟩

theorem wireOf_cons (l : Bytes) (ls : List Bytes) :
    wireOf (l :: ls) = UInt8.ofNat l.length :: (l ++ wireOf ls) := by
  rw [wireOf, wireOf, List.flatMap_cons, List.cons_append, List.cons_append, List.append_assoc]

theorem length_wireOf_pos (ls : List Bytes) : 1 ≤ (wireOf ls).length := by
  rw [wireOf, List.length_append, List.length_singleton]
  omega

theorem lower_ne_nil {l : Bytes} (h : 1 ≤ l.length) : lower l ≠ [] := by
  rw [← List.length_pos_iff, lower, List.length_map]
  exact h

section Wire

variable {l : Bytes} {ls : List Bytes} {buf t : Bytes}

/-- The labels of a name behind what was read of it. -/
theorem nameTextFrom_wireOf (hbuf : buf ≠ [])
    (hsizes : ∀ l ∈ ls, 1 ≤ l.length ∧ l.length ≤ labelMax)
    (hplain : ∀ l ∈ ls, ∀ b ∈ l, plainByte b = true)
    (hlen : buf.length + (wireOf ls).length ≤ nameMax + 1) :
    nameTextFrom (wireOf ls) buf 0 = some (dotted (buf :: ls.map lower)) := by
  induction ls generalizing buf with
  | nil => rw [wireOf, List.flatMap_nil, List.nil_append, nameTextFrom, if_pos rfl]; rfl
  | cons l ls ih =>
    obtain ⟨hl, hsizes⟩ := List.forall_mem_cons.mp hsizes
    obtain ⟨hlp, hplain⟩ := List.forall_mem_cons.mp hplain
    have hpos := length_wireOf_pos ls
    rw [wireOf_cons, List.length_cons, List.length_append] at hlen
    rw [wireOf_cons, nameTextFrom, if_neg (ofNat_ne_zero hl.1 hl.2), if_neg hbuf, push,
      if_pos (by omega)]
    dsimp only
    have hlow : (lower l).length = l.length := List.length_map _
    rw [toNat_ofNat_of_le hl.2, nameTextFrom_label hlp (by
      rw [List.length_append, List.length_singleton]; omega), ih (by simp) hsizes hplain (by
      rw [List.length_append, List.length_append, List.length_singleton, hlow]; omega),
      List.map_cons, dotted_cons_cons]
    rcases ls.map lower with _ | ⟨m, ms⟩
    · simp [dotted]
    · rw [dotted_cons_cons, dotted_cons_cons]
      simp

theorem nameText_wireOf (hsizes : ∀ m ∈ ls, 1 ≤ m.length ∧ m.length ≤ labelMax)
    (hplain : ∀ m ∈ ls, ∀ b ∈ m, plainByte b = true) (hlen : (wireOf ls).length ≤ nameMax) :
    nameText (wireOf ls) = some (dotted (ls.map lower)) := by
  rcases ls with _ | ⟨l, ls⟩
  · rfl
  obtain ⟨hl, hsizes⟩ := List.forall_mem_cons.mp hsizes
  obtain ⟨hlp, hplain⟩ := List.forall_mem_cons.mp hplain
  have hlow : (lower l).length = l.length := List.length_map _
  rw [wireOf_cons, List.length_cons, List.length_append] at hlen
  rw [nameText, wireOf_cons, nameTextFrom, if_neg (ofNat_ne_zero hl.1 hl.2), if_pos rfl,
    toNat_ofNat_of_le hl.2, nameTextFrom_label hlp (by rw [List.length_nil]; omega),
    List.nil_append, nameTextFrom_wireOf (lower_ne_nil hl.1) hsizes hplain (by rw [hlow]; omega),
    List.map_cons]

theorem of_nameTextFrom_wireOf (hbuf : buf ≠ [])
    (hsizes : ∀ l ∈ ls, 1 ≤ l.length ∧ l.length ≤ labelMax)
    (h : nameTextFrom (wireOf ls) buf 0 = some t) : ∀ l ∈ ls, ∀ b ∈ l, plainByte b = true := by
  induction ls generalizing buf with
  | nil => nofun
  | cons l ls ih =>
    obtain ⟨hl, hsizes⟩ := List.forall_mem_cons.mp hsizes
    rw [wireOf_cons, nameTextFrom, if_neg (ofNat_ne_zero hl.1 hl.2), if_neg hbuf, push] at h
    split_ifs at h with hroom
    rw [toNat_ofNat_of_le hl.2] at h
    obtain ⟨hplain, hrest⟩ := of_nameTextFrom_label h
    exact List.forall_mem_cons.mpr ⟨hplain, ih (by simp) hsizes hrest⟩

/-- A name that has a text has plain labels, and this is its text. -/
theorem of_nameText_wireOf (hsizes : ∀ m ∈ ls, 1 ≤ m.length ∧ m.length ≤ labelMax)
    (hlen : (wireOf ls).length ≤ nameMax) (h : nameText (wireOf ls) = some t) :
    (∀ m ∈ ls, ∀ b ∈ m, plainByte b = true) ∧ t = dotted (ls.map lower) := by
  have hplain : ∀ m ∈ ls, ∀ b ∈ m, plainByte b = true := by
    rcases ls with _ | ⟨l, ls⟩
    · nofun
    obtain ⟨hl, hrest⟩ := List.forall_mem_cons.mp hsizes
    rw [nameText, wireOf_cons, nameTextFrom, if_neg (ofNat_ne_zero hl.1 hl.2), if_pos rfl,
      toNat_ofNat_of_le hl.2] at h
    obtain ⟨hplain, h⟩ := of_nameTextFrom_label h
    exact List.forall_mem_cons.mpr
      ⟨hplain, of_nameTextFrom_wireOf (lower_ne_nil hl.1) hrest h⟩
  refine ⟨hplain, Option.some.inj (h.symm.trans (nameText_wireOf hsizes hplain hlen))⟩

end Wire

/-- A byte of a label is no dot. -/
theorem dot_not_mem_lower {l : Bytes} (h : ∀ b ∈ l, plainByte b = true) : dot ∉ lower l := by
  intro hmem
  obtain ⟨b, hb, hdot⟩ := List.mem_map.mp hmem
  have hplain := h b hb
  have hne : b ≠ dot := by
    rintro rfl
    exact absurd hplain (by decide)
  rw [lowerByte] at hdot
  split_ifs at hdot with hbig
  · have hval := congrArg UInt8.toNat hdot
    have hlow : 65 ≤ b.toNat := hbig.1
    have hhigh : b.toNat ≤ 90 := hbig.2
    rw [UInt8.toNat_add, show (32 : UInt8).toNat = 32 from rfl, show dot.toNat = 46 from rfl] at hval
    omega
  · exact hne hdot

/-! ### What stands behind a dot -/

/-- The name `t` is `u` without one or more labels in front. -/
def Above (t u : Bytes) : Prop := ∃ front, u = front ++ dot :: t

theorem Above.length_lt {t u : Bytes} (h : Above t u) : t.length < u.length := by
  obtain ⟨front, rfl⟩ := h
  rw [List.length_append, List.length_cons]
  omega

theorem Above.trans {s t u : Bytes} (h : Above s t) (h' : Above t u) : Above s u := by
  obtain ⟨front, rfl⟩ := h
  obtain ⟨front', rfl⟩ := h'
  exact ⟨front' ++ dot :: front, by rw [List.append_assoc, List.cons_append]⟩

theorem splitOnce_append {k : Bytes} (h : dot ∉ k) (rest : Bytes) :
    splitOnce (k ++ dot :: rest) = some (k, rest) := by
  induction k with
  | nil => rw [List.nil_append, splitOnce, if_pos rfl]
  | cons b k ih =>
    obtain ⟨hb, hk⟩ := List.ne_and_not_mem_of_not_mem_cons h
    rw [List.cons_append, splitOnce, if_neg (Ne.symm hb), ih hk]
    rfl

theorem splitOnce_eq_none {t : Bytes} (h : dot ∉ t) : splitOnce t = none := by
  induction t with
  | nil => rfl
  | cons b t ih =>
    obtain ⟨hb, ht⟩ := List.ne_and_not_mem_of_not_mem_cons h
    rw [splitOnce, if_neg (Ne.symm hb), ih ht]
    rfl

/-- A text without a dot, or one cut at its first. -/
theorem splitOnce_cases (t : Bytes) : (splitOnce t = none ∧ dot ∉ t) ∨
    ∃ k rest, t = k ++ dot :: rest ∧ dot ∉ k ∧ splitOnce t = some (k, rest) := by
  by_cases hdot : dot ∈ t
  · obtain ⟨k, rest, rfl, hk⟩ := List.eq_append_cons_of_mem hdot
    exact .inr ⟨k, rest, rfl, hk, splitOnce_append hk rest⟩
  · exact .inl ⟨splitOnce_eq_none hdot, hdot⟩

/-- What is above a text is what stands behind its first dot, or above that. -/
theorem above_iff {k rest t : Bytes} (hk : dot ∉ k) :
    Above t (k ++ dot :: rest) ↔ t = rest ∨ Above t rest := by
  constructor
  · rintro ⟨front, h⟩
    rcases List.append_eq_append_iff.mp h with ⟨mid, hmid, hrest⟩ | ⟨mid, hmid, hrest⟩
    · rcases mid with _ | ⟨b, mid⟩
      · exact .inl (List.cons.inj hrest).2.symm
      · exact .inr ⟨mid, (List.cons.inj hrest).2⟩
    · rcases mid with _ | ⟨b, mid⟩
      · exact .inl (List.cons.inj hrest).2
      · obtain ⟨rfl, -⟩ := List.cons.inj hrest
        exact absurd (hmid ▸ List.mem_append_right front List.mem_cons_self) hk
  · rintro (rfl | ⟨front, rfl⟩)
    · exact ⟨k, rfl⟩
    · exact ⟨k ++ dot :: front, by rw [List.append_assoc, List.cons_append]⟩

theorem not_above {t u : Bytes} (h : dot ∉ u) : ¬ Above t u := by
  rintro ⟨front, rfl⟩
  exact h (List.mem_append_right front List.mem_cons_self)

/-- What is above the text of labels is the text of the last ones. -/
theorem above_dotted {ls : List Bytes} (h : ∀ l ∈ ls, dot ∉ l) {t : Bytes} (ha : Above t (dotted ls)) :
    ∃ front back, ls = front ++ back ∧ front ≠ [] ∧ back ≠ [] ∧ t = dotted back := by
  induction ls with
  | nil => exact absurd ha (not_above List.not_mem_nil)
  | cons l ls ih =>
    obtain ⟨hl, hls⟩ := List.forall_mem_cons.mp h
    rcases ls with _ | ⟨m, ls⟩
    · exact absurd ha (not_above hl)
    · rw [dotted_cons_cons, above_iff hl] at ha
      rcases ha with rfl | ha
      · exact ⟨[l], m :: ls, rfl, List.cons_ne_nil _ _, List.cons_ne_nil _ _, rfl⟩
      · obtain ⟨front, back, hsplit, -, hback, ht⟩ := ih hls ha
        exact ⟨l :: front, back, by rw [hsplit, List.cons_append], List.cons_ne_nil _ _, hback, ht⟩

theorem above_dotted_append {front back : List Bytes} (hfront : front ≠ []) (hback : back ≠ []) :
    Above (dotted back) (dotted (front ++ back)) := by
  obtain ⟨b, back, rfl⟩ := List.exists_cons_of_ne_nil hback
  induction front with
  | nil => exact absurd rfl hfront
  | cons l front ih =>
    rcases front with _ | ⟨m, front⟩
    · exact ⟨l, dotted_cons_cons l b back⟩
    · rw [List.cons_append, List.cons_append, dotted_cons_cons]
      exact (ih (List.cons_ne_nil _ _)).trans ⟨l, rfl⟩

/-- A text that a question can ask for. -/
def Asked (t : Bytes) : Prop := ∃ n : Name, nameText n.wire = some t

/-- What is above a text that can be asked for can be asked for, as a name above its own. -/
theorem Name.above {m : Name} {t u : Bytes} (hu : nameText m.wire = some u) (ha : Above t u) :
    ∃ n : Name, m.Below n ∧ nameText n.wire = some t := by
  obtain ⟨hplain, rfl⟩ := of_nameText_wireOf m.sizes m.short hu
  have hdots : ∀ l ∈ m.labels.map lower, dot ∉ l := by
    intro l' hl'
    obtain ⟨l, hl, rfl⟩ := List.mem_map.mp hl'
    exact dot_not_mem_lower (hplain l hl)
  obtain ⟨front, back, hsplit, hfront, hback, rfl⟩ := above_dotted hdots ha
  obtain ⟨front, back, hlabels, rfl, rfl⟩ := List.map_eq_append_iff.mp hsplit
  have hmem : ∀ l ∈ back, l ∈ m.labels := fun l hl => by
    rw [hlabels]
    exact List.mem_append_right front hl
  have hshort : (wireOf back).length ≤ nameMax := by
    have hwire : wireOf (front ++ back) =
        front.flatMap (fun l => UInt8.ofNat l.length :: l) ++ wireOf back := by
      rw [wireOf, wireOf, List.flatMap_append, List.append_assoc]
    refine le_trans ?_ m.short
    rw [hlabels, hwire, List.length_append]
    exact Nat.le_add_left _ _
  have hsizes : ∀ l ∈ back, 1 ≤ l.length ∧ l.length ≤ labelMax := fun l hl => m.sizes l (hmem l hl)
  refine ⟨⟨back, hsizes, hshort⟩, ⟨front.map lower, hfront, ?_⟩, ?_⟩
  · rw [hlabels, List.map_append]
  · exact nameText_wireOf hsizes (fun l hl => hplain l (hmem l hl)) hshort

/-- A name above another has the text above, or none. -/
theorem Name.Below.above {m n : Name} (h : m.Below n) {t u : Bytes} (ht : nameText n.wire = some t)
    (hu : nameText m.wire = some u) : t = [] ∨ Above t u := by
  obtain ⟨-, rfl⟩ := of_nameText_wireOf n.sizes n.short ht
  obtain ⟨-, rfl⟩ := of_nameText_wireOf m.sizes m.short hu
  obtain ⟨ls, hls, hbelow⟩ := h
  rw [hbelow]
  by_cases hn : n.labels.map lower = []
  · exact .inl (by rw [hn]; rfl)
  · exact .inr (above_dotted_append hls hn)

end Hop.Dns
