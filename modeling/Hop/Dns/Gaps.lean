import Hop.Dns.Denial

/-!
# Gaps in the tables

Which names the server answers and which it denies, said by the entries of its tables
(`Server.answers_iff`, `Server.denies_iff`): the exact names and the wildcards of the static table,
the clusters and jobs of the cache, the domain. A gap is a name above an entry that the server owns
and its tables do not know; `denies_nothing_below_iff` says that these are all there is to it.
-/

namespace Hop.Dns

variable {t u p z : Bytes}

/-! ### Names that can be asked for -/

theorem lowerByte_idem (b : UInt8) : lowerByte (lowerByte b) = lowerByte b := by
  rw [lowerByte, lowerByte]
  split_ifs with hbig hagain
  · have hlow : 65 ≤ b.toNat := hbig.1
    have hhigh : b.toNat ≤ 90 := hbig.2
    have hagain : (b + 32).toNat ≤ 90 := hagain.2
    rw [UInt8.toNat_add, show (32 : UInt8).toNat = 32 from rfl] at hagain
    omega
  · rfl
  · rfl

theorem lower_dotted (ls : List Bytes) : lower (dotted (ls.map lower)) = dotted (ls.map lower) := by
  have hlower : ∀ l, lower (lower l) = lower l := fun l => by
    rw [lower, lower, List.map_map]
    exact List.map_congr_left fun b _ => lowerByte_idem b
  induction ls with
  | nil => rfl
  | cons l ls ih =>
    rcases ls with _ | ⟨m, ls⟩
    · exact hlower l
    · rw [List.map_cons] at ih
      rw [List.map_cons, List.map_cons, dotted_cons_cons]
      calc lower (lower l ++ dot :: dotted (lower m :: ls.map lower))
          = lower (lower l) ++ dot :: lower (dotted (lower m :: ls.map lower)) := by
            rw [lower, List.map_append, List.map_cons]
            rfl
        _ = lower l ++ dot :: dotted (lower m :: ls.map lower) := by rw [hlower, ih]

theorem length_dotted_le (ls : List Bytes) :
    (dotted (ls.map lower)).length ≤ (wireOf ls).length := by
  induction ls with
  | nil => exact Nat.zero_le _
  | cons l ls ih =>
    rw [wireOf_cons]
    rcases ls with _ | ⟨m, ls⟩
    · rw [List.map_cons, List.map_nil, dotted, if_pos rfl, lower, List.length_map, List.length_cons,
        List.length_append]
      omega
    · rw [List.map_cons, List.map_cons, dotted_cons_cons, ← List.map_cons, List.length_append,
        List.length_cons, lower, List.length_map, List.length_cons, List.length_append]
      omega

namespace Asked

theorem not_above_nil (h : Asked t) : ¬ Above [] t := by
  obtain ⟨n, hn⟩ := h
  obtain ⟨hplain, rfl⟩ := of_nameText_wireOf n.sizes n.short hn
  intro ha
  obtain ⟨front, back, hsplit, -, hback, hnil⟩ := above_dotted (fun l' hl' => by
    obtain ⟨l, hl, rfl⟩ := List.mem_map.mp hl'
    exact dot_not_mem_lower (hplain l hl)) ha
  obtain ⟨b, back, rfl⟩ := List.exists_cons_of_ne_nil hback
  have hb : b ∈ n.labels.map lower := by
    rw [hsplit]
    exact List.mem_append_right front List.mem_cons_self
  obtain ⟨l, hl, rfl⟩ := List.mem_map.mp hb
  refine lower_ne_nil (n.sizes l hl).1 ?_
  rw [dotted] at hnil
  split_ifs at hnil
  · exact hnil.symm
  · exact absurd hnil.symm (List.append_ne_nil_of_right_ne_nil _ (List.cons_ne_nil _ _))

theorem stripDot (h : Asked t) : stripDot t = t := by
  rw [Dns.stripDot]
  refine if_neg fun hlast => h.not_above_nil ?_
  exact ⟨t.dropLast, (List.dropLast_append_getLast? dot hlast).symm⟩

theorem lower (h : Asked t) : lower t = t := by
  obtain ⟨n, hn⟩ := h
  obtain ⟨-, rfl⟩ := of_nameText_wireOf n.sizes n.short hn
  exact lower_dotted n.labels

theorem length_le (h : Asked t) : t.length ≤ 256 := by
  obtain ⟨n, hn⟩ := h
  obtain ⟨-, rfl⟩ := of_nameText_wireOf n.sizes n.short hn
  exact (length_dotted_le n.labels).trans (n.short.trans (by decide))

end Asked

/-! ### The static names -/

/-- The name is the zone, or below it. -/
def Within (t zone : Bytes) : Prop := t = zone ∨ Above zone t

theorem inZone_iff : inZone t z = true ↔ Within t z := by
  rw [inZone, Bool.or_eq_true, decide_eq_true_eq, Bool.and_eq_true, Bool.and_eq_true,
    decide_eq_true_eq, decide_eq_true_eq, List.isSuffixOf_iff_suffix]
  refine or_congr Iff.rfl ⟨?_, ?_⟩
  · rintro ⟨⟨hlt, ⟨front, rfl⟩⟩, hdot⟩
    rw [List.length_append] at hlt hdot
    rw [List.getElem?_append_left (by omega)] at hdot
    have hlast : front.getLast? = some dot := by
      rw [List.getLast?_eq_getElem?, ← hdot]
      congr 1
      omega
    exact ⟨front.dropLast, by
      rw [← List.dropLast_append_getLast? dot hlast, List.append_assoc]
      simp⟩
  · rintro ⟨front, rfl⟩
    rw [List.length_append, List.length_cons]
    refine ⟨⟨by omega, ⟨front ++ [dot], by simp⟩⟩, ?_⟩
    rw [List.getElem?_append_right (by omega)]
    rw [show front.length + (z.length + 1) - z.length - 1 - front.length = 0 by omega]
    rfl

/-- Texts behind the dots of one text are the same if they are as long. -/
theorem above_inj {p' : Bytes} (h : Above p t) (h' : Above p' t) (hlen : p.length = p'.length) :
    p = p' := by
  obtain ⟨front, rfl⟩ := h
  obtain ⟨front', heq⟩ := h'
  have hlens := congrArg List.length heq
  rw [List.length_append, List.length_append, List.length_cons, List.length_cons] at hlens
  exact (List.cons.inj (List.append_inj_right heq (by omega))).2

/-- Of two texts above a third, one is the other or above it. -/
theorem above_total {p' : Bytes} (h : Above p t) (h' : Above p' t) :
    p = p' ∨ Above p p' ∨ Above p' p := by
  obtain ⟨front, rfl⟩ := h
  obtain ⟨front', heq⟩ := h'
  rcases List.append_eq_append_iff.mp heq with ⟨mid, -, hrest⟩ | ⟨mid, -, hrest⟩
  · rcases mid with _ | ⟨b, mid⟩
    · exact .inl (List.cons.inj hrest).2
    · exact .inr (.inr ⟨mid, (List.cons.inj hrest).2⟩)
  · rcases mid with _ | ⟨b, mid⟩
    · exact .inl (List.cons.inj hrest).2.symm
    · exact .inr (.inl ⟨mid, (List.cons.inj hrest).2⟩)

namespace CNames

variable (c : CNames)

/-- The table has a target for the name: under its own key, or under a wildcard above it. -/
def Names (t : Bytes) : Prop :=
  (∃ v, (t, v) ∈ c.exact.entries) ∨ ∃ p v, (p, v) ∈ c.wildcard.entries ∧ Above p t

/-- The name has no key of its own, and of the wildcards above it `p` is the longest. -/
def Serves (p t : Bytes) : Prop :=
  (∀ v, (t, v) ∉ c.exact.entries) ∧ Above p t ∧
    ∀ p' v', (p', v') ∈ c.wildcard.entries → Above p' t → p'.length ≤ p.length

/-- The target of a name by the entries: under its own key, or under the wildcard that serves it. -/
def Targets (t v : Bytes) : Prop :=
  (t, v) ∈ c.exact.entries ∨ ∃ p, (p, v) ∈ c.wildcard.entries ∧ c.Serves p t

/-- A zone of the table: an exact name without its first label, or the parent of a wildcard. -/
def IsZone (z : Bytes) : Prop :=
  z ≠ [] ∧ ((∃ k v, dot ∉ k ∧ (k ++ dot :: z, v) ∈ c.exact.entries) ∨
    ∃ v, (z, v) ∈ c.wildcard.entries)

variable {c} {v : Bytes}

/-- The first wildcard that the loop meets is the longest one above the name. -/
theorem parents_eq_some_iff {fuel : ℕ} (hfuel : t.length < fuel) (hnil : ¬ Above [] t) :
    c.parents fuel t = some v ↔ ∃ p, (p, v) ∈ c.wildcard.entries ∧ Above p t ∧
      ∀ p' v', (p', v') ∈ c.wildcard.entries → Above p' t → p'.length ≤ p.length := by
  induction fuel generalizing t with
  | zero => omega
  | succ fuel ih =>
    rw [parents]
    rcases splitOnce_cases t with ⟨hnone, hdot⟩ | ⟨k, rest, rfl, hk, hsome⟩
    · rw [hnone]
      refine ⟨fun h => (by cases h), ?_⟩
      rintro ⟨p, -, ha, -⟩
      exact absurd ha (not_above hdot)
    · rw [hsome]
      dsimp only
      have hrest : rest ≠ [] := by
        rintro rfl
        exact hnil ⟨k, rfl⟩
      rw [if_neg hrest]
      rw [List.length_append, List.length_cons] at hfuel
      rcases hget : c.wildcard.get? rest with _ | w
      · dsimp only
        have hnot : ∀ w, (rest, w) ∉ c.wildcard.entries := fun w hw => by
          rw [← SortedMap.get?_eq_some_iff, hget] at hw
          cases hw
        rw [ih (by omega) fun ha => hnil ((above_iff hk).mpr (.inr ha))]
        -- the wildcards above the name are those above the rest
        have habove : ∀ p w, (p, w) ∈ c.wildcard.entries →
            (Above p (k ++ dot :: rest) ↔ Above p rest) := fun p w hw => by
          rw [above_iff hk, or_iff_right]
          rintro rfl
          exact hnot w hw
        constructor
        · rintro ⟨p, hp, ha, hmax⟩
          exact ⟨p, hp, (habove p v hp).mpr ha, fun p' v' hp' ha' =>
            hmax p' v' hp' ((habove p' v' hp').mp ha')⟩
        · rintro ⟨p, hp, ha, hmax⟩
          exact ⟨p, hp, (habove p v hp).mp ha, fun p' v' hp' ha' =>
            hmax p' v' hp' ((habove p' v' hp').mpr ha')⟩
      · dsimp only
        have hw := SortedMap.get?_eq_some_iff.mp hget
        have hmax : ∀ p', Above p' (k ++ dot :: rest) → p'.length ≤ rest.length := by
          intro p' ha
          rcases (above_iff hk).mp ha with rfl | ha
          · exact le_rfl
          · exact ha.length_lt.le
        constructor
        · rintro ⟨⟩
          exact ⟨rest, hw, ⟨k, rfl⟩, fun p' v' _ => hmax p'⟩
        · rintro ⟨p, hp, ha, hlong⟩
          have hlen := le_antisymm (hmax p ha) (hlong rest w hw ⟨k, rfl⟩)
          obtain rfl := above_inj ha ⟨k, rfl⟩ hlen
          exact hget.symm.trans (SortedMap.get?_eq_some_iff.mpr hp)

theorem Targets.names (h : c.Targets t v) : c.Names t := by
  rcases h with hv | ⟨p, hp, -, ha, -⟩
  · exact .inl ⟨v, hv⟩
  · exact .inr ⟨p, v, hp, ha⟩

theorem lookup_eq_some_iff (h : Asked t) : c.lookup t = some v ↔ c.Targets t v := by
  have hlen : ¬ 256 < t.length := Nat.not_lt.mpr h.length_le
  simp only [lookup, h.stripDot, if_neg hlen, h.lower]
  rcases hget : c.exact.get? t with _ | w
  · dsimp only
    have hnot : ∀ w, (t, w) ∉ c.exact.entries := fun w hw => by
      rw [← SortedMap.get?_eq_some_iff, hget] at hw
      cases hw
    rw [Targets, parents_eq_some_iff (Nat.lt_succ_self _) h.not_above_nil, or_iff_right (hnot v)]
    exact exists_congr fun p => and_congr_right fun _ => (and_iff_right hnot).symm
  · dsimp only
    have hw := SortedMap.get?_eq_some_iff.mp hget
    rw [Targets, ← SortedMap.get?_eq_some_iff, hget]
    refine (or_iff_left ?_).symm
    rintro ⟨p, -, hno, -⟩
    exact hno w hw

/-- Of the wildcards above a name one is the longest. -/
theorem exists_serves (hno : ∀ v, (t, v) ∉ c.exact.entries) (hp : (p, v) ∈ c.wildcard.entries)
    (ha : Above p t) : ∃ p v, (p, v) ∈ c.wildcard.entries ∧ c.Serves p t := by
  classical
  obtain ⟨e, he, hmax⟩ := (c.wildcard.entries.toFinset.filter fun e => Above e.1 t).exists_max_image
    (fun e => e.1.length) ⟨(p, v), by simp [hp, ha]⟩
  rw [Finset.mem_filter, List.mem_toFinset] at he
  refine ⟨e.1, e.2, he.1, hno, he.2, fun p' v' hp' ha' => hmax (p', v') ?_⟩
  rw [Finset.mem_filter, List.mem_toFinset]
  exact ⟨hp', ha'⟩

theorem lookup_eq_none_iff (h : Asked t) : c.lookup t = none ↔ ¬ c.Names t := by
  rw [Option.eq_none_iff_forall_ne_some]
  constructor
  · rintro hnone (⟨v, hv⟩ | ⟨p, v, hp, ha⟩)
    · exact hnone v ((lookup_eq_some_iff h).mpr (.inl hv))
    · by_cases hno : ∀ v, (t, v) ∉ c.exact.entries
      · obtain ⟨p, v, hp, hserves⟩ := exists_serves hno hp ha
        exact hnone v ((lookup_eq_some_iff h).mpr (.inr ⟨p, hp, hserves⟩))
      · obtain ⟨v, hv⟩ := not_forall_not.mp hno
        exact hnone v ((lookup_eq_some_iff h).mpr (.inl hv))
  · exact fun hnot v hv => hnot ((lookup_eq_some_iff h).mp hv).names

/-! ### The zones of the table -/

theorem longest_spec (zs : List Bytes) :
    (longest zs = none ↔ zs = []) ∧ ∀ z, longest zs = some z → z ∈ zs ∧ ∀ z' ∈ zs, z'.length ≤ z.length := by
  induction zs with
  | nil => exact ⟨⟨fun _ => rfl, fun _ => rfl⟩, fun z hz => (by cases hz)⟩
  | cons w zs ih =>
    obtain ⟨hnone, hsome⟩ := ih
    rw [longest]
    rcases hz : longest zs with _ | z'
    · dsimp only
      obtain rfl := hnone.mp hz
      refine ⟨⟨fun h => (by cases h), fun h => (by cases h)⟩, ?_⟩
      rintro _ ⟨⟩
      exact ⟨List.mem_cons_self, fun z' hz' => (List.mem_singleton.mp hz' ▸ le_rfl)⟩
    · dsimp only
      obtain ⟨hmem, hmax⟩ := hsome z' hz
      split_ifs with hle
      · refine ⟨⟨fun h => (by cases h), fun h => (by cases h)⟩, ?_⟩
        rintro _ ⟨⟩
        exact ⟨List.mem_cons_of_mem w hmem, List.forall_mem_cons.mpr ⟨hle, hmax⟩⟩
      · refine ⟨⟨fun h => (by cases h), fun h => (by cases h)⟩, ?_⟩
        rintro _ ⟨⟩
        exact ⟨List.mem_cons_self, List.forall_mem_cons.mpr
          ⟨le_rfl, fun z hz => (hmax z hz).trans (Nat.le_of_not_le hle)⟩⟩

theorem mem_zones_iff : z ≠ [] ∧ z ∈ c.zones ↔ c.IsZone z := by
  rw [IsZone, zones, List.mem_append, List.mem_filterMap, List.mem_map]
  refine and_congr_right fun _ => or_congr ?_ ?_
  · constructor
    · rintro ⟨⟨key, v⟩, hmem, hz⟩
      rcases splitOnce_cases key with ⟨hnone, -⟩ | ⟨k, rest, rfl, hk, hsome⟩
      · rw [hnone] at hz
        cases hz
      · rw [hsome] at hz
        cases hz
        exact ⟨k, v, hk, hmem⟩
    · rintro ⟨k, v, hk, hmem⟩
      exact ⟨_, hmem, by rw [splitOnce_append hk]; rfl⟩
  · constructor
    · rintro ⟨⟨_, v⟩, hmem, rfl⟩
      exact ⟨v, hmem⟩
    · rintro ⟨v, hmem⟩
      exact ⟨(z, v), hmem, rfl⟩

/-- The zone of a name is the longest one that it is in. -/
theorem zoneOf_eq_some_iff : c.zoneOf t = some z ↔ c.IsZone z ∧ Within t z ∧
    ∀ z', c.IsZone z' → Within t z' → z'.length ≤ z.length := by
  have hmem : ∀ z, z ∈ c.zones.filter (fun z => !z.isEmpty && inZone t z) ↔
      c.IsZone z ∧ Within t z := by
    intro z
    rw [List.mem_filter, Bool.and_eq_true, inZone_iff, ← mem_zones_iff, Bool.not_eq_true',
      List.isEmpty_eq_false_iff]
    tauto
  obtain ⟨hnone, hsome⟩ := longest_spec (c.zones.filter fun z => !z.isEmpty && inZone t z)
  rw [zoneOf]
  constructor
  · intro h
    obtain ⟨hz, hmax⟩ := hsome z h
    obtain ⟨hzone, hin⟩ := (hmem z).mp hz
    exact ⟨hzone, hin, fun z' hz' hin' => hmax z' ((hmem z').mpr ⟨hz', hin'⟩)⟩
  · rintro ⟨hz, hin, hmax⟩
    rcases hfound : longest (c.zones.filter fun z => !z.isEmpty && inZone t z) with _ | w
    · have hz := (hmem z).mpr ⟨hz, hin⟩
      rw [hnone.mp hfound] at hz
      exact absurd hz List.not_mem_nil
    · obtain ⟨hw, hlong⟩ := hsome w hfound
      obtain ⟨hw, hwin⟩ := (hmem w).mp hw
      have hlen := le_antisymm (hmax w hw hwin) (hlong z ((hmem z).mpr ⟨hz, hin⟩))
      rcases hin with rfl | hin
      · rcases hwin with rfl | hwin
        · rfl
        · exact absurd hlen hwin.length_lt.ne
      · rcases hwin with rfl | hwin
        · exact absurd hlen hin.length_lt.ne'
        · rw [above_inj hwin hin hlen]

end CNames
/-! ### The cache -/

namespace Cache

variable (cache : Cache) {cl k : Bytes} {ips : List Ipv4}

/-- The cache has the job in the cluster, with these addresses. -/
def Lists (cl k : Bytes) (ips : List Ipv4) : Prop :=
  ∃ jobs, (cl, jobs) ∈ cache.clusters.entries ∧ (k, ips) ∈ jobs.entries

theorem getCluster_eq_some_iff : cache.getCluster cl k = some ips ↔ cache.Lists cl k ips := by
  rw [getCluster, Option.bind_eq_some_iff]
  exact exists_congr fun jobs =>
    and_congr SortedMap.get?_eq_some_iff SortedMap.get?_eq_some_iff

theorem mem_merged_iff : ips ∈ cache.merged k ↔ ∃ cl, cache.Lists cl k ips := by
  rw [merged, List.mem_filterMap]
  constructor
  · rintro ⟨⟨cl, jobs⟩, hmem, hget⟩
    exact ⟨cl, jobs, hmem, SortedMap.get?_eq_some_iff.mp hget⟩
  · rintro ⟨cl, jobs, hmem, hjob⟩
    exact ⟨(cl, jobs), hmem, SortedMap.get?_eq_some_iff.mpr hjob⟩

theorem hasJob_iff : cache.hasJob k = true ↔ ∃ cl ips, cache.Lists cl k ips := by
  rw [hasJob, Bool.not_eq_true', List.isEmpty_eq_false_iff]
  constructor
  · intro hne
    obtain ⟨ips, hmem⟩ := List.exists_mem_of_ne_nil _ hne
    obtain ⟨cl, hlists⟩ := cache.mem_merged_iff.mp hmem
    exact ⟨cl, ips, hlists⟩
  · rintro ⟨cl, ips, hlists⟩
    exact List.ne_nil_of_mem (cache.mem_merged_iff.mpr ⟨cl, hlists⟩)

theorem hasCluster_iff : cache.hasCluster k = true ↔ ∃ jobs, (k, jobs) ∈ cache.clusters.entries := by
  rw [hasCluster, Option.isSome_iff_exists]
  exact exists_congr fun jobs => SortedMap.get?_eq_some_iff

end Cache

/-! ### The names of the domain -/

namespace Server

variable (s : Server) (cache : Cache)

/-- What the tables know of the names. -/
inductive Knows (t : Bytes) : Prop
  | named (h : s.cnames.Names t)
  | apex (h : t = s.domain)
  | cluster (k : Bytes) (jobs : Jobs) (hk : dot ∉ k) (h : t = k ++ dot :: s.domain)
      (hlists : (k, jobs) ∈ cache.clusters.entries)
  | job (k cl : Bytes) (ips : List Ipv4) (hk : dot ∉ k) (h : t = k ++ dot :: s.domain)
      (hlists : cache.Lists cl k ips)
  | service (k cl : Bytes) (ips : List Ipv4) (hk : dot ∉ k)
      (h : t = k ++ dot :: (cl ++ dot :: s.domain)) (hlists : cache.Lists cl k ips)

/-- The zone whose names the server denies: its domain, or else the longest of the table. -/
def SpeaksFor (t zone : Bytes) : Prop :=
  Within t s.domain ∧ zone = s.domain ∨ ¬ Within t s.domain ∧ s.cnames.IsZone zone ∧
    Within t zone ∧ ∀ z, s.cnames.IsZone z → Within t z → z.length ≤ zone.length

/-- The name is in a zone of the server, of which the SOA record can be written. -/
def Owns (t : Bytes) : Prop :=
  ∃ zone, s.SpeaksFor t zone ∧ ∃ b, Reply.soaRecord zone ttl = .ok b

/-- The name of the domain is one of three kinds. -/
theorem within_domain (h : Within t s.domain) : t = s.domain ∨
    (∃ k, dot ∉ k ∧ t = k ++ dot :: s.domain) ∨
    ∃ k cl, dot ∉ k ∧ t = k ++ dot :: (cl ++ dot :: s.domain) := by
  rcases h with h | ⟨front, rfl⟩
  · exact .inl h
  · rcases splitOnce_cases front with ⟨-, hdot⟩ | ⟨k, cl, rfl, hk, -⟩
    · exact .inr (.inl ⟨front, hdot, rfl⟩)
    · exact .inr (.inr ⟨k, cl, hk, by rw [List.append_assoc, List.cons_append]⟩)

theorem find_apex : s.find cache s.domain = .apex := if_pos (Nat.lt_succ_self _)

/-- A name below the domain is not too short. -/
theorem not_short (front : Bytes) : ¬ (front ++ dot :: s.domain).length < s.domain.length + 1 := by
  rw [List.length_append, List.length_cons]
  omega

/-- What stands in front of the domain. -/
theorem take_front (front : Bytes) : (front ++ dot :: s.domain).take
    ((front ++ dot :: s.domain).length - (s.domain.length + 1)) = front := by
  rw [List.length_append, List.length_cons, Nat.add_sub_cancel, List.take_left]

theorem find_label {k : Bytes} (hk : dot ∉ k) :
    s.find cache (k ++ dot :: s.domain) = .merged k := by
  rw [find, if_neg (s.not_short k)]
  dsimp only
  rw [take_front, splitOnce_eq_none hk]

theorem find_service {k : Bytes} (hk : dot ∉ k) (cl : Bytes) :
    s.find cache (k ++ dot :: (cl ++ dot :: s.domain)) = .cluster (cache.getCluster cl k) := by
  have hfront : k ++ dot :: (cl ++ dot :: s.domain) = k ++ dot :: cl ++ dot :: s.domain := by
    rw [List.append_assoc, List.cons_append]
  rw [hfront, find, if_neg (s.not_short (k ++ dot :: cl))]
  dsimp only
  rw [take_front, splitOnce_append hk]

/-- The kinds are apart, and the parts of a name are its own. -/
theorem label_inj {k k' rest : Bytes} (h : k ++ dot :: rest = k' ++ dot :: rest) : k = k' :=
  List.append_cancel_right h

theorem service_inj {k k' rest rest' : Bytes} (hk : dot ∉ k) (hk' : dot ∉ k')
    (h : k ++ dot :: rest = k' ++ dot :: rest') : k = k' ∧ rest = rest' := by
  have hsplit := splitOnce_append hk rest
  rw [h, splitOnce_append hk'] at hsplit
  cases hsplit
  exact ⟨rfl, rfl⟩

theorem label_ne_service {k k' cl rest : Bytes} (hk : dot ∉ k) :
    k ++ dot :: rest ≠ k' ++ dot :: (cl ++ dot :: rest) := by
  intro h
  have hfront : k' ++ dot :: (cl ++ dot :: rest) = k' ++ dot :: cl ++ dot :: rest := by
    rw [List.append_assoc, List.cons_append]
  rw [hfront] at h
  have hk' := label_inj h
  exact hk (hk' ▸ List.mem_append_right k' List.mem_cons_self)

/-- A name of the domain is known by the lookup if it is by the tables. -/
theorem exists'_iff (h : Within t s.domain) (hno : ¬ s.cnames.Names t) :
    exists' cache (s.find cache t) = true ↔ s.Knows cache t := by
  have hapex : ∀ k, k ++ dot :: s.domain ≠ s.domain := fun k h =>
    absurd (congrArg List.length h) (by rw [List.length_append, List.length_cons]; omega)
  rcases s.within_domain h with rfl | ⟨k, hk, rfl⟩ | ⟨k, cl, hk, rfl⟩
  · rw [find_apex]
    exact ⟨fun _ => .apex rfl, fun _ => rfl⟩
  · rw [find_label s cache hk, exists', Bool.or_eq_true, cache.hasJob_iff, cache.hasCluster_iff]
    constructor
    · rintro (⟨cl, ips, hlists⟩ | ⟨jobs, hlists⟩)
      · exact .job k cl ips hk rfl hlists
      · exact .cluster k jobs hk rfl hlists
    · rintro (hnamed | heq | ⟨k', jobs, -, heq, hlists⟩ | ⟨k', cl, ips, -, heq, hlists⟩ |
        ⟨k', cl, ips, -, heq, -⟩)
      · exact absurd hnamed hno
      · exact absurd heq (hapex k)
      · exact .inr ⟨jobs, label_inj heq ▸ hlists⟩
      · exact .inl ⟨cl, ips, label_inj heq ▸ hlists⟩
      · exact absurd heq (label_ne_service hk)
  · rw [find_service s cache hk, exists', Option.isSome_iff_exists]
    simp only [cache.getCluster_eq_some_iff]
    constructor
    · rintro ⟨ips, hlists⟩
      exact .service k cl ips hk rfl hlists
    · rintro (hnamed | heq | ⟨k', jobs, hk', heq, -⟩ | ⟨k', cl', ips, hk', heq, -⟩ |
        ⟨k', cl', ips, hk', heq, hlists⟩)
      · exact absurd hnamed hno
      · exact absurd (congrArg List.length heq) (by simp; omega)
      · exact absurd heq.symm (label_ne_service hk')
      · exact absurd heq.symm (label_ne_service hk')
      · obtain ⟨rfl, hrest⟩ := service_inj hk hk' heq
        exact ⟨ips, label_inj hrest ▸ hlists⟩

/-- **What is denied**: a name in a zone of the server that the tables do not know. -/
theorem denies_iff (h : Asked t) : s.Denies cache t ↔ s.Owns t ∧ ¬ s.Knows cache t := by
  rw [Denies, CNames.lookup_eq_none_iff h]
  by_cases hin : Within t s.domain
  · rw [if_pos (inZone_iff.mpr hin)]
    constructor
    · rintro ⟨hno, hunknown, hsoa⟩
      refine ⟨⟨s.domain, .inl ⟨hin, rfl⟩, hsoa⟩, fun hknows => ?_⟩
      rw [← s.exists'_iff cache hin hno, hunknown] at hknows
      cases hknows
    · rintro ⟨⟨zone, ⟨-, rfl⟩ | ⟨hout, -⟩, hsoa⟩, hunknown⟩
      · have hno : ¬ s.cnames.Names t := fun hnamed => hunknown (.named hnamed)
        refine ⟨hno, Bool.eq_false_iff.mpr fun hexists => ?_, hsoa⟩
        exact hunknown ((s.exists'_iff cache hin hno).mp hexists)
      · exact absurd hin hout
  · rw [if_neg fun hz => hin (inZone_iff.mp hz)]
    constructor
    · rintro ⟨hno, zone, b, hzone, hb⟩
      refine ⟨⟨zone, .inr ⟨hin, CNames.zoneOf_eq_some_iff.mp hzone⟩, b, hb⟩, ?_⟩
      rintro (hnamed | rfl | ⟨k, -, -, rfl, -⟩ | ⟨k, -, -, -, rfl, -⟩ | ⟨k, cl, -, -, rfl, -⟩)
      · exact hno hnamed
      · exact hin (.inl rfl)
      · exact hin (.inr ⟨k, rfl⟩)
      · exact hin (.inr ⟨k, rfl⟩)
      · exact hin (.inr ⟨k ++ dot :: cl, by rw [List.append_assoc, List.cons_append]⟩)
    · rintro ⟨⟨zone, ⟨hin', -⟩ | ⟨-, hzone⟩, b, hb⟩, hunknown⟩
      · exact absurd hin' hin
      · exact ⟨fun hnamed => hunknown (.named hnamed), zone, b,
          CNames.zoneOf_eq_some_iff.mpr hzone, hb⟩

/-- A target that can be written. -/
def Writable (target : Bytes) : Prop := ∃ w, putName (nameMax + 1) target = .ok w

/-- The entries of the tables that answer a name. -/
inductive Gives (u : Bytes) : Prop
  | target (v : Bytes) (h : s.cnames.Targets u v) (hv : Writable v)
  | job (k cl : Bytes) (ips : List Ipv4) (hno : ¬ s.cnames.Names u) (hk : dot ∉ k)
      (h : u = k ++ dot :: s.domain) (hlists : cache.Lists cl k ips) (hips : ips ≠ [])
  | service (k cl : Bytes) (ips : List Ipv4) (hno : ¬ s.cnames.Names u) (hk : dot ∉ k)
      (h : u = k ++ dot :: (cl ++ dot :: s.domain)) (hlists : cache.Lists cl k ips) (hips : ips ≠ [])

/-- **What is answered**: a name with an entry. -/
theorem answers_iff (h : Asked u) : s.Answers cache u ↔ s.Gives cache u := by
  rw [Answers]
  rcases hlookup : s.cnames.lookup u with _ | v
  · have hno := (CNames.lookup_eq_none_iff h).mp hlookup
    dsimp only
    rw [inZone_iff]
    constructor
    · rintro ⟨hin, hips⟩
      rcases s.within_domain hin with rfl | ⟨k, hk, rfl⟩ | ⟨k, cl, hk, rfl⟩
      · rw [find_apex] at hips
        exact absurd rfl hips
      · rw [find_label s cache hk, Lookup.ips, Ne, List.flatten_eq_nil_iff] at hips
        obtain ⟨ips, hmem, hne⟩ := not_forall₂.mp hips
        obtain ⟨cl, hlists⟩ := cache.mem_merged_iff.mp hmem
        exact .job k cl ips hno hk rfl hlists hne
      · rw [find_service s cache hk, Lookup.ips] at hips
        rcases hget : cache.getCluster cl k with _ | ips
        · rw [hget] at hips
          exact absurd rfl hips
        · rw [hget] at hips
          exact .service k cl ips hno hk rfl (cache.getCluster_eq_some_iff.mp hget) hips
    · rintro (⟨v, hv, -⟩ | ⟨k, cl, ips, -, hk, rfl, hlists, hips⟩ |
        ⟨k, cl, ips, -, hk, rfl, hlists, hips⟩)
      · exact absurd hv.names hno
      · refine ⟨.inr ⟨k, rfl⟩, fun hnil => hips ?_⟩
        rw [find_label s cache hk, Lookup.ips, List.flatten_eq_nil_iff] at hnil
        exact hnil ips (cache.mem_merged_iff.mpr ⟨cl, hlists⟩)
      · refine ⟨.inr ⟨k ++ dot :: cl, by rw [List.append_assoc, List.cons_append]⟩, fun hnil => hips ?_⟩
        rw [find_service s cache hk, Lookup.ips, cache.getCluster_eq_some_iff.mpr hlists] at hnil
        exact hnil
  · dsimp only
    have hentry := (CNames.lookup_eq_some_iff h).mp hlookup
    constructor
    · exact .target v hentry
    · rintro (⟨v', hv', hwrite⟩ | ⟨-, -, -, hno, -⟩ | ⟨-, -, -, hno, -⟩)
      · rw [← CNames.lookup_eq_some_iff h, hlookup] at hv'
        exact Option.some.inj hv' ▸ hwrite
      · exact absurd hentry.names hno
      · exact absurd hentry.names hno

/-- The server owns no name, from this one up, that its tables do not know. -/
def Clear (p : Bytes) : Prop := ∀ t, Within p t → s.Owns t → s.Knows cache t

/-- **The tables have no gap** above an entry that answers. -/
structure NoGap : Prop where
  /-- Above an exact name. -/
  exact : ∀ k p v, dot ∉ k → (k ++ dot :: p, v) ∈ s.cnames.exact.entries → Asked (k ++ dot :: p) →
    Writable v → s.Clear cache p
  /-- From the parent of a wildcard up, if the wildcard answers any name. -/
  wildcard : ∀ p v, (p, v) ∈ s.cnames.wildcard.entries → Writable v →
    (∃ u, Asked u ∧ s.cnames.Serves p u) → s.Clear cache p
  /-- From the name of a cluster up, if a job has an address there. -/
  cluster : ∀ k cl ips, dot ∉ k → cache.Lists cl k ips → ips ≠ [] →
    Asked (k ++ dot :: (cl ++ dot :: s.domain)) →
    ¬ s.cnames.Names (k ++ dot :: (cl ++ dot :: s.domain)) → s.Clear cache (cl ++ dot :: s.domain)
  /-- From the domain up, if a job has an address. -/
  domain : ∀ k cl ips, dot ∉ k → cache.Lists cl k ips → ips ≠ [] → Asked (k ++ dot :: s.domain) →
    ¬ s.cnames.Names (k ++ dot :: s.domain) → s.Clear cache s.domain

/-- Above a name with an entry there is no gap. -/
theorem noGap_iff : s.NoGap cache ↔
    ∀ u, Asked u → s.Gives cache u → ∀ t, Above t u → s.Owns t → s.Knows cache t := by
  constructor
  · rintro hgap u hu (⟨v, hv | ⟨p, hp, hserves⟩, hwrite⟩ |
      ⟨k, cl, ips, hno, hk, rfl, hlists, hips⟩ | ⟨k, cl, ips, hno, hk, rfl, hlists, hips⟩) t ha
    · rcases splitOnce_cases u with ⟨-, hdot⟩ | ⟨k, p, rfl, hk, -⟩
      · exact absurd ha (not_above hdot)
      · exact hgap.exact k p v hk hv hu hwrite t (((above_iff hk).mp ha).imp_left Eq.symm)
    · -- a name between the wildcard and the one asked for is known by the wildcard
      intro howns
      by_cases hbelow : Above p t
      · exact .named (.inr ⟨p, v, hp, hbelow⟩)
      · refine hgap.wildcard p v hp hwrite ⟨u, hu, hserves⟩ t ?_ howns
        rcases above_total hserves.2.1 ha with heq | h | h
        · exact .inl heq
        · exact absurd h hbelow
        · exact .inr h
    · exact hgap.domain k cl ips hk hlists hips hu hno t (((above_iff hk).mp ha).imp_left Eq.symm)
    · exact hgap.cluster k cl ips hk hlists hips hu hno t (((above_iff hk).mp ha).imp_left Eq.symm)
  · intro hall
    refine ⟨fun k p v hk hv hu hwrite t ht => ?_, fun p v hp hwrite ⟨u, hu, hserves⟩ t ht => ?_,
      fun k cl ips hk hlists hips hu hno t ht => ?_, fun k cl ips hk hlists hips hu hno t ht => ?_⟩
    · exact hall _ hu (.target v (.inl hv) hwrite) t ((above_iff hk).mpr (ht.imp_left Eq.symm))
    · refine hall u hu (.target v (.inr ⟨p, hp, hserves⟩) hwrite) t ?_
      rcases ht with rfl | ht
      · exact hserves.2.1
      · exact ht.trans hserves.2.1
    · exact hall _ hu (.service k cl ips hno hk rfl hlists hips) t
        ((above_iff hk).mpr (ht.imp_left Eq.symm))
    · exact hall _ hu (.job k cl ips hno hk rfl hlists hips) t
        ((above_iff hk).mpr (ht.imp_left Eq.symm))

/-- The root belongs to no zone, but to a domain without labels. -/
theorem knows_of_owns_nil (h : s.Owns []) : s.Knows cache [] := by
  obtain ⟨zone, ⟨hin, -⟩ | ⟨-, hzone, hin, -⟩, -⟩ := h
  · rcases hin with h | h
    · exact .apex h
    · exact absurd h (not_above List.not_mem_nil)
  · rcases hin with rfl | h
    · exact absurd rfl hzone.1
    · exact absurd h (not_above List.not_mem_nil)

/-- **When a denial is true**: exactly if the tables have no gap. -/
theorem denies_nothing_below_iff : s.DeniesNothingBelow cache ↔ s.NoGap cache := by
  rw [denies_nothing_below_names, noGap_iff]
  constructor
  · intro hnames u hu hgives t ha howns
    obtain ⟨m, hm⟩ := hu
    obtain ⟨n, hbelow, hn⟩ := m.above hm ha
    by_contra hunknown
    exact hnames n m hbelow t u hn hm ((s.answers_iff cache ⟨m, hm⟩).mpr hgives)
      ((s.denies_iff cache ⟨n, hn⟩).mpr ⟨howns, hunknown⟩)
  · intro hall n m hbelow t u hn hm hans hden
    obtain ⟨howns, hunknown⟩ := (s.denies_iff cache ⟨n, hn⟩).mp hden
    have hgives := (s.answers_iff cache ⟨m, hm⟩).mp hans
    rcases hbelow.above hn hm with rfl | ha
    · exact hunknown (s.knows_of_owns_nil cache howns)
    · exact hunknown (hall u ⟨m, hm⟩ hgives t ha howns)

end Server

/-- A server with one wildcard. -/
def ingress : Server :=
  { Server.new "hop.local" with cnames := .new [("*.apps.hop.local", "ingress.hop.local")] }

/-- The parent of the wildcard, and a name below it. -/
def apps : Name := ⟨[utf8 "apps", utf8 "hop", utf8 "local"], by decide, by decide⟩

def webApps : Name :=
  ⟨[utf8 "web", utf8 "apps", utf8 "hop", utf8 "local"], by decide, by decide⟩

/-- The parent of a wildcard is denied, and each name below it has a target. -/
theorem wildcard_parent_denied : ¬ ingress.DeniesNothingBelow .new := by
  intro h
  have hbelow : webApps.Below apps := ⟨[utf8 "web"], by decide, by decide⟩
  obtain ⟨q, hasks, -⟩ := asks_ask apps RType.a classIn (by decide) (by decide)
  obtain ⟨q', hasks', -⟩ := asks_ask webApps RType.a classIn (by decide)
    (by decide)
  obtain ⟨b, hb, hrcode⟩ : ∃ b, ingress.handle .new (ask apps RType.a classIn) 512 = some b ∧
      rcodeOf b = some Rcode.nxDomain.code :=
    Option.bind_eq_some_iff.mp (by decide)
  obtain ⟨b', hb', hancount⟩ : ∃ b', ingress.handle .new (ask webApps RType.a classIn) 512 = some b' ∧
      ancount b' = some 1 :=
    Option.bind_eq_some_iff.mp (by decide)
  have hzero := h apps webApps hbelow _ q 512 b hasks hb hrcode _ q' 512 b' hasks' hb'
  rw [hancount] at hzero
  cases hzero

end Hop.Dns
