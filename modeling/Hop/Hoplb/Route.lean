import Hop.Lib.Bisect
import Hop.Lib.Str

/-!
# The table of routes

`apps/hoplb/src/route.rs`: which route the name of a host has. A table is two sorted lists, the
exact patterns and the wildcards, and both are searched by the key of a route: the pattern without a
star in front. `matchHost_eq` says what a lookup in the table of a list of routes finds, in terms of
the keys; `matchHost_spec` in terms of the patterns. The two differ where a pattern begins with a
star and is no wildcard (`StarFree`). Names are compared as they are written. Allocations succeed.
-/

namespace Hop.Hoplb

open Bisect

variable {routes : List Route}

/-- A backend: a running task at `host:port`. -/
structure Backend where
  address : Text
  healthy : Bool := true
deriving DecidableEq, Repr

/-- A pattern and its backends. -/
structure Route where
  pattern : Text
  backends : List Backend
  /-- The counter of the round robin. -/
  next : ℕ := 0
deriving DecidableEq, Repr

namespace Route

/-- The key in the table: the pattern, without a star in front. -/
def key (r : Route) : Text := (stripPrefix r.pattern ['*']).getD r.pattern

def isWildcard (r : Route) : Bool := "*.".toList.isPrefixOf r.pattern

end Route

/-- `find`: search for a key in a sorted list. -/
def find (list : List Route) (key : Text) : Option Route := findKey Route.key key list

/-- `insert`: put a route in a sorted list; a key that is there gets the backends. -/
def insertRoute (list : List Route) (r : Route) : List Route :=
  match bisect Route.key r.key list with
  | .ok i => list.modify i fun have_ => { have_ with backends := have_.backends ++ r.backends }
  | .error i => list.insertIdx i r

/-- The host without its port; an address in brackets keeps them. -/
def stripPort (host : Text) : Text :=
  if host.head? = some '[' then
    match findChar ']' host with
    | some i => host.take (i + 1)
    | none => host
  else
    match rfindChar ':' host with
    | some i => host.take i
    | none => host

/-! ### Insertion -/

section Insert

variable {list : List Route} {r x : Route} {k : Text}

/-- `insertRoute`, inverted: the key was there, or it comes between the smaller and the larger. -/
theorem insertRoute_cases (hs : SortedBy Route.key list) (r : Route) :
    (∃ as x bs, list = as ++ x :: bs ∧ x.key = r.key ∧
      insertRoute list r = as ++ { x with backends := x.backends ++ r.backends } :: bs) ∨
    ∃ as bs, list = as ++ bs ∧ (∀ a ∈ as, a.key < r.key) ∧ (∀ b ∈ bs, r.key < b.key) ∧
      insertRoute list r = as ++ r :: bs := by
  rw [insertRoute]
  rcases hfound : bisect Route.key r.key list with i | i
  · obtain ⟨as, bs, rfl, rfl, has, hbs⟩ := bisect_error hs hfound
    exact .inr ⟨as, bs, rfl, has, hbs, insertIdx_cut as bs r⟩
  · obtain ⟨as, x, bs, rfl, rfl, hkey⟩ := bisect_ok hfound
    exact .inl ⟨as, x, bs, rfl, hkey, modify_cut as bs x _⟩

theorem sortedBy_insertRoute (hs : SortedBy Route.key list) (r : Route) :
    SortedBy Route.key (insertRoute list r) := by
  rcases insertRoute_cases hs r with ⟨as, x, bs, rfl, -, heq⟩ | ⟨as, bs, rfl, has, hbs, heq⟩
  · rw [heq]
    exact hs.replace rfl
  · rw [heq]
    exact hs.insert has hbs

/-- What holds of the patterns before and of the new one, holds of the patterns after. -/
theorem forall_insertRoute {P : Route → Prop} (hP : ∀ x y : Route, x.pattern = y.pattern → P x → P y)
    (hs : SortedBy Route.key list) (hlist : ∀ x ∈ list, P x) (hr : P r) :
    ∀ x ∈ insertRoute list r, P x := by
  rcases insertRoute_cases hs r with ⟨as, y, bs, rfl, -, heq⟩ | ⟨as, bs, rfl, -, -, heq⟩
  · rw [heq, List.forall_mem_append, List.forall_mem_cons]
    rw [List.forall_mem_append, List.forall_mem_cons] at hlist
    exact ⟨hlist.1, hP y _ rfl hlist.2.1, hlist.2.2⟩
  · rw [heq, List.forall_mem_append, List.forall_mem_cons]
    rw [List.forall_mem_append] at hlist
    exact ⟨hlist.1, hr, hlist.2⟩

/-- An insertion adds its backends under its own key, and changes nothing under another. -/
theorem find_insertRoute (hs : SortedBy Route.key list) (r : Route) (k : Text) :
    (find (insertRoute list r) k).map Route.backends =
      if r.key = k then some (((find list k).map Route.backends).getD [] ++ r.backends)
      else (find list k).map Route.backends := by
  rw [find, find, findKey_eq (sortedBy_insertRoute hs r), findKey_eq hs]
  rcases insertRoute_cases hs r with ⟨as, x, bs, rfl, hkey, heq⟩ | ⟨as, bs, rfl, has, hbs, heq⟩
  · have hnew : Route.key { x with backends := x.backends ++ r.backends } = x.key := rfl
    rw [heq, List.find?_append, List.find?_append, List.find?_cons, List.find?_cons, hnew, ← hkey]
    by_cases hk : x.key = k
    · have hnone : as.find? (fun a => a.key = k) = none :=
        List.find?_eq_none.mpr fun a ha => by simpa [← hk] using hs.notMem_of_cut.1 a ha
      simp [hnone, hk]
    · simp [hk]
  · rw [heq, List.find?_append, List.find?_append, List.find?_cons]
    by_cases hk : r.key = k
    · have hnone : as.find? (fun a => a.key = k) = none :=
        List.find?_eq_none.mpr fun a ha => by simpa [← hk] using (has a ha).ne
      have hnone' : bs.find? (fun b => b.key = k) = none :=
        List.find?_eq_none.mpr fun b hb => by simpa [← hk] using (hbs b hb).ne'
      simp [hnone, hnone', hk]
    · simp [hk]

end Insert

/-! ### The table -/

/-- All routes: both lists are sorted by the key, and the wildcards are apart. -/
structure RouteTable where
  /-- The patterns that are no wildcards. -/
  exactRoutes : List Route := []
  wildcards : List Route := []
  exactSorted : SortedBy Route.key exactRoutes := by exact .nil
  wildcardsSorted : SortedBy Route.key wildcards := by exact .nil
  exact_only : ∀ r ∈ exactRoutes, r.isWildcard = false := by exact nofun
  wildcards_only : ∀ r ∈ wildcards, r.isWildcard = true := by exact nofun

namespace RouteTable

/-- One route of `update`. -/
def add (t : RouteTable) (r : Route) : RouteTable :=
  if h : r.isWildcard = true then
    { t with
      wildcards := insertRoute t.wildcards r
      wildcardsSorted := sortedBy_insertRoute t.wildcardsSorted r
      wildcards_only := forall_insertRoute (fun x y hxy hx => by rwa [Route.isWildcard, ← hxy])
        t.wildcardsSorted t.wildcards_only h }
  else
    { t with
      exactRoutes := insertRoute t.exactRoutes r
      exactSorted := sortedBy_insertRoute t.exactSorted r
      exact_only := forall_insertRoute (fun x y hxy hx => by rwa [Route.isWildcard, ← hxy])
        t.exactSorted t.exact_only (Bool.eq_false_iff.mpr h) }

/-- `update`: the old routes are gone. -/
def update (_ : RouteTable) (routes : List Route) : RouteTable := routes.foldl add {}

def fromRoutes (routes : List Route) : RouteTable := update {} routes

/-- The route of a host: an exact pattern, or the wildcard of what follows its first dot. -/
def matchHost (t : RouteTable) (host : Text) : Option Route :=
  let host := stripPort host
  match find t.exactRoutes host with
  | some r => some r
  | none => (findChar '.' host).bind fun dot => find t.wildcards (host.drop dot)

end RouteTable

/-! ### What a table finds -/

/-- The backends, in order, of the routes that meet `p`, if there are such routes. -/
def merged (routes : List Route) (p : Route → Bool) : Option (List Backend) :=
  if routes.any p then some ((routes.filter p).flatMap Route.backends) else none

theorem merged_concat (routes : List Route) (r : Route) (p : Route → Bool) :
    merged (routes ++ [r]) p =
      if p r then some ((merged routes p).getD [] ++ r.backends) else merged routes p := by
  rw [merged, merged, List.any_append, List.filter_append, List.flatMap_append]
  by_cases hr : p r = true
  · by_cases hrs : routes.any p = true
    · simp [hr, hrs]
    · have hnone : routes.filter p = [] := by
        rw [List.filter_eq_nil_iff]
        intro x hx hp
        exact hrs (List.any_eq_true.mpr ⟨x, hx, hp⟩)
      simp [hr, hrs, hnone]
  · simp [hr]

theorem merged_congr {p q : Route → Bool} (h : ∀ r ∈ routes, p r = q r) :
    merged routes p = merged routes q := by
  have hany : routes.any p = routes.any q := by
    rw [Bool.eq_iff_iff, List.any_eq_true, List.any_eq_true]
    exact exists_congr fun r => and_congr_right fun hr => by rw [h r hr]
  rw [merged, merged, hany, List.filter_congr h]

namespace RouteTable

/-- Both lists of the table hold what was merged under each key. -/
theorem find_fromRoutes (routes : List Route) (k : Text) :
    (find (fromRoutes routes).exactRoutes k).map Route.backends =
        merged routes (fun r => !r.isWildcard && decide (r.key = k)) ∧
      (find (fromRoutes routes).wildcards k).map Route.backends =
        merged routes (fun r => r.isWildcard && decide (r.key = k)) := by
  induction routes using List.reverseRecOn with
  | nil =>
    have hnone : find [] k = none := findKey_eq .nil k
    constructor
    · exact congrArg (Option.map Route.backends) hnone
    · exact congrArg (Option.map Route.backends) hnone
  | append_singleton routes r ih =>
    have hsnoc : fromRoutes (routes ++ [r]) = (fromRoutes routes).add r := List.foldl_concat ..
    rw [hsnoc, add, merged_concat, merged_concat]
    obtain ⟨hexact, hwild⟩ := ih
    by_cases hr : r.isWildcard = true
    · rw [dif_pos hr, hr]
      dsimp only
      rw [find_insertRoute (fromRoutes routes).wildcardsSorted, hexact, hwild]
      by_cases hk : r.key = k
      · simp [hk]
      · simp [hk]
    · rw [dif_neg hr, Bool.eq_false_iff.mpr hr]
      dsimp only
      rw [find_insertRoute (fromRoutes routes).exactSorted, hexact, hwild]
      by_cases hk : r.key = k
      · simp [hk]
      · simp [hk]

/-- A lookup in terms of the keys. -/
theorem matchHost_eq (routes : List Route) (host : Text) :
    ((fromRoutes routes).matchHost host).map Route.backends =
      (merged routes fun r => !r.isWildcard && decide (r.key = stripPort host)).or
        ((findChar '.' (stripPort host)).bind fun dot =>
          merged routes fun r => r.isWildcard && decide (r.key = (stripPort host).drop dot)) := by
  have hexact := (find_fromRoutes routes (stripPort host)).1
  rw [matchHost]
  rcases hfound : find (fromRoutes routes).exactRoutes (stripPort host) with _ | r
  · rw [hfound] at hexact
    rw [← hexact, Option.map_none, Option.none_or]
    rcases findChar '.' (stripPort host) with _ | dot
    · rfl
    · exact (find_fromRoutes routes ((stripPort host).drop dot)).2
  · rw [hfound] at hexact
    rw [← hexact, Option.map_some, Option.some_or]

end RouteTable

/-! ### What a table stands for -/

/-- The name of a host, without the port that may follow it. -/
inductive WithoutPort : Text → Text → Prop
  | name {name : Text} : name.head? ≠ some '[' → ':' ∉ name → WithoutPort name name
  | port {name port : Text} : name.head? ≠ some '[' → ':' ∉ port →
      WithoutPort (name ++ ':' :: port) name
  /-- An address in brackets: what follows them is not looked at. -/
  | literal {address rest : Text} : ']' ∉ address →
      WithoutPort ('[' :: address ++ ']' :: rest) ('[' :: address ++ [']'])
  | unclosed {address : Text} : ']' ∉ address → WithoutPort ('[' :: address) ('[' :: address)

theorem stripPort_eq {host name : Text} (h : WithoutPort host name) : stripPort host = name := by
  rcases h with ⟨hstart, hname⟩ | @⟨name, port, hstart, hport⟩ | @⟨address, rest, haddress⟩ |
    @⟨address, haddress⟩
  · rw [stripPort, if_neg hstart, rfindChar_eq_none hname]
  · have hstart' : (name ++ ':' :: port).head? ≠ some '[' := by
      rcases name with _ | ⟨c, name⟩
      · exact fun h => absurd (Option.some.inj h) (by decide)
      · exact hstart
    rw [stripPort, if_neg hstart', rfindChar_append hport]
    exact List.take_left
  · have hcut : ']' ∉ '[' :: address := by
      rw [List.mem_cons, not_or]
      exact ⟨by decide, haddress⟩
    have hhost : '[' :: address ++ ']' :: rest = ('[' :: address ++ [']']) ++ rest :=
      (List.append_assoc ('[' :: address) [']'] rest).symm
    rw [stripPort, if_pos (by simp), findChar_append hcut]
    exact (congrArg _ hhost).trans (List.take_left' (by rw [List.length_append]; rfl))
  · have hnone : ']' ∉ '[' :: address := by
      rw [List.mem_cons, not_or]
      exact ⟨by decide, haddress⟩
    rw [stripPort, if_pos (by simp), findChar_eq_none hnone]

/-- The wildcard that a name falls under: `*.` and what follows its first dot. -/
def wildcardOf (name : Text) : Option Text :=
  (findChar '.' name).map fun dot => "*.".toList ++ name.drop (dot + 1)

/-- No pattern that begins with a star, and is no wildcard, is the name or its name after a star. -/
def StarFree (routes : List Route) (name : Text) : Prop :=
  ∀ r ∈ routes, r.isWildcard = false → r.pattern.head? = some '*' →
    r.pattern ≠ name ∧ r.pattern ≠ '*' :: name

namespace RouteTable

theorem isWildcard_iff {r : Route} : r.isWildcard = true ↔ ∃ rest, r.pattern = "*.".toList ++ rest := by
  rw [Route.isWildcard, List.isPrefixOf_iff_prefix]
  exact exists_congr fun rest => eq_comm

theorem key_of_star {r : Route} {rest : Text} (h : r.pattern = '*' :: rest) : r.key = rest := by
  rw [Route.key, h, stripPrefix, if_pos (by simp)]
  rfl

theorem key_of_not_star {r : Route} (h : r.pattern.head? ≠ some '*') : r.key = r.pattern := by
  have hno : ¬ List.isPrefixOf ['*'] r.pattern = true := by
    rcases hp : r.pattern with _ | ⟨c, rest⟩
    · decide
    · rw [hp] at h
      have hc : c ≠ '*' := fun hc => h (by rw [hc]; rfl)
      simp [hc.symm]
  rw [Route.key, stripPrefix, if_neg hno, Option.getD_none]

/-- Among the exact patterns, the key is a name if the pattern is. -/
theorem exact_iff {name : Text} (hfree : StarFree routes name) (hname : ¬ "*.".toList <+: name)
    {r : Route} (hr : r ∈ routes) :
    (!r.isWildcard && decide (r.key = name)) = decide (r.pattern = name) := by
  by_cases hwild : r.isWildcard = true
  · have hne : r.pattern ≠ name := by
      rintro rfl
      obtain ⟨rest, hrest⟩ := isWildcard_iff.mp hwild
      exact hname ⟨rest, hrest.symm⟩
    simp [hwild, hne]
  · rw [Bool.not_eq_true] at hwild
    by_cases hstar : r.pattern.head? = some '*'
    · obtain ⟨hne, hne'⟩ := hfree r hr hwild hstar
      obtain ⟨rest, hrest⟩ : ∃ rest, r.pattern = '*' :: rest := List.head?_eq_some_iff.mp hstar
      have hkey : r.key ≠ name := by
        rw [key_of_star hrest]
        rintro rfl
        exact hne' hrest
      simp [hne, hkey]
    · rw [hwild, key_of_not_star hstar]
      rfl

/-- Among the wildcards, the key is a name from its first dot on if the pattern is its wildcard. -/
theorem wild_iff {after : Text} (r : Route) :
    (r.isWildcard && decide (r.key = '.' :: after)) = decide (r.pattern = "*.".toList ++ after) := by
  rw [Bool.eq_iff_iff, Bool.and_eq_true, decide_eq_true_eq, decide_eq_true_eq]
  constructor
  · rintro ⟨hwild, hkey⟩
    obtain ⟨rest, hrest⟩ := isWildcard_iff.mp hwild
    rw [@key_of_star r ('.' :: rest) hrest] at hkey
    rw [hrest, (List.cons.inj hkey).2]
  · intro hpattern
    exact ⟨isWildcard_iff.mpr ⟨after, hpattern⟩, key_of_star hpattern⟩

/-- No exact pattern has the key of a name that is written as a wildcard. -/
theorem exact_none {after : Text} (hfree : StarFree routes ("*.".toList ++ after)) :
    merged routes (fun r => !r.isWildcard && decide (r.key = "*.".toList ++ after)) = none := by
  rw [merged, if_neg]
  intro hany
  obtain ⟨r, hr, hboth⟩ := List.any_eq_true.mp hany
  obtain ⟨hwild, hkey⟩ : r.isWildcard = false ∧ r.key = "*.".toList ++ after := by simpa using hboth
  by_cases hstar : r.pattern.head? = some '*'
  · obtain ⟨rest, hrest⟩ : ∃ rest, r.pattern = '*' :: rest := List.head?_eq_some_iff.mp hstar
    refine (hfree r hr hwild hstar).2 ?_
    rw [hrest, ← key_of_star hrest, hkey]
  · rw [key_of_not_star hstar] at hkey
    exact hstar (by rw [hkey]; rfl)

/-- What `matchHost` is for: the routes with the name as their pattern, or else with its wildcard. -/
def specified (routes : List Route) (name : Text) : Option (List Backend) :=
  (merged routes fun r => r.pattern = name).or
    ((wildcardOf name).bind fun w => merged routes fun r => r.pattern = w)

theorem matchHost_specified {host name : Text} (hport : WithoutPort host name)
    (hfree : StarFree routes name) :
    ((fromRoutes routes).matchHost host).map Route.backends = specified routes name := by
  rw [matchHost_eq, stripPort_eq hport, specified, wildcardOf]
  by_cases hdot : '.' ∈ name
  · obtain ⟨a, b, rfl, ha⟩ := exists_cut_first hdot
    have htail : (a ++ '.' :: b).drop a.length = '.' :: b := List.drop_left
    have hafter : (a ++ '.' :: b).drop (a.length + 1) = b := by
      rw [← List.drop_drop, htail, List.drop_succ_cons, List.drop_zero]
    have hwild : merged routes (fun r => r.isWildcard && decide (r.key = '.' :: b)) =
        merged routes fun r => r.pattern = "*.".toList ++ b :=
      merged_congr fun r _ => wild_iff r
    rw [findChar_append ha, Option.bind_some, Option.map_some, Option.bind_some, htail, hafter, hwild]
    by_cases hstar : "*.".toList <+: a ++ '.' :: b
    · -- the name is written as a wildcard: its wildcard is the name itself
      obtain rfl : a = ['*'] := by
        obtain ⟨rest, hrest⟩ := hstar
        rcases a with _ | ⟨c, _ | ⟨d, a⟩⟩
        · exact absurd (List.cons.inj hrest).1 (by decide)
        · exact congrArg (fun c => [c]) (List.cons.inj hrest).1.symm
        · have hd := (List.cons.inj (List.cons.inj hrest).2).1
          exact absurd (hd ▸ List.mem_cons_of_mem c List.mem_cons_self) ha
      have hnone := exact_none hfree
      exact (congrArg (Option.or · _) hnone).trans (Option.or_self.symm)
    · rw [merged_congr fun r hr => exact_iff hfree hstar hr]
  · have hplain : ¬ "*.".toList <+: name := fun h => hdot (h.subset (by decide))
    rw [findChar_eq_none hdot, merged_congr fun r hr => exact_iff hfree hplain hr]
    rfl

theorem bind_wildcardOf (routes : List Route) (name : Text) :
    ((wildcardOf name).bind fun w => merged routes fun r => r.pattern = w) =
      merged routes fun r => some r.pattern = wildcardOf name := by
  rcases wildcardOf name with _ | w
  · simp [merged]
  · exact merged_congr fun r _ => by simp

/-- **Host routing is its specification.** A name has the backends, in order, of all the routes with
it as their pattern, or else of all those with its wildcard, or none. Two names, such as two that
differ in their case only, are routed alike if no pattern tells them or their wildcards apart. -/
theorem matchHost_spec {routes : List Route} {host name : Text} (hport : WithoutPort host name)
    (hfree : StarFree routes name) :
    ((fromRoutes routes).matchHost host).map Route.backends = specified routes name ∧
      ∀ host' name', WithoutPort host' name' → StarFree routes name' →
        (∀ r ∈ routes, (r.pattern = name ↔ r.pattern = name') ∧
          (some r.pattern = wildcardOf name ↔ some r.pattern = wildcardOf name')) →
        ((fromRoutes routes).matchHost host').map Route.backends =
          ((fromRoutes routes).matchHost host).map Route.backends := by
  refine ⟨matchHost_specified hport hfree, fun host' name' hport' hfree' halike => ?_⟩
  rw [matchHost_specified hport hfree, matchHost_specified hport' hfree', specified, specified,
    bind_wildcardOf, bind_wildcardOf]
  congr 1
  · exact merged_congr fun r hr => decide_eq_decide.mpr (halike r hr).1.symm
  · exact merged_congr fun r hr => decide_eq_decide.mpr (halike r hr).2.symm

/-- A table of one wildcard, an exact pattern below it, and that pattern again. -/
def shop : List Route :=
  [⟨"*.shop.eu".toList, [{ address := "10.0.0.1:80".toList }], 0⟩,
    ⟨"api.shop.eu".toList, [{ address := "10.0.0.2:80".toList }], 0⟩,
    ⟨"api.shop.eu".toList, [{ address := "10.0.0.3:80".toList }], 0⟩]

theorem matchHost_spec_shop :
    ((fromRoutes shop).matchHost "api.shop.eu:443".toList).map Route.backends =
      some [{ address := "10.0.0.2:80".toList }, { address := "10.0.0.3:80".toList }] := by
  have hport : WithoutPort "api.shop.eu:443".toList "api.shop.eu".toList :=
    @WithoutPort.port "api.shop.eu".toList "443".toList (by decide) (by decide)
  have hfree : StarFree shop "api.shop.eu".toList := by
    intro r hr hwild hstar
    have hnone : ∀ r ∈ shop, r.isWildcard = true ∨ r.pattern.head? ≠ some '*' := by decide
    rcases hnone r hr with h | h
    · exact absurd h (by rw [hwild]; decide)
    · exact absurd hstar h
  exact (matchHost_spec hport hfree).1

/-- Capitals in the name of a host; and a pattern that begins with a star and is no wildcard, which
the name without the star finds. -/
theorem capitals_and_stars :
    (eqIgnoreAsciiCase "api.shop.eu".toList "API.shop.eu".toList = true ∧
      ((fromRoutes shop).matchHost "api.shop.eu".toList).map Route.backends ≠
        ((fromRoutes shop).matchHost "API.shop.eu".toList).map Route.backends) ∧
    (WithoutPort "shop".toList "shop".toList ∧
      ((fromRoutes [⟨"*shop".toList, [], 0⟩]).matchHost "shop".toList).map Route.backends ≠
        specified [⟨"*shop".toList, [], 0⟩] "shop".toList) := by
  refine ⟨⟨by decide, ?_⟩, @WithoutPort.name "shop".toList (by decide) (by decide), ?_⟩
  · rw [matchHost_eq, matchHost_eq]
    decide
  · rw [matchHost_eq]
    decide

end RouteTable

end Hop.Hoplb
