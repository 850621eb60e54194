import Hop.Dns.Denial
import Hop.Dns.Refresh

/-!
# Answers after an incremental refresh

If a name can be asked for and its addresses fit into an answer, a question tells two pictures of
it apart (`told_apart`). So the conditions of `Agrees` are not only enough for the same answers
(`incremental_agrees`): for names that can be asked they are also necessary.
-/

namespace Hop.Dns

open Hop.Types
open Hop.Api (Cluster)

/-! ### A question for a job of a cluster -/

/-- A byte that stands in a name as it is. -/
def PlainLower (b : UInt8) : Prop := plainByte b = true ∧ lowerByte b = b

/-- Labels that stand in a name as they are. -/
theorem nameText_plain {ls : List Bytes} (hsizes : ∀ m ∈ ls, 1 ≤ m.length ∧ m.length ≤ labelMax)
    (hplain : ∀ m ∈ ls, ∀ b ∈ m, PlainLower b) (hlen : (wireOf ls).length ≤ nameMax) :
    nameText (wireOf ls) = some (dotted ls) := by
  have hsame : ∀ m ∈ ls, lower m = m := fun m hm =>
    (List.map_congr_left fun b hb => (hplain m hm b hb).2).trans (List.map_id m)
  have hlower : ls.map lower = ls := (List.map_congr_left hsame).trans (List.map_id ls)
  rw [nameText_wireOf hsizes (fun m hm b hb => (hplain m hm b hb).1) hlen, hlower]

/-- A server for the domain `x`, without static names. -/
def plainServer : Server := ⟨utf8 "x", .empty⟩

theorem parents_empty (fuel : ℕ) (name : Bytes) : CNames.empty.parents fuel name = none := by
  induction fuel generalizing name with
  | zero => rfl
  | succ fuel ih =>
    rw [CNames.parents]
    rcases splitOnce name with _ | ⟨_, rest⟩
    · rfl
    · dsimp only
      split_ifs
      · rfl
      · exact ih rest

theorem lookup_empty (name : Bytes) : CNames.empty.lookup name = none := by
  rw [CNames.lookup]
  split_ifs
  · rfl
  · exact parents_empty _ _

theorem ne_dot_of_plain {b : UInt8} (h : PlainLower b) : b ≠ dot := by
  rintro rfl
  exact absurd h.1 (by decide)

/-- A name of the domain, and where it is looked up. -/
theorem find_plainServer {cache : Cache} {k cl : Bytes} (hk : ∀ b ∈ k, PlainLower b) :
    inZone (k ++ dot :: (cl ++ dot :: utf8 "x")) (utf8 "x") = true ∧
      plainServer.find cache (k ++ dot :: (cl ++ dot :: utf8 "x")) =
        .cluster (cache.getCluster cl k) := by
  have hx : utf8 "x" = [120] := by decide
  have hname : k ++ dot :: (cl ++ dot :: [120]) = (k ++ dot :: cl) ++ [dot, 120] := by simp
  rw [hx, hname]
  constructor
  · rw [inZone]
    have hdot : (k ++ dot :: cl ++ [dot, 120])[(k ++ dot :: cl).length]? = some dot := by
      rw [List.getElem?_append_right (le_refl _), Nat.sub_self]
      rfl
    have hsuffix : [120] <:+ k ++ dot :: cl ++ [dot, 120] := ⟨k ++ dot :: cl ++ [dot], by simp⟩
    have hlen : (k ++ dot :: cl ++ [dot, 120]).length - [(120 : UInt8)].length - 1 =
        (k ++ dot :: cl).length := by
      simp
    rw [hlen, hdot]
    simp only [List.isSuffixOf_iff_suffix.mpr hsuffix]
    simp
    omega
  · have hdomain : plainServer.domain = [120] := hx
    have hfront : (k ++ dot :: cl ++ [dot, 120]).take ((k ++ dot :: cl ++ [dot, 120]).length - 2) =
        k ++ dot :: cl := by
      apply List.take_left'
      simp
      omega
    rw [Server.find, hdomain, if_neg (by simp; omega)]
    dsimp only [List.length_singleton]
    rw [hfront, splitOnce_append fun hdot => ne_dot_of_plain (hk dot hdot) rfl]

/-! ### What the answer shows -/

/-- The record of an address. -/
def record (ip : Ipv4) : Bytes :=
  [0xC0, 12] ++ put16 RType.a ++ put16 classIn ++ put32 ttl ++ put16 ip.bytes.length ++ ip.bytes

theorem length_record (ip : Ipv4) : (record ip).length = 16 := rfl

theorem record_injective {ip ip' : Ipv4} (h : record ip = record ip') : ip = ip' := by
  have hbytes : ip.bytes = ip'.bytes := (List.append_inj h rfl).2
  obtain ⟨a, b, c, d⟩ := ip
  obtain ⟨a', b', c', d'⟩ := ip'
  simp only [Ipv4.bytes, List.cons.injEq, and_true] at hbytes
  obtain ⟨rfl, rfl, rfl, rfl⟩ := hbytes
  rfl

theorem records_injective {ips ips' : List Ipv4} (hlen : ips.length = ips'.length)
    (h : ips.flatMap record = ips'.flatMap record) : ips = ips' := by
  induction ips generalizing ips' with
  | nil => exact (List.length_eq_zero_iff.mp hlen.symm).symm
  | cons ip ips ih =>
    rcases ips' with _ | ⟨ip', ips'⟩
    · cases hlen
    · rw [List.flatMap_cons, List.flatMap_cons] at h
      obtain ⟨hip, hips⟩ := List.append_inj h (by rw [length_record, length_record])
      rw [record_injective hip, ih (Nat.succ.inj hlen) hips]

theorem writeAll_of_room {ips : List Ipv4} {r : Reply} (h : 16 * ips.length ≤ r.room) :
    writeAll ips r = { r with body := r.body ++ ips.flatMap record, an := r.an + ips.length } := by
  induction ips generalizing r with
  | nil => simp [writeAll]
  | cons ip ips ih =>
    rw [List.length_cons] at h
    have hroom : ¬r.room < 12 + ip.bytes.length := by
      have : ip.bytes.length = 4 := rfl
      omega
    rw [writeAll, Reply.answerA, Reply.answer, if_neg hroom]
    dsimp only
    rw [ih]
    · simp only [List.flatMap_cons, record, List.append_assoc, List.length_cons]
      congr 1
      omega
    · have hlen : ip.bytes.length = 4 := rfl
      simp only [Reply.room, Reply.len, Reply.reserve, List.length_append, List.length_cons,
        List.length_nil, length_put16, length_put32, hlen] at h ⊢
      omega

/-- The reply about a name with these addresses. -/
def shown (r : Reply) (entry : Option (List Ipv4)) : Reply :=
  let r' := writeAll (entry.getD []) r
  if r'.an = 0 then
    match (if entry.isSome then r' else r'.setRcode .nxDomain).authoritySoa (utf8 "x") ttl with
    | .ok r => r
    | .error (_ : Error) => r'.setRcode .servFail
  else r'

/-- The most addresses that fit into an answer with any name. -/
def fits : ℕ := 49

theorem soa_plainServer : ∃ b, Reply.soaRecord (utf8 "x") ttl = .ok b := by
  have h : (Reply.soaRecord (utf8 "x") ttl).isOk = true := by decide
  rcases hb : Reply.soaRecord (utf8 "x") ttl with e | b
  · rw [hb] at h
    cases h
  · exact ⟨b, rfl⟩

/-- The reply of a name without addresses has a code and the authority of the zone. -/
theorem shown_nil {r : Reply} (han : r.an = 0) (hrcode : r.rcode = .noError) (hs : r.Sound)
    (hroom : Reply.soaMax ≤ r.room) {entry : Option (List Ipv4)} (hnil : entry.getD [] = []) :
    (shown r entry).rcode = (if entry = none then .nxDomain else .noError) ∧
      (shown r entry).an = 0 ∧ (shown r entry).Sound := by
  obtain ⟨b, hb⟩ := soa_plainServer
  have hempty : ∀ r₀ : Reply, r₀.an = 0 → r₀.Sound → Reply.soaMax ≤ r₀.room →
      ∃ r', r₀.authoritySoa (utf8 "x") ttl = .ok r' ∧ r'.rcode = r₀.rcode ∧ r'.an = 0 ∧
        r'.Sound := by
    intro r₀ han₀ hs₀ hroom₀
    obtain ⟨r', hr'⟩ := Reply.authoritySoa_of_room hb hroom₀
    obtain ⟨hr, han', -, hsound⟩ := Reply.authoritySoa_ok hr'
    exact ⟨r', hr', hr, han'.trans han₀, hsound hs₀⟩
  rw [shown, hnil, writeAll, if_pos han]
  rcases entry with _ | l
  · obtain ⟨r', hr', hr, han', hs'⟩ := hempty (r.setRcode .nxDomain) han (hs.setRcode _) hroom
    rw [Option.isSome_none, if_neg Bool.false_ne_true, hr', if_pos rfl]
    exact ⟨hr, han', hs'⟩
  · obtain ⟨r', hr', hr, han', hs'⟩ := hempty r han hs hroom
    rw [Option.isSome_some, if_pos rfl, hr', if_neg (Option.some_ne_none l)]
    exact ⟨hr.trans hrcode, han', hs'⟩

/-- The reply of a name with addresses has a record for each. -/
theorem shown_cons {r : Reply} (han : r.an = 0) (hroom : Reply.soaMax ≤ r.room)
    {entry : Option (List Ipv4)} (hne : entry.getD [] ≠ []) (hfew : (entry.getD []).length ≤ fits) :
    shown r entry = { r with
      body := r.body ++ (entry.getD []).flatMap record, an := (entry.getD []).length } := by
  have hpos := List.length_pos_iff.mpr hne
  have hwrite : writeAll (entry.getD []) r = { r with
      body := r.body ++ (entry.getD []).flatMap record, an := (entry.getD []).length } := by
    rw [writeAll_of_room, han, Nat.zero_add]
    rw [fits] at hfew
    rw [Reply.soaMax, nameMax] at hroom
    omega
  rw [shown, hwrite]
  dsimp only
  rw [if_neg (by omega)]

/-- Two messages with as many records have the same ones. -/
theorem records_of_finish {r : Reply} {a b : Bytes} {n : ℕ} (hlen : a.length = b.length)
    (h : ({ r with body := r.body ++ a, an := n } : Reply).finish =
      ({ r with body := r.body ++ b, an := n } : Reply).finish) : a = b := by
  have hopt : ({ r with body := r.body ++ a, an := n } : Reply).len =
      ({ r with body := r.body ++ b, an := n } : Reply).len := by
    simp only [Reply.len, List.length_append, hlen]
  simp only [Reply.finish, hopt, List.append_assoc] at h
  have hbody := List.append_cancel_left (List.append_cancel_left (List.append_cancel_left
    (List.append_cancel_left (List.append_cancel_left (List.append_cancel_left
      (List.append_cancel_left h))))))
  exact (List.append_inj hbody hlen).1

/-- **What is shown tells two entries apart.** -/
theorem entry_of_shown {r : Reply} (han : r.an = 0) (hrcode : r.rcode = .noError) (hs : r.Sound)
    (hroom : Reply.soaMax ≤ r.room) {e e' : Option (List Ipv4)}
    (hfew : (e.getD []).length ≤ fits) (hfew' : (e'.getD []).length ≤ fits)
    (h : (shown r e).finish = (shown r e').finish) : e = e' := by
  -- the count of records first: an empty reply and a full one differ in it
  have hcount : ∀ e : Option (List Ipv4), (e.getD []).length ≤ fits →
      (shown r e).an % 65536 = (e.getD []).length := by
    intro e hfew
    rw [fits] at hfew
    by_cases hnil : e.getD [] = []
    · rw [(shown_nil han hrcode hs hroom hnil).2.1, hnil]
      rfl
    · rw [shown_cons han hroom hnil hfew]
      have hlt : (e.getD []).length < 65536 := by omega
      exact Nat.mod_eq_of_lt hlt
  have hlen : (e.getD []).length = (e'.getD []).length := by
    have := congrArg ancount h
    rw [Reply.ancount_finish, Reply.ancount_finish, hcount e hfew, hcount e' hfew'] at this
    exact Option.some.inj this
  by_cases hnil : e.getD [] = []
  · have hnil' : e'.getD [] = [] := by
      rw [hnil] at hlen
      exact List.length_eq_zero_iff.mp hlen.symm
    obtain ⟨hr, -, hsound⟩ := shown_nil han hrcode hs hroom hnil
    obtain ⟨hr', -, hsound'⟩ := shown_nil han hrcode hs hroom hnil'
    have hcode := congrArg rcodeOf h
    rw [Reply.rcodeOf_finish hsound.flags, Reply.rcodeOf_finish hsound'.flags, hr, hr'] at hcode
    rcases e with _ | l
    · rcases e' with _ | l'
      · rfl
      · simp [Rcode.code] at hcode
    · rcases e' with _ | l'
      · simp [Rcode.code] at hcode
      · rw [show l = [] from hnil, show l' = [] from hnil']
  · have hnil' : e'.getD [] ≠ [] := fun hnil' => hnil (by
      rw [hnil'] at hlen
      exact List.length_eq_zero_iff.mp hlen)
    rw [shown_cons han hroom hnil hfew, shown_cons han hroom hnil' hfew', hlen] at h
    have hrecords : ∀ l : List Ipv4, (l.flatMap record).length = 16 * l.length := by
      intro l
      induction l with
      | nil => rfl
      | cons ip l ih =>
        rw [List.flatMap_cons, List.length_append, ih, length_record, List.length_cons]
        omega
    have hips := records_injective hlen
      (records_of_finish (by rw [hrecords, hrecords, hlen]) h)
    rcases e with _ | l
    · exact absurd rfl hnil
    · rcases e' with _ | l'
      · exact absurd rfl hnil'
      · exact congrArg some hips

/-- A job of a cluster that a question can be about: its name is a label, and that of the cluster
is labels with dots between them. -/
def Askable (k cl : Bytes) : Prop :=
  ∃ ls : List Bytes, ls ≠ [] ∧ cl = dotted ls ∧
    (∀ l ∈ k :: (ls ++ [utf8 "x"]), 1 ≤ l.length ∧ l.length ≤ labelMax) ∧
    (∀ l ∈ k :: (ls ++ [utf8 "x"]), ∀ b ∈ l, PlainLower b) ∧
    (wireOf (k :: (ls ++ [utf8 "x"]))).length ≤ nameMax

theorem dotted_append {ls : List Bytes} (h : ls ≠ []) (l : Bytes) :
    dotted (ls ++ [l]) = dotted ls ++ dot :: l := by
  induction ls with
  | nil => exact absurd rfl h
  | cons m ls ih =>
    rw [List.cons_append, dotted, if_neg (by simp), dotted]
    by_cases hls : ls = []
    · subst hls
      rw [if_pos rfl]
      rfl
    · rw [if_neg hls, ih hls]
      simp

/-- **A question tells two pictures of a job apart.** -/
theorem told_apart {cache : Cache} {cl k : Bytes} (hask : Askable k cl) {jobs jobs' : Jobs}
    (hfew : ((jobs.get? k).getD []).length ≤ fits) (hfew' : ((jobs'.get? k).getD []).length ≤ fits)
    (h : ∀ (s : Server) (msg : Bytes) (cap : ℕ), s.handle (cache.update cl jobs) msg cap =
      s.handle (cache.update cl jobs') msg cap) : jobs.get? k = jobs'.get? k := by
  obtain ⟨ls, hls, rfl, hsizes, hplain, hlen⟩ := hask
  let n : Name := ⟨k :: (ls ++ [utf8 "x"]), hsizes, hlen⟩
  obtain ⟨q, ⟨hparse, hqname⟩, htype, hclass, hedns, hquestion⟩ :=
    asks_ask n RType.a classIn (by decide) (by decide)
  have htext : nameText q.qname = some (k ++ dot :: (dotted ls ++ dot :: utf8 "x")) := by
    rw [hqname]
    refine (nameText_plain hsizes hplain hlen).trans ?_
    rw [dotted, if_neg (by simp), dotted_append hls]
  have hk : ∀ b ∈ k, PlainLower b := hplain k List.mem_cons_self
  have hwire : n.wire.length ≤ nameMax := hlen
  -- what the server answers, for any picture
  have hresponse : ∀ (jobs : Jobs) (r : Reply),
      plainServer.respond (cache.update (dotted ls) jobs) q r = shown r (jobs.get? k) := by
    intro jobs r
    obtain ⟨hzone, hfind⟩ := @find_plainServer (cache.update (dotted ls) jobs) k (dotted ls) hk
    have hget : (cache.update (dotted ls) jobs).getCluster (dotted ls) k = jobs.get? k := by
      rw [Cache.getCluster, Cache.update, SortedMap.get?_insert_self]
      rfl
    rw [hget] at hfind
    have hlookup : plainServer.cnames.lookup (k ++ dot :: (dotted ls ++ dot :: utf8 "x")) = none :=
      lookup_empty _
    rw [Server.respond, Server.answer, htext]
    dsimp only
    rw [if_neg (by rw [hclass]; decide), hlookup]
    dsimp only
    rw [if_pos (by exact hzone), Server.service, hfind, htype]
    have hdomain : plainServer.domain = utf8 "x" := rfl
    simp only [true_or, if_true, Server.addresses, Server.exists', hdomain, shown]
    split_ifs
    · rcases (writeAll ((jobs.get? k).getD []) r).authoritySoa (utf8 "x") ttl with e | r'
      · rfl
      · rfl
    · rcases ((writeAll ((jobs.get? k).getD []) r).setRcode .nxDomain).authoritySoa (utf8 "x") ttl
        with e | r'
      · rfl
      · rfl
    · rfl
  obtain ⟨r, hstart, hroom, hhandle⟩ := plainServer.handle_of_edns (cache.update (dotted ls) jobs)
    hparse hedns (by omega)
  obtain ⟨r', hstart', -, hhandle'⟩ := plainServer.handle_of_edns (cache.update (dotted ls) jobs')
    hparse hedns (by omega)
  have hr : r' = r := Except.ok.inj (hstart'.symm.trans hstart)
  obtain ⟨han, hrcode, hsound⟩ := Reply.start_ok hstart (Server.limit_le q)
  have heq := h plainServer (ask n RType.a classIn) ednsMax
  rw [hhandle, hhandle', hresponse, hresponse, hr] at heq
  exact entry_of_shown han hrcode hsound hroom hfew hfew' (Option.some.inj heq)

/-! ### The two refreshes -/

section Agree

variable (c c' : Cluster) (loc : Option Local) (w : Watcher) (cl : Bytes) (cache : Cache)

/-- After the events of the jobs whose tasks differ, in any order and with any turns of the loop
between them, every question is answered as after a full refresh. -/
def AnswersAgree : Prop :=
  ∀ ops, (∀ n, n ∈ announced ops ↔ Changed c c' n) →
    (run c' loc (w, cache.update cl (picture c loc)) ops).1.due = none →
    ∀ (s : Server) (msg : Bytes) (cap : ℕ),
      s.handle (run c' loc (w, cache.update cl (picture c loc)) ops).2 msg cap =
        s.handle (cache.update cl (picture c' loc)) msg cap

/-- Every name that the clusters know something about can be asked for, and has few addresses. -/
structure AllAskable : Prop where
  names : ∀ k, Known c c' loc k → Askable k cl
  before : ∀ k, (running c loc k).length ≤ fits
  after : ∀ k, (running c' loc k).length ≤ fits
  booked : ∀ n, Changed c c' n → (Dns.booked c' loc (lowerText n)).length ≤ fits

end Agree

theorem length_uniq_le (ips : List Ipv4) : (uniq ips).length ≤ ips.length := by
  have hfold : ∀ list : List Ipv4, (ips.foldl pushUnique list).length ≤ list.length + ips.length := by
    induction ips with
    | nil => intro list; rfl
    | cons ip ips ih =>
      intro list
      rw [List.foldl_cons, List.length_cons]
      have := ih (pushUnique list ip)
      have hpush : (pushUnique list ip).length ≤ list.length + 1 := by
        rw [pushUnique]
        split_ifs
        · omega
        · rw [List.length_append, List.length_singleton]
      omega
  have := hfold []
  rwa [List.length_nil, Nat.zero_add] at this

theorem length_entryOf_le (ips : List Ipv4) : ((entryOf ips).getD []).length ≤ ips.length := by
  rw [entryOf]
  split_ifs
  · exact Nat.zero_le _
  · exact length_uniq_le ips

variable {c c' : Cluster} {loc : Option Local} {w : Watcher} {cl : Bytes} {cache : Cache}

/-- **When the incremental refresh answers as the full one.** The conditions are enough for any
clusters; where all names can be asked for, they are also necessary. -/
theorem incremental_agrees (hw : w.cluster = some cl) (h : w.Idle) :
    (Agrees c c' loc → AnswersAgree c c' loc w cl cache) ∧
      (AllAskable c c' loc cl → AnswersAgree c c' loc w cl cache → Agrees c c' loc) := by
  constructor
  · intro hagree ops hops hdue s msg cap
    rw [caches_agree hw h hagree hops hdue]
  · intro hask hall
    refine agrees_of_entries fun ns hns k hknown => ?_
    obtain ⟨w', hrun, -, hidle⟩ := @run_turns c' loc cl cache w hw h (picture c loc) ns
    refine @told_apart cache cl k (hask.names k hknown) _ _ ?_ ?_ fun s msg cap => ?_
    · rcases @get?_foldl_turned_cases c' loc k ns (picture c loc) with heq | heq | ⟨n, hn, heq⟩
      · rw [heq, get?_full]
        exact (length_entryOf_le _).trans (hask.before k)
      · rw [heq, get?_full]
        exact (length_entryOf_le _).trans (hask.after k)
      · rw [heq, Option.getD_some]
        exact (length_uniq_le _).trans (hask.booked n ((hns n).mp hn))
    · rw [get?_full]
      exact (length_entryOf_le _).trans (hask.after k)
    · have hsame := hall (ns.flatMap turn) (by rw [announced_turns]; exact hns)
        (by rw [hrun]; exact hidle.1) s msg cap
      rwa [hrun] at hsame

/-! ### One node -/

/-- A cluster of one node with a job. -/
def tenant (name : String) (tasks : List Task) : Cluster where
  leader :=
    { Lead.Leader.new "n1" ⟨[{ name := name }], 0, List.nodup_singleton _, by
      rw [List.length_singleton]
      decide⟩ with
      agents := [{ id := "n1", endpoint := "http://10.0.0.1:8080" }]
      placed := SortedMap.empty.insert "n1" (SortedMap.empty.insert name 1)
      agentsSorted := List.pairwise_singleton _ _ }
  answer _ := some tasks
  measured _ := (false, false)

/-- The watcher of the peer `prod`. -/
def prod : Watcher := { cluster := some (utf8 "prod") }

theorem listed_tenant (name n id : String) (tasks : List Task) : listed (tenant name tasks) n id =
    if id = "n1" then tasks.filter fun t => t.jobName = n else [] := by
  rw [listed]
  refine if_congr ?_ rfl rfl
  simp [Cluster.agents, tenant, eq_comm]

/-- A task that comes changes its job and no other. -/
theorem changed_tenant {name n : String} {t : Task} (ht : t.jobName = name) :
    Changed (tenant name []) (tenant name [t]) n ↔ n = name := by
  constructor
  · rintro ⟨id, hne⟩
    rw [listed_tenant, listed_tenant] at hne
    by_contra hn
    have hother : [t].filter (fun t => t.jobName = n) = [] := by
      rw [List.filter_cons_of_neg (by simp [ht, Ne.symm hn]), List.filter_nil]
    rw [hother] at hne
    exact hne rfl
  · rintro rfl
    refine ⟨"n1", ?_⟩
    rw [listed_tenant, listed_tenant, if_pos rfl, if_pos rfl,
      List.filter_cons_of_pos (by simpa using ht)]
    exact fun h => (nomatch h)

theorem agrees_web : Agrees (tenant "web" []) (tenant "web" [{ jobName := "web" }]) none := by
  refine ⟨fun n hn _ _ => ?_, .inr fun k hk => ?_⟩
  · rw [(changed_tenant rfl).mp hn]
    decide
  · have hother : jobKey "web" ≠ k := hk "web" ((changed_tenant rfl).mpr rfl) (by decide)
    have hnone : running (tenant "web" [{ jobName := "web" }]) none k = [] := by
      simp [running, Cluster.agents, tenant, hother]
    rw [hnone]
    rfl

theorem incremental_agrees_web : AnswersAgree (tenant "web" []) (tenant "web" [{ jobName := "web" }])
    none prod (utf8 "prod") .new :=
  (incremental_agrees rfl ⟨rfl, rfl, rfl⟩).1 agrees_web

/-- The name `web.prod.x`. -/
def webProd : Name := ⟨[utf8 "web", utf8 "prod", utf8 "x"], by decide, by decide⟩

/-- A capital in the name of a job: the leader does not know the name in small letters. And a job
that stops: it is known and empty, where a full refresh forgets it. -/
theorem incremental_differs :
    ¬AnswersAgree (tenant "Web" []) (tenant "Web" [{ jobName := "Web" }]) none prod (utf8 "prod")
      .new ∧
    ¬AnswersAgree (tenant "web" [{ jobName := "web" }]) (tenant "web" []) none prod (utf8 "prod")
      .new := by
  constructor
  · intro h
    have hchanged : ∀ n, n ∈ announced (turn "Web") ↔
        Changed (tenant "Web" []) (tenant "Web" [{ jobName := "Web" }]) n := fun n =>
      List.mem_singleton.trans (changed_tenant (t := { jobName := "Web" }) rfl).symm
    have := h (turn "Web") hchanged (by decide) plainServer (ask webProd RType.a classIn)
      ednsMax
    exact absurd this (by decide)
  · intro h
    have hchanged : ∀ n, n ∈ announced (turn "web") ↔
        Changed (tenant "web" [{ jobName := "web" }]) (tenant "web" []) n := by
      intro n
      refine (List.mem_singleton.trans (changed_tenant (t := { jobName := "web" }) rfl).symm).trans ?_
      exact ⟨fun ⟨id, hne⟩ => ⟨id, hne.symm⟩, fun ⟨id, hne⟩ => ⟨id, hne.symm⟩⟩
    have := h (turn "web") hchanged (by decide) plainServer (ask webProd RType.a classIn)
      ednsMax
    exact absurd this (by decide)

end Hop.Dns
