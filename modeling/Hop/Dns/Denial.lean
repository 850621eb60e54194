import Hop.Dns.Names
import Hop.Lib.Fallible

/-!
# What a denial says

A resolver that is told NXDOMAIN for a name takes everything below it for absent too. The server
decides whether a name is known from the name alone: it looks into the table of static names, and
in its domain for a job, a cluster or a job of a cluster. No answer is lost by a denial if no name
above one that is answered is denied (`denies_nothing_below_names`).
-/

namespace Hop.Dns

variable {r : Reply} {q : Query}

/-! ### Questions -/

/-- A question about a name of any type and class, with EDNS. -/
def ask (n : Name) (qtype qclass : ℕ) : Bytes :=
  put16 0 ++ put16 0 ++ put16 1 ++ put16 0 ++ put16 0 ++ put16 1 ++ n.wire ++ put16 qtype ++
    put16 qclass ++ ([0] ++ put16 RType.opt ++ put16 ednsMax ++ [0, 0, 0, 0, 0, 0])

/-- The question is about the name. -/
def Asks (msg : Bytes) (q : Query) (n : Name) : Prop := parseQuery msg = .ok q ∧ q.qname = n.wire

theorem be16_append {b c : Bytes} {i : ℕ} : be16 (b ++ c) (b.length + i) = be16 c i := by
  rw [be16, be16, Nat.add_assoc, List.getElem?_append_right (by omega),
    List.getElem?_append_right (by omega)]
  simp

theorem be16_put16_mod (n : ℕ) (c : Bytes) : be16 (put16 n ++ c) 0 = some (n % 65536) := by
  simp [be16, put16]
  omega

theorem be16_put16 {n : ℕ} (h : n < 65536) (c : Bytes) : be16 (put16 n ++ c) 0 = some n := by
  rw [be16_put16_mod, Nat.mod_eq_of_lt h]

/-- The OPT record that offers `ednsMax`. -/
def optRecord : Bytes := [0] ++ put16 RType.opt ++ put16 ednsMax ++ [0, 0, 0, 0, 0, 0]

theorem findOpt_optRecord (front : Bytes) :
    findOpt (front ++ optRecord) 1 front.length = some ednsMax := by
  have hskip : skipName (front ++ optRecord) front.length = some (front.length + 1) := by
    rw [skipName, List.drop_left]
    rfl
  have htype : be16 (front ++ optRecord) (front.length + 1) = some RType.opt :=
    be16_append (i := 1)
  have hclass : be16 (front ++ optRecord) (front.length + 1 + 2) = some ednsMax :=
    be16_append (i := 3)
  have hrdlen : be16 (front ++ optRecord) (front.length + 1 + 8) = some 0 := be16_append (i := 9)
  simp only [findOpt, hskip, htype, hclass, hrdlen, Option.bind_eq_bind, Option.bind_some, if_true]

theorem asks_ask (n : Name) (qtype qclass : ℕ) (ht : qtype < 65536) (hc : qclass < 65536) :
    ∃ q, Asks (ask n qtype qclass) q n ∧ q.qtype = qtype ∧ q.qclass = qclass ∧
      q.edns = some ednsMax ∧ q.question.length = n.wire.length + 4 := by
  let head : Bytes := [0, 0, 0, 0, 0, 1, 0, 0, 0, 0, 0, 1]
  let tail : Bytes := put16 qtype ++ (put16 qclass ++ optRecord)
  have hmsg : ask n qtype qclass = head ++ (n.wire ++ tail) := by
    simp [ask, head, tail, optRecord, put16]
  have hname : skipPlainName (head ++ (n.wire ++ tail)) headerLen =
      some (headerLen + n.wire.length) := by
    rw [skipPlainName, show (head ++ (n.wire ++ tail)).drop headerLen = n.wire ++ tail from rfl,
      Name.wire, plainLen_wireOf n.sizes]
    exact if_pos n.short
  have htail : ∀ i, be16 (head ++ (n.wire ++ tail)) (headerLen + n.wire.length + i) =
      be16 tail i := by
    intro i
    rw [show headerLen + n.wire.length + i = head.length + (n.wire.length + i) from by
      simp [head, headerLen, Nat.add_assoc], be16_append, be16_append]
  have htype : be16 (head ++ (n.wire ++ tail)) (headerLen + n.wire.length) = some qtype :=
    (htail 0).trans (be16_put16 ht _)
  have hclass : be16 (head ++ (n.wire ++ tail)) (headerLen + n.wire.length + 2) = some qclass :=
    (htail 2).trans (be16_append.trans (be16_put16 hc optRecord))
  have hopt : findOpt (head ++ (n.wire ++ tail)) 1 (headerLen + n.wire.length + 4) =
      some ednsMax := by
    have hfront : head ++ (n.wire ++ tail) =
        head ++ n.wire ++ put16 qtype ++ put16 qclass ++ optRecord := by
      simp [tail]
    have hlen : headerLen + n.wire.length + 4 =
        (head ++ n.wire ++ put16 qtype ++ put16 qclass).length := by
      simp [head, headerLen]
      omega
    rw [hfront, hlen]
    exact findOpt_optRecord _
  have hquestion : ((head ++ (n.wire ++ tail)).drop headerLen).take (n.wire.length + 4) =
      n.wire ++ (put16 qtype ++ put16 qclass) := by
    rw [show (head ++ (n.wire ++ tail)).drop headerLen = n.wire ++ tail from rfl]
    have hsplit : n.wire ++ tail = n.wire ++ (put16 qtype ++ put16 qclass) ++ optRecord := by
      simp [tail]
    rw [hsplit]
    exact List.take_left' (by simp [put16])
  have hqname : ((head ++ (n.wire ++ tail)).drop headerLen).take n.wire.length = n.wire :=
    List.take_left
  refine ⟨{ id := 0, flags := 0, question := n.wire ++ (put16 qtype ++ put16 qclass)
            qname := n.wire, qtype := qtype, qclass := qclass, edns := some ednsMax },
    ⟨?_, rfl⟩, rfl, rfl, rfl, by simp⟩
  have hfields : be16 (head ++ (n.wire ++ tail)) 0 = some 0 ∧
      be16 (head ++ (n.wire ++ tail)) 2 = some 0 ∧ be16 (head ++ (n.wire ++ tail)) 4 = some 1 ∧
      be16 (head ++ (n.wire ++ tail)) 6 = some 0 ∧ be16 (head ++ (n.wire ++ tail)) 8 = some 0 ∧
      be16 (head ++ (n.wire ++ tail)) 10 = some 1 := ⟨rfl, rfl, rfl, rfl, rfl, rfl⟩
  obtain ⟨h0, h2, h4, h6, h8, h10⟩ := hfields
  have hlen : ¬ (head ++ (n.wire ++ tail)).length < headerLen := by
    simp [head, headerLen]
  have hend : headerLen + n.wire.length + 4 - headerLen = n.wire.length + 4 := by omega
  have hname' : headerLen + n.wire.length - headerLen = n.wire.length := by omega
  simp only [hmsg, parseQuery, h0, h2, h4, h6, h8, h10, hlen, hname, htype, hclass, hopt,
    hend, hname', hquestion, hqname, Nat.zero_shiftRight, Nat.zero_and, ne_eq, not_true,
    or_false, if_false, Nat.zero_add]

/-! ### Answers -/

/-- What the answer to a question was: the code in its flags. -/
def rcodeOf (b : Bytes) : Option ℕ := (be16 b 2).map (· % 16)

/-- The number of answer records. -/
def ancount (b : Bytes) : Option ℕ := be16 b 6

namespace Reply

/-- The flags leave room for the code, and the records are in the message. -/
structure Sound (r : Reply) : Prop where
  flags : r.flags % 16 = 0
  answers : 12 * r.an ≤ r.body.length
  len : r.len ≤ r.limit
  limit : r.limit ≤ ednsMax

/-- The message has no more than the number of records that its header can say. -/
theorem Sound.an_lt (h : r.Sound) : r.an < 65536 := by
  have hlen := h.len
  have hlimit := h.limit
  have han := h.answers
  rw [Reply.len] at hlen
  rw [ednsMax] at hlimit
  omega

theorem Sound.setRcode (h : r.Sound) (c : Rcode) : (r.setRcode c).Sound :=
  ⟨h.flags, h.answers, h.len, h.limit⟩

theorem rcodeOf_finish (h : r.flags % 16 = 0) : rcodeOf r.finish = some r.rcode.code := by
  have hcode : r.rcode.code < 16 := by
    rcases r.rcode with _ | _ | _ | _ | _ | _
    all_goals decide
  have hor : (r.flags ||| r.rcode.code) % 16 = r.rcode.code := by
    have := Nat.or_mod_two_pow (a := r.flags) (b := r.rcode.code) (n := 4)
    simp only [show 2 ^ 4 = 16 from rfl, h, Nat.zero_or, Nat.mod_eq_of_lt hcode] at this
    exact this
  have hflags : be16 r.finish 2 = some ((r.flags ||| r.rcode.code) % 65536) := by
    simp only [finish, List.append_assoc]
    exact (be16_append (b := put16 r.id) (i := 0)).trans (be16_put16_mod _ _)
  rw [rcodeOf, hflags, Option.map_some, Nat.mod_mod_of_dvd _ (by decide), hor]

theorem ancount_finish (r : Reply) : ancount r.finish = some (r.an % 65536) := by
  have hfront : r.finish = (put16 r.id ++ put16 (r.flags ||| r.rcode.code) ++ put16 r.qd) ++
      (put16 r.an ++ r.finish.drop 8) := by
    simp [finish, put16]
  rw [ancount, hfront]
  exact (be16_append (i := 0)).trans (be16_put16_mod _ _)

/-- Answer records were added. -/
structure Adds (r r' : Reply) : Prop where
  frame : ∃ body an, r' = { r with body := body, an := an }
  le : r.an ≤ r'.an
  sound : r.Sound → r'.Sound

namespace Adds

variable {r r' r'' : Reply}

theorem refl (r : Reply) : Adds r r := ⟨⟨r.body, r.an, rfl⟩, le_rfl, fun h => h⟩

theorem trans (h : Adds r r') (h' : Adds r' r'') : Adds r r'' := by
  refine ⟨?_, h.le.trans h'.le, fun hs => h'.sound (h.sound hs)⟩
  obtain ⟨body, an, rfl⟩ := h.frame
  obtain ⟨body', an', rfl⟩ := h'.frame
  exact ⟨body', an', rfl⟩

theorem rcode (h : Adds r r') : r'.rcode = r.rcode := by
  obtain ⟨body, an, rfl⟩ := h.frame
  rfl

end Adds

theorem answer_ok {r' : Reply} {rtype t : ℕ} {rdata : Bytes} (h : r.answer rtype t rdata = .ok r') :
    Adds r r' ∧ r'.an = r.an + 1 := by
  rw [answer] at h
  split_ifs at h with hroom
  cases h
  refine ⟨⟨⟨_, _, rfl⟩, Nat.le_succ _, fun hs => ⟨hs.flags, ?_, ?_, hs.limit⟩⟩, rfl⟩
  · have := hs.answers
    simp
    omega
  · have := hs.len
    rw [room, len] at hroom
    simp [len] at hroom this ⊢
    omega

theorem answer_of_room (rtype t : ℕ) (rdata : Bytes) (h : 12 + rdata.length ≤ r.room) :
    ∃ r', r.answer rtype t rdata = .ok r' := by
  rw [answer, if_neg (by omega)]
  exact ⟨_, rfl⟩

theorem length_putName {room : ℕ} {name w : Bytes} (h : putName room name = .ok w) :
    w.length ≤ nameMax := by
  rw [putName] at h
  split at h
  · cases h
  · split_ifs at h with hlen
    cases h
    omega

theorem length_soaRecord {zone b : Bytes} {t : ℕ} (h : soaRecord zone t = .ok b) :
    b.length ≤ soaMax := by
  obtain ⟨owner, -, h⟩ := bind_eq_ok h
  obtain ⟨mname, -, h⟩ := bind_eq_ok h
  obtain ⟨rname, -, h⟩ := bind_eq_ok h
  split_ifs at h with hroom
  cases h
  simp
  omega

/-- The SOA record is all that is added to an empty or negative answer. -/
theorem authoritySoa_ok {r' : Reply} {zone : Bytes} {t : ℕ} (h : r.authoritySoa zone t = .ok r') :
    r'.rcode = r.rcode ∧ r'.an = r.an ∧ (∃ b, soaRecord zone t = .ok b) ∧
      (r.Sound → r'.Sound) := by
  obtain ⟨b, hb, h⟩ := bind_eq_ok h
  split_ifs at h with hroom
  cases h
  refine ⟨rfl, rfl, ⟨b, hb⟩, fun hs => ⟨hs.flags, ?_, ?_, hs.limit⟩⟩
  · have := hs.answers
    simp
    omega
  · have := hs.len
    rw [room, len] at hroom
    simp [len] at hroom this ⊢
    omega

theorem authoritySoa_of_room {zone b : Bytes} {t : ℕ} (hb : soaRecord zone t = .ok b)
    (h : soaMax ≤ r.room) : ∃ r', r.authoritySoa zone t = .ok r' := by
  have hlen := length_soaRecord hb
  rw [authoritySoa, hb]
  exact ⟨_, if_neg (by omega)⟩

theorem start_ok {cap limit : ℕ} (h : start cap q limit = .ok r) (hlimit : limit ≤ ednsMax) :
    r.an = 0 ∧ r.rcode = .noError ∧ r.Sound := by
  obtain ⟨r₀, hbare, h⟩ := bind_eq_ok h
  rw [bare] at hbare
  split_ifs at hbare
  cases hbare
  dsimp only at h
  generalize (if q.edns.isSome = true then optLen else 0) = reserve at h
  split_ifs at h with hroom
  cases h
  refine ⟨rfl, rfl, ⟨?_, Nat.zero_le _, ?_, ?_⟩⟩
  · have hor := Nat.or_mod_two_pow (a := 0x8400) (b := q.flags &&& 0x7910) (n := 4)
    have hand := Nat.and_mod_two_pow (a := q.flags) (b := 0x7910) (n := 4)
    simp only [show 2 ^ 4 = 16 from rfl] at hor hand
    rw [hor, hand]
    simp
  · rw [len]
    dsimp only at hroom ⊢
    omega
  · dsimp only
    omega

/-- With EDNS and a buffer that is large enough there is room for any record. -/
theorem start_of_edns (hedns : q.edns = some ednsMax) (hlen : q.question.length ≤ nameMax + 4) :
    ∃ r, start ednsMax q (Server.limit q) = .ok r ∧
      soaMax ≤ r.room := by
  have hlimit : Server.limit q = ednsMax := by
    rw [Server.limit, hedns]
    rfl
  rw [hlimit, start, bare, if_neg (by decide)]
  rw [nameMax] at hlen
  refine ⟨_, if_neg ?_, ?_⟩
  · simp [hedns, ednsMax, headerLen, optLen]
    omega
  · simp [room, len, reserve, hedns, ednsMax, headerLen, optLen, soaMax, nameMax]
    omega

end Reply

/-! ### What the server says of a name -/

open Reply (Adds)

theorem adds_writeAll (ips : List Ipv4) (r : Reply) : Adds r (writeAll ips r) := by
  induction ips generalizing r with
  | nil => exact .refl r
  | cons ip ips ih =>
    rw [writeAll]
    rcases h : r.answerA ip ttl with e | r'
    · exact .refl r
    · exact (Reply.answer_ok h).1.trans (ih r')

theorem adds_writeOnce (ips seen : List Ipv4) (r : Reply) : Adds r (writeOnce ips seen r) := by
  induction ips generalizing seen r with
  | nil => exact .refl r
  | cons ip ips ih =>
    rw [writeOnce]
    split_ifs
    · exact ih seen r
    · exact .refl r
    · rcases h : r.answerA ip ttl with e | r'
      · exact .refl r
      · exact (Reply.answer_ok h).1.trans (ih _ r')

/-- The addresses of a name. -/
def Lookup.ips (cache : Cache) : Lookup → List Ipv4
  | .apex => []
  | .cluster ips => ips.getD []
  | .merged job => (cache.merged job).flatten

namespace Server

variable (s : Server) (cache : Cache)

theorem adds_addresses (found : Lookup) (r : Reply) : Adds r (addresses cache found r) := by
  rcases found with ips | job | _
  · exact adds_writeAll _ r
  · exact adds_writeOnce _ _ r
  · exact .refl r

theorem addresses_of_none {found : Lookup} (h : found.ips cache = []) (r : Reply) :
    addresses cache found r = r := by
  rcases found with ips | job | _
  · rw [addresses, show ips.getD [] = [] from h]
    rfl
  · rw [addresses, show (cache.merged job).flatten = [] from h]
    rfl
  · rfl

/-- The first address is written if there is room for it. -/
theorem addresses_of_room {found : Lookup} (h : found.ips cache ≠ []) (hroom : 16 ≤ r.room) :
    0 < (addresses cache found r).an := by
  obtain ⟨ip, ips, hips⟩ := List.exists_cons_of_ne_nil h
  obtain ⟨r', hr'⟩ := Reply.answer_of_room RType.a ttl ip.bytes hroom
  have han := (Reply.answer_ok hr').2
  rcases found with ips' | job | _
  · rw [addresses, show ips'.getD [] = ip :: ips from hips, writeAll, Reply.answerA, hr']
    have := (adds_writeAll ips r').le
    dsimp only
    omega
  · rw [addresses, show (cache.merged job).flatten = ip :: ips from hips, writeOnce,
      if_neg (by simp), if_neg (by decide), Reply.answerA, hr']
    have := (adds_writeOnce ips ([] ++ [ip]) r').le
    dsimp only
    omega
  · cases hips

/-- The tables deny the name: it is in a zone of the server and unknown. -/
def Denies (name : Bytes) : Prop :=
  s.cnames.lookup name = none ∧
    if inZone name s.domain = true then
      exists' cache (s.find cache name) = false ∧ ∃ b, Reply.soaRecord s.domain ttl = .ok b
    else ∃ zone b, s.cnames.zoneOf name = some zone ∧ Reply.soaRecord zone ttl = .ok b

/-- The tables have an answer for the name: a target, or addresses. -/
def Answers (name : Bytes) : Prop :=
  match s.cnames.lookup name with
  | some target => ∃ w, putName (nameMax + 1) target = .ok w
  | none => inZone name s.domain = true ∧ (s.find cache name).ips cache ≠ []

/-- The answer that goes out. -/
def respond (q : Query) (r : Reply) : Reply :=
  match s.answer cache q r with
  | .ok r => r
  | .error (r, _) => r.setRcode .servFail

theorem service_spec {t : Bytes} (qtype : ℕ) (han : r.an = 0) (hrcode : r.rcode = .noError)
    (hlookup : s.cnames.lookup t = none) (hzone : inZone t s.domain = true) (r' : Reply)
    (h : r' = match s.service cache t qtype r with | .ok r => r | .error (r, _) => r.setRcode .servFail) :
    (r'.rcode = .nxDomain → s.Denies cache t) ∧ (r'.an ≠ 0 → s.Answers cache t) ∧
      (r.Sound → r'.Sound) := by
  subst h
  rw [service]
  have hadds : Adds r (if qtype = RType.a ∨ qtype = RType.any then
      addresses cache (s.find cache t) r else r) := by
    split_ifs
    · exact adds_addresses cache _ r
    · exact .refl r
  have hnone : (s.find cache t).ips cache = [] → (if qtype = RType.a ∨ qtype = RType.any then
      addresses cache (s.find cache t) r else r) = r := by
    intro h
    split_ifs
    · exact addresses_of_none cache h r
    · rfl
  dsimp only
  generalize (if qtype = RType.a ∨ qtype = RType.any then
      addresses cache (s.find cache t) r else r) = r₁ at hadds hnone ⊢
  by_cases han₁ : r₁.an = 0
  · rw [if_pos han₁]
    -- nothing was written: the name is denied if it is unknown
    have hfound : ∀ c : Bool, exists' cache (s.find cache t) = c →
        (if c = true then r₁ else r₁.setRcode .nxDomain).rcode = .nxDomain → c = false := by
      rintro (_ | _) - h
      · rfl
      · rw [if_pos rfl, hadds.rcode, hrcode] at h
        cases h
    have hsame : ∀ c : Bool, (if c = true then r₁ else r₁.setRcode .nxDomain).an = 0 ∧
        (r.Sound → (if c = true then r₁ else r₁.setRcode .nxDomain).Sound) := by
      rintro (_ | _)
      · exact ⟨han₁, fun h => (hadds.sound h).setRcode _⟩
      · exact ⟨han₁, hadds.sound⟩
    have hfound := hfound _ rfl
    obtain ⟨hzero, hsound⟩ := hsame (exists' cache (s.find cache t))
    generalize (if exists' cache (s.find cache t) = true then r₁ else r₁.setRcode .nxDomain) = r₂
      at hfound hzero hsound ⊢
    rcases hsoa : r₂.authoritySoa s.domain ttl with e | r₃
    · exact ⟨fun h => (nomatch h), fun h => absurd hzero h, fun h => (hsound h).setRcode _⟩
    · obtain ⟨hr, han₃, hb, hsound₃⟩ := Reply.authoritySoa_ok hsoa
      refine ⟨fun h => ⟨hlookup, ?_⟩, fun h => absurd (han₃.trans hzero) h,
        fun h => hsound₃ (hsound h)⟩
      rw [if_pos hzone]
      exact ⟨hfound (hr.symm.trans h), hb⟩
  · rw [if_neg han₁]
    refine ⟨fun h => ?_, fun _ => ?_, hadds.sound⟩
    · dsimp only at h
      rw [hadds.rcode, hrcode] at h
      cases h
    · rw [Answers, hlookup]
      exact ⟨hzone, fun h => han₁ (hnone h ▸ han)⟩

/-- Only what the tables deny is denied, and only what they answer is answered. -/
theorem respond_spec (q : Query) (han : r.an = 0) (hrcode : r.rcode = .noError) :
    ((s.respond cache q r).rcode = .nxDomain → ∃ t, nameText q.qname = some t ∧
        s.Denies cache t) ∧
      ((s.respond cache q r).an ≠ 0 → ∃ t, nameText q.qname = some t ∧ s.Answers cache t) ∧
      (r.Sound → (s.respond cache q r).Sound) := by
  rw [respond, answer]
  rcases hname : nameText q.qname with _ | t
  · exact ⟨fun h => (nomatch h), fun h => absurd han h, fun h => h.setRcode _⟩
  dsimp only
  by_cases hclass : q.qclass ≠ classIn ∧ q.qclass ≠ classAny
  · rw [if_pos hclass]
    exact ⟨fun h => (nomatch h), fun h => absurd han h, fun h => h.setRcode _⟩
  rw [if_neg hclass]
  rcases hlookup : s.cnames.lookup t with _ | target
  · dsimp only
    by_cases hzone : inZone t s.domain = true
    · rw [if_pos hzone]
      obtain ⟨hnx, hans, hsound⟩ := s.service_spec cache q.qtype han hrcode hlookup hzone _ rfl
      exact ⟨fun h => ⟨t, rfl, hnx h⟩, fun h => ⟨t, rfl, hans h⟩, hsound⟩
    · rw [if_neg hzone]
      rcases hof : s.cnames.zoneOf t with _ | zone
      · exact ⟨fun h => (nomatch h), fun h => absurd han h, fun h => h.setRcode _⟩
      · dsimp only
        rcases hsoa : (r.setRcode .nxDomain).authoritySoa zone ttl with e | r'
        · exact ⟨fun h => (nomatch h), fun h => absurd han h, fun h => (h.setRcode _).setRcode _⟩
        · obtain ⟨-, han', hb, hsound⟩ := Reply.authoritySoa_ok hsoa
          refine ⟨fun _ => ⟨t, rfl, hlookup, ?_⟩, fun h => absurd (han'.trans han) h,
            fun h => hsound (h.setRcode _)⟩
          rw [if_neg hzone]
          obtain ⟨b, hb⟩ := hb
          exact ⟨zone, b, hof, hb⟩
  · dsimp only
    rcases hcname : r.answerCname target ttl with e | r'
    · exact ⟨fun h => (nomatch h), fun h => absurd han h, fun h => h.setRcode _⟩
    · obtain ⟨w, hw, hcname⟩ := bind_eq_ok hcname
      obtain ⟨hadds, -⟩ := Reply.answer_ok hcname
      refine ⟨fun h => ?_, fun _ => ⟨t, rfl, ?_⟩, hadds.sound⟩
      · rw [hadds.rcode, hrcode] at h
        cases h
      · rw [Answers, hlookup]
        exact ⟨w, hw⟩

/-- What the tables deny is denied, if a question can be answered at all. -/
theorem respond_denies {t : Bytes} (hname : nameText q.qname = some t) (hclass : q.qclass = classIn)
    (htype : q.qtype = RType.soa) (h : s.Denies cache t) (han : r.an = 0)
    (hroom : Reply.soaMax ≤ r.room) :
    (s.respond cache q r).rcode = .nxDomain := by
  obtain ⟨hlookup, h⟩ := h
  rw [respond, answer, hname]
  dsimp only
  rw [if_neg fun h => h.1 hclass, hlookup]
  dsimp only
  by_cases hzone : inZone t s.domain = true
  · rw [if_pos hzone] at h ⊢
    obtain ⟨hunknown, b, hb⟩ := h
    obtain ⟨r', hsoa⟩ := Reply.authoritySoa_of_room (r := r.setRcode .nxDomain) hb hroom
    have hr := (Reply.authoritySoa_ok hsoa).1
    have htype' : ¬ (q.qtype = RType.a ∨ q.qtype = RType.any) := by
      rw [htype]
      decide
    simp only [service, if_neg htype', hunknown, if_pos han, Bool.false_eq_true, if_false, hsoa]
    exact hr
  · rw [if_neg hzone] at h ⊢
    obtain ⟨zone, b, hof, hb⟩ := h
    obtain ⟨r', hsoa⟩ := Reply.authoritySoa_of_room (r := r.setRcode .nxDomain) hb hroom
    have hr := (Reply.authoritySoa_ok hsoa).1
    simp only [hof, hsoa]
    exact hr

/-- What the tables answer is answered. -/
theorem respond_answers {t : Bytes} (hname : nameText q.qname = some t)
    (hclass : q.qclass = classIn) (htype : q.qtype = RType.a) (h : s.Answers cache t)
    (hroom : Reply.soaMax ≤ r.room) : 0 < (s.respond cache q r).an := by
  have hroom' : 12 + nameMax ≤ r.room := le_trans (by decide) hroom
  rw [respond, answer, hname]
  dsimp only
  rw [if_neg fun h => h.1 hclass]
  rw [Answers] at h
  rcases hlookup : s.cnames.lookup t with _ | target
  · rw [hlookup] at h
    dsimp only
    rw [if_pos h.1, service]
    have hpos := addresses_of_room cache h.2 (r := r) (le_trans (by decide) hroom)
    simp only [htype, RType.a, true_or, if_true]
    rw [if_neg (by omega)]
    exact hpos
  · rw [hlookup] at h
    obtain ⟨w, hw⟩ := h
    obtain ⟨r', hr'⟩ := Reply.answer_of_room (r := r) RType.cname ttl w
      ((Nat.add_le_add_left (Reply.length_putName hw) 12).trans hroom')
    have hcname : r.answerCname target ttl = .ok r' := by
      rw [Reply.answerCname, hw]
      exact hr'
    have han := (Reply.answer_ok hr').2
    simp only [hcname]
    omega

/-- A datagram that asks for a name, and what comes back. -/
theorem handle_ask {msg : Bytes} (h : parseQuery msg = .ok q) (cap : ℕ) {b : Bytes}
    (hb : s.handle cache msg cap = some b) :
    ∃ r, Reply.start cap q (limit q) = .ok r ∧ b = (s.respond cache q r).finish := by
  rw [handle, h] at hb
  dsimp only at hb
  rcases hstart : Reply.start cap q (limit q) with e | r
  · rw [hstart] at hb
    cases hb
  · refine ⟨r, rfl, ?_⟩
    rw [hstart] at hb
    dsimp only at hb
    rw [respond]
    rcases hans : s.answer cache q r with ⟨r', e⟩ | r'
    · rw [hans] at hb
      exact (Option.some.inj hb).symm
    · rw [hans] at hb
      exact (Option.some.inj hb).symm

theorem limit_le (q : Query) : limit q ≤ ednsMax := by
  rw [limit]
  rcases q.edns with _ | size
  · decide
  · dsimp only
    rw [udpMax, ednsMax]
    omega

/-- With EDNS and a buffer that is large enough there is an answer to any question. -/
theorem handle_of_edns {msg : Bytes} (h : parseQuery msg = .ok q) (hedns : q.edns = some ednsMax)
    (hlen : q.question.length ≤ nameMax + 4) :
    ∃ r, Reply.start ednsMax q (limit q) = .ok r ∧ Reply.soaMax ≤ r.room ∧
      s.handle cache msg ednsMax = some (s.respond cache q r).finish := by
  obtain ⟨r, hstart, hroom⟩ := Reply.start_of_edns hedns hlen
  refine ⟨r, hstart, hroom, ?_⟩
  rw [handle, h]
  simp only [hstart]
  rw [respond]
  rcases s.answer cache q r with ⟨r', e⟩ | r'
  · rfl
  · rfl

/-- A name that is denied has nothing below it: no question for a name below it, of any type, gets
an answer record. -/
def DeniesNothingBelow : Prop :=
  ∀ (n m : Name), m.Below n → ∀ (msg : Bytes) (q : Query) (cap : ℕ) (b : Bytes), Asks msg q n →
    s.handle cache msg cap = some b → rcodeOf b = some Rcode.nxDomain.code →
    ∀ (msg' : Bytes) (q' : Query) (cap' : ℕ) (b' : Bytes), Asks msg' q' m →
      s.handle cache msg' cap' = some b' → ancount b' = some 0

/-- A denial is true if and only if no name above one that is answered is denied. -/
theorem denies_nothing_below_names : s.DeniesNothingBelow cache ↔
    ∀ (n m : Name), m.Below n → ∀ t u, nameText n.wire = some t → nameText m.wire = some u →
      s.Answers cache u → ¬ s.Denies cache t := by
  constructor
  · intro hnone n m hbelow t u hn hm hans hden
    obtain ⟨q, hasks, htype, hclass, hedns, hlen⟩ := asks_ask n RType.soa
      classIn (by decide) (by decide)
    obtain ⟨q', hasks', htype', hclass', hedns', hlen'⟩ := asks_ask m RType.a
      classIn (by decide) (by decide)
    have hshort := n.short
    have hshort' := m.short
    obtain ⟨r, hstart, hroom, hhandle⟩ := s.handle_of_edns cache hasks.1 hedns
      (by rw [hlen, Name.wire]; omega)
    obtain ⟨r', hstart', hroom', hhandle'⟩ := s.handle_of_edns cache hasks'.1 hedns'
      (by rw [hlen', Name.wire]; omega)
    obtain ⟨han, hrcode, hsound⟩ := Reply.start_ok hstart (limit_le q)
    obtain ⟨han', hrcode', hsound'⟩ := Reply.start_ok hstart' (limit_le q')
    have hnx := s.respond_denies cache (hasks.2 ▸ hn) hclass htype hden han hroom
    have hpos := s.respond_answers cache (hasks'.2 ▸ hm) hclass' htype' hans hroom'
    have hflags := ((s.respond_spec cache q han hrcode).2.2 hsound).flags
    have hlt := ((s.respond_spec cache q' han' hrcode').2.2 hsound').an_lt
    have hzero := hnone n m hbelow _ q _ _ hasks hhandle
      (by rw [Reply.rcodeOf_finish hflags, hnx]) _ q' _ _ hasks' hhandle'
    rw [Reply.ancount_finish, Nat.mod_eq_of_lt hlt] at hzero
    have := Option.some.inj hzero
    omega
  · intro hcond n m hbelow msg q cap b hasks hb hnx msg' q' cap' b' hasks' hb'
    obtain ⟨r, hstart, rfl⟩ := s.handle_ask cache hasks.1 cap hb
    obtain ⟨r', hstart', rfl⟩ := s.handle_ask cache hasks'.1 cap' hb'
    obtain ⟨han, hrcode, hsound⟩ := Reply.start_ok hstart (limit_le q)
    obtain ⟨han', hrcode', -⟩ := Reply.start_ok hstart' (limit_le q')
    obtain ⟨hdenied, -, hsound₁⟩ := s.respond_spec cache q han hrcode
    obtain ⟨-, hanswered, -⟩ := s.respond_spec cache q' han' hrcode'
    rw [Reply.rcodeOf_finish (hsound₁ hsound).flags] at hnx
    have hrcode₁ : (s.respond cache q r).rcode = .nxDomain := by
      revert hnx
      rcases (s.respond cache q r).rcode with _ | _ | _ | _ | _ | _
      all_goals decide
    obtain ⟨t, ht, hden⟩ := hdenied hrcode₁
    rw [hasks.2] at ht
    rw [Reply.ancount_finish]
    by_cases hzero : (s.respond cache q' r').an = 0
    · rw [hzero]
    · obtain ⟨u, hu, hans⟩ := hanswered hzero
      rw [hasks'.2] at hu
      exact absurd hden (hcond n m hbelow t u ht hu hans)

end Server

end Hop.Dns
