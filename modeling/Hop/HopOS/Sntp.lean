import Hop.Lib.Endian
import Hop.Types.Prim

/-!
# The wall clock of the node

`agentd-hopos/src/sntp.rs`: the reading of a time server's answer. `parse_accurate_iff` says when
a correct server's answer sets the clock right within half the delay: before its clock passes the
end of the first NTP era, in 2036.
-/

namespace Hop.HopOS.Sntp

/-- `PACKET`: the length of an SNTP packet without extensions. -/
def packet : ℕ := 48

/-- Seconds from 1900 (NTP) to 1970 (Unix). -/
def ntpToUnix : ℕ := 2208988800

/-- `MIN_UNIX_SECS`: the earliest time a server may say, 2026-01-01T00:00:00Z. -/
def minUnixSecs : ℕ := 1767225600

/-- `NS`. -/
def ns : ℕ := 1000000000

/-- Why there came no time; only the reasons that `parse` has. -/
inductive SntpError where
  /-- The answer is shorter than a packet. -/
  | short (n : ℕ)
  | notServer (mode : UInt8)
  | unsynchronized
  /-- Kiss-o'-Death (stratum 0), with its code. -/
  | kiss (code : Bytes)
  /-- The originate field is not our transmit field. -/
  | mismatch
  | tooEarly (secs : ℕ)
  deriving DecidableEq

/-- A measured time. -/
structure Sample where
  /-- Unix nanoseconds at the moment `at'`. -/
  unixNs : ℕ
  /-- The monotone clock at that moment. -/
  at' : ℕ
  /-- The round trip without the time the server took. -/
  delayNs : ℕ
  stratum : UInt8
  deriving DecidableEq

/-- The Unix time at the monotone time `now`. -/
def Sample.unixAt (s : Sample) (now : ℕ) : ℕ := satAdd u64Max s.unixNs (now - s.at')

/-- An NTP timestamp (32.32 since 1900) in `p`; zero where `p` is too short. -/
def stamp (p : Bytes) (i : ℕ) : ℕ :=
  if i + 8 ≤ p.length then ofBe ((p.drop i).take 8) else 0

/-- An NTP timestamp as Unix nanoseconds; none before 1970. -/
def unixNs (ts : ℕ) : Option ℕ := do
  guard (ntpToUnix ≤ ts / 2 ^ 32)
  let secs := ts / 2 ^ 32 - ntpToUnix
  let frac := ts % 2 ^ 32 * ns / 2 ^ 32
  guard (secs * ns ≤ u64Max)
  guard (secs * ns + frac ≤ u64Max)
  pure (secs * ns + frac)

/-- The last part of `parse`: the time that the receive and transmit timestamps `t2` and `t3` say,
corrected by half of what the round trip took without the server. -/
def measure (t2 t3 sent recv : ℕ) (stratum : UInt8) : Except SntpError Sample :=
  if t3 / 2 ^ 32 < ntpToUnix + minUnixSecs then .error (.tooEarly (t3 / 2 ^ 32 - ntpToUnix))
  else match unixNs t3 with
    | none => .error (.tooEarly 0)
    | some serverNs =>
      let held := match unixNs t2 with
        | some b => serverNs - b
        | none => 0
      let delayNs := recv - sent - held
      .ok ⟨satAdd u64Max serverNs (delayNs / 2), recv, delayNs, stratum⟩

/-- Reads the answer `resp` to the question with `nonce`, sent at the monotone time `sent` and
received at `recv`. -/
def parse (resp : Bytes) (nonce sent recv : ℕ) : Except SntpError Sample :=
  if resp.length < packet then .error (.short resp.length)
  else
    let head := resp.headD 0
    let li := head >>> 6
    let mode := head &&& 7
    if mode ≠ 4 then .error (.notServer mode)
    else
      let stratum := resp.getD 1 0
      if stratum = 0 then .error (.kiss ((resp.drop 12).take 4))
      else if li = 3 ∨ stratum > 15 then .error .unsynchronized
      else if stamp resp 24 ≠ nonce then .error .mismatch
      else measure (stamp resp 32) (stamp resp 40) sent recv stratum

theorem unixNs_eq_some {ts v : ℕ} : unixNs ts = some v ↔
    ntpToUnix ≤ ts / 2 ^ 32 ∧
      v = (ts / 2 ^ 32 - ntpToUnix) * ns + ts % 2 ^ 32 * ns / 2 ^ 32 ∧ v ≤ u64Max := by
  rw [unixNs]
  simp only [Option.bind_eq_bind, Option.bind_eq_some_iff, Option.guard_eq_some', Option.pure_def,
    Option.some.injEq, exists_const]
  constructor
  · rintro ⟨hunix, -, hsum, rfl⟩
    exact ⟨hunix, rfl, hsum⟩
  · rintro ⟨hunix, rfl, hsum⟩
    exact ⟨hunix, (Nat.le_add_right _ _).trans hsum, hsum, rfl⟩

/-! ### Timestamps -/

/-- The NTP timestamp of a Unix time: the seconds since 1900 modulo `2 ^ 32`, and the fraction. -/
def ntpStamp (t : ℕ) : ℕ :=
  (t / ns + ntpToUnix) % 2 ^ 32 * 2 ^ 32 + t % ns * 2 ^ 32 / ns

/-- A time whose fraction of a second the 32 bits of a timestamp can say. -/
def IsExact (t : ℕ) : Prop := t % ns * 2 ^ 32 % ns = 0

instance (t : ℕ) : Decidable (IsExact t) := inferInstanceAs (Decidable (_ = _))

/-- What a time loses in a timestamp that is read back. -/
def lost (t : ℕ) : ℕ := if IsExact t then 0 else 1

theorem lost_le (t : ℕ) : lost t ≤ 1 := by
  rw [lost]
  split_ifs <;> omega

theorem fraction_lt (t : ℕ) : t % ns * 2 ^ 32 / ns < 2 ^ 32 := by
  rw [ns]
  omega

theorem ntpStamp_lt (t : ℕ) : ntpStamp t < 256 ^ 8 := by
  have hfrac := fraction_lt t
  rw [ntpStamp]
  omega

theorem word_div {a b : ℕ} (hb : b < 2 ^ 32) : (a * 2 ^ 32 + b) / 2 ^ 32 = a := by omega

theorem word_mod {a b : ℕ} (hb : b < 2 ^ 32) : (a * 2 ^ 32 + b) % 2 ^ 32 = b := by omega

theorem ntpStamp_secs (t : ℕ) : ntpStamp t / 2 ^ 32 = (t / ns + ntpToUnix) % 2 ^ 32 :=
  word_div (fraction_lt t)

theorem ntpStamp_frac (t : ℕ) : ntpStamp t % 2 ^ 32 = t % ns * 2 ^ 32 / ns :=
  word_mod (fraction_lt t)

theorem back_exact {r : ℕ} (h : r * 2 ^ 32 % ns = 0) :
    r * 2 ^ 32 / ns * ns / 2 ^ 32 = r := by
  rw [Nat.div_mul_cancel (Nat.dvd_of_mod_eq_zero h)]
  exact Nat.mul_div_cancel r (by decide)

theorem back_inexact {r : ℕ} (h : r * 2 ^ 32 % ns ≠ 0) :
    r * 2 ^ 32 / ns * ns / 2 ^ 32 + 1 = r := by
  have hlt : r * 2 ^ 32 % ns < ns := Nat.mod_lt _ (by decide)
  have hsplit : ns * (r * 2 ^ 32 / ns) + r * 2 ^ 32 % ns = r * 2 ^ 32 := Nat.div_add_mod _ ns
  have hns : ns < 2 ^ 32 := by decide
  rw [Nat.mul_comm _ ns]
  omega

/-- Both conversions truncate, and together they lose one nanosecond of a time that no timestamp
says exactly. -/
theorem fraction_back (t : ℕ) : t % ns * 2 ^ 32 / ns * ns / 2 ^ 32 + lost t = t % ns := by
  by_cases h : IsExact t
  · rw [lost, if_pos h, Nat.add_zero]
    exact back_exact h
  · rw [lost, if_neg h]
    exact back_inexact h

theorem lost_le_self {t : ℕ} : lost t ≤ t := by
  have h := fraction_back t
  have hle : t % ns ≤ t := Nat.mod_le t ns
  omega

/-- A timestamp of the first era says its time, but for what it lost. -/
theorem unixNs_ntpStamp {t : ℕ} (h : t / ns + ntpToUnix < 2 ^ 32) :
    unixNs (ntpStamp t) = some (t - lost t) := by
  have hback := fraction_back t
  have hsplit : ns * (t / ns) + t % ns = t := Nat.div_add_mod t ns
  have hlt : t % ns < ns := Nat.mod_lt _ (by decide)
  have hvalue : t / ns * ns + t % ns * 2 ^ 32 / ns * ns / 2 ^ 32 = t - lost t := by
    rw [Nat.mul_comm (t / ns)]
    omega
  have hfit : t ≤ u64Max := by
    rw [ns] at h hsplit hlt
    rw [ntpToUnix] at h
    rw [u64Max]
    omega
  rw [unixNs_eq_some, ntpStamp_secs, ntpStamp_frac, Nat.mod_eq_of_lt h, Nat.add_sub_cancel, hvalue]
  exact ⟨Nat.le_add_left _ _, rfl, (Nat.sub_le _ _).trans hfit⟩

/-! ### What is accepted -/

theorem measure_eq_ok {t2 t3 sent recv : ℕ} {stratum : UInt8} {s : Sample}
    (h : measure t2 t3 sent recv stratum = .ok s) : ntpToUnix + minUnixSecs ≤ t3 / 2 ^ 32 ∧
      ∃ serverNs, unixNs t3 = some serverNs ∧ s.unixNs = satAdd u64Max serverNs (s.delayNs / 2) ∧
        s.at' = recv ∧ s.stratum = stratum := by
  rw [measure] at h
  split_ifs at h with hearly
  rcases hns : unixNs t3 with - | serverNs
  · rw [hns] at h
    cases h
  · rw [hns] at h
    cases h
    exact ⟨Nat.le_of_not_lt hearly, serverNs, rfl, rfl, rfl, rfl⟩

/-- What an accepted answer has passed. -/
theorem parse_eq_ok {resp : Bytes} {nonce sent recv : ℕ} {s : Sample}
    (h : parse resp nonce sent recv = .ok s) :
    packet ≤ resp.length ∧ resp.headD 0 &&& 7 = 4 ∧ resp.headD 0 >>> 6 ≠ 3 ∧
    resp.getD 1 0 ≠ 0 ∧ resp.getD 1 0 ≤ 15 ∧ stamp resp 24 = nonce ∧
    measure (stamp resp 32) (stamp resp 40) sent recv (resp.getD 1 0) = .ok s := by
  rw [parse] at h
  dsimp only at h
  split_ifs at h with hlen hmode hkiss hsync hnonce
  exact ⟨Nat.le_of_not_lt hlen, not_not.mp hmode, fun hli => hsync (Or.inl hli), hkiss,
    not_lt.mp fun hhigh => hsync (Or.inr hhigh), not_not.mp hnonce, h⟩

/-- The time of an accepted answer is not before 2026. -/
theorem le_unixNs {ts serverNs : ℕ} (h : unixNs ts = some serverNs)
    (hsecs : ntpToUnix + minUnixSecs ≤ ts / 2 ^ 32) : minUnixSecs * ns ≤ serverNs := by
  obtain ⟨-, rfl, -⟩ := unixNs_eq_some.mp h
  have hle : minUnixSecs ≤ ts / 2 ^ 32 - ntpToUnix := by omega
  exact (Nat.mul_le_mul_right ns hle).trans (Nat.le_add_right _ _)

/-! ### A correct server -/

/-- A synchronized server, by the bytes of its answers that `parse` looks at or past. -/
structure Server where
  head : UInt8
  stratum : UInt8
  /-- The poll interval to the reference timestamp. -/
  fields : Bytes
  isServer : head &&& 7 = 4
  noAlarm : head >>> 6 ≠ 3
  one_le_stratum : 1 ≤ stratum
  stratum_le : stratum ≤ 15
  fields_length : fields.length = 22

/-- The answer of a server that received a question at `t2` and answers it at `t3`. -/
def Server.answer (srv : Server) (nonce t2 t3 : ℕ) : Bytes :=
  srv.head :: srv.stratum :: (srv.fields ++ (beBytes 8 nonce ++
    (beBytes 8 (ntpStamp t2) ++ beBytes 8 (ntpStamp t3))))

/-- A question to a server and its answer, in true Unix time and on the monotone clock of the
node. -/
structure Exchange where
  /-- The true time of the question. -/
  start : ℕ
  /-- How long the question is on its way. -/
  there : ℕ
  /-- How long the server takes. -/
  held : ℕ
  /-- How long the answer is on its way. -/
  back : ℕ
  /-- The monotone time of the question. -/
  sent : ℕ
  nonce : ℕ
  after2026 : minUnixSecs * ns ≤ start
  before2106 : start + there + held + back < 2 ^ 32 * ns
  nonce_lt : nonce < 2 ^ 64

namespace Exchange

variable (x : Exchange)

/-- The true time at which the server receives. -/
def t2 : ℕ := x.start + x.there

/-- The true time at which the server transmits. -/
def t3 : ℕ := x.t2 + x.held

/-- The monotone time of the reception. -/
def recv : ℕ := x.sent + x.there + x.held + x.back

/-- The true time at a monotone time. -/
def trueAt (now : ℕ) : ℕ := x.start + (now - x.sent)

/-- The path delay. -/
def delay : ℕ := x.there + x.back

/-- The answer sets the clock: at every time after the reception it is off the true time by at
most half the path delay and a nanosecond. -/
def Accurate (o : Except SntpError Sample) : Prop :=
  ∃ s, o = .ok s ∧ ∀ now, x.recv ≤ now → x.trueAt now ≤ u64Max →
    2 * s.unixAt now ≤ 2 * x.trueAt now + x.delay + 2 ∧
      2 * x.trueAt now ≤ 2 * s.unixAt now + x.delay + 2

/-- Nothing but the way back takes time, an odd number of nanoseconds, and neither timestamp is
exact: the three truncations add up to a nanosecond and a half. -/
def Truncated : Prop :=
  x.there = 0 ∧ x.back % 2 = 1 ∧ ¬ IsExact x.t2 ∧ ¬ IsExact x.t3

/-- The server answers in the first era of NTP, before 2036-02-07T06:28:16Z. -/
def FirstEra : Prop := x.t3 / ns + ntpToUnix < 2 ^ 32

instance : Decidable x.Truncated := inferInstanceAs (Decidable (_ ∧ _ ∧ _ ∧ _))

instance : Decidable x.FirstEra := inferInstanceAs (Decidable (_ < _))

end Exchange

theorem stamp_append {a b c : Bytes} (hb : b.length = 8) {i : ℕ} (ha : a.length = i) :
    stamp (a ++ (b ++ c)) i = ofBe b := by
  have hlen : i + 8 ≤ (a ++ (b ++ c)).length := by
    simp only [List.length_append]
    omega
  rw [stamp, if_pos hlen, List.drop_left' ha, List.take_left' hb]

namespace Server

variable (srv : Server) (nonce t2 t3 : ℕ)

theorem answer_length : (srv.answer nonce t2 t3).length = packet := by
  simp only [answer, List.length_cons, List.length_append, srv.fields_length, beBytes_length,
    packet]

theorem stamp_originate (h : nonce < 2 ^ 64) : stamp (srv.answer nonce t2 t3) 24 = nonce := by
  have hfront : (srv.head :: srv.stratum :: srv.fields).length = 24 := by
    simp only [List.length_cons, srv.fields_length]
  exact (stamp_append (beBytes_length 8 nonce) hfront).trans (ofBe_beBytes_of_lt h)

theorem stamp_receive : stamp (srv.answer nonce t2 t3) 32 = ntpStamp t2 := by
  have hfront : (srv.head :: srv.stratum :: (srv.fields ++ beBytes 8 nonce)).length = 32 := by
    simp only [List.length_cons, List.length_append, srv.fields_length, beBytes_length]
  have hanswer : srv.answer nonce t2 t3 =
      (srv.head :: srv.stratum :: (srv.fields ++ beBytes 8 nonce)) ++
        (beBytes 8 (ntpStamp t2) ++ beBytes 8 (ntpStamp t3)) := by
    simp only [answer, List.cons_append, List.append_assoc]
  rw [hanswer, stamp_append (beBytes_length 8 _) hfront, ofBe_beBytes_of_lt (ntpStamp_lt t2)]

theorem stamp_transmit : stamp (srv.answer nonce t2 t3) 40 = ntpStamp t3 := by
  have hfront : (srv.head :: srv.stratum ::
      (srv.fields ++ (beBytes 8 nonce ++ beBytes 8 (ntpStamp t2)))).length = 40 := by
    simp only [List.length_cons, List.length_append, srv.fields_length, beBytes_length]
  have hanswer : srv.answer nonce t2 t3 =
      (srv.head :: srv.stratum :: (srv.fields ++ (beBytes 8 nonce ++ beBytes 8 (ntpStamp t2)))) ++
        (beBytes 8 (ntpStamp t3) ++ []) := by
    simp only [answer, List.cons_append, List.append_assoc, List.append_nil]
  rw [hanswer, stamp_append (beBytes_length 8 _) hfront, ofBe_beBytes_of_lt (ntpStamp_lt t3)]

theorem getD_stratum : (srv.answer nonce t2 t3).getD 1 0 = srv.stratum := rfl

/-- A correct server's answer passes the checks of the header. -/
theorem parse_answer (sent recv : ℕ) (h : nonce < 2 ^ 64) :
    parse (srv.answer nonce t2 t3) nonce sent recv =
      measure (ntpStamp t2) (ntpStamp t3) sent recv srv.stratum := by
  have hlen : ¬ (srv.answer nonce t2 t3).length < packet := by
    rw [answer_length]
    exact lt_irrefl _
  have hhead : (srv.answer nonce t2 t3).headD 0 = srv.head := rfl
  have hkiss : srv.stratum ≠ 0 := by
    intro h0
    exact absurd (h0 ▸ srv.one_le_stratum) (by decide)
  have hsync : ¬ (srv.head >>> 6 = 3 ∨ srv.stratum > 15) := by
    rintro (hli | hhigh)
    · exact srv.noAlarm hli
    · exact not_le.mpr hhigh srv.stratum_le
  rw [parse, if_neg hlen, hhead, getD_stratum, srv.stamp_originate nonce t2 t3 h, stamp_receive,
    stamp_transmit]
  dsimp only
  rw [srv.isServer, if_neg (not_not.mpr rfl), if_neg hkiss, if_neg hsync, if_neg (not_not.mpr rfl)]

end Server

namespace Exchange

variable (srv : Server) (x : Exchange)

/-- The path delay as `parse` has it: off by what the two timestamps lost. -/
def measured : ℕ := x.delay + lost x.t3 - lost x.t2

theorem t2_le_t3 : x.t2 ≤ x.t3 := Nat.le_add_right _ _

/-- At the same moment the same is lost, so the difference of the timestamps does not go below
zero. -/
theorem held_eq : x.t3 - lost x.t3 - (x.t2 - lost x.t2) = x.held + lost x.t2 - lost x.t3 := by
  have h2 := lost_le_self (t := x.t2)
  have h3 := lost_le_self (t := x.t3)
  have hsum : x.t3 = x.t2 + x.held := rfl
  omega

theorem measured_eq :
    x.recv - x.sent - (x.t3 - lost x.t3 - (x.t2 - lost x.t2)) = x.measured := by
  have hrecv : x.recv = x.sent + x.there + x.held + x.back := rfl
  have hdelay : x.delay = x.there + x.back := rfl
  have h2 := lost_le x.t2
  have h3 := lost_le x.t3
  have hmeasured : x.measured = x.delay + lost x.t3 - lost x.t2 := rfl
  rw [held_eq]
  rcases Nat.eq_zero_or_pos x.held with h0 | hpos
  · -- both timestamps are of one moment
    have hsame : x.t3 = x.t2 := by
      rw [t3, h0, Nat.add_zero]
    rw [hsame] at hmeasured ⊢
    omega
  · omega

theorem secs_lt : x.t3 / ns < 2 ^ 32 := by
  have hend := x.before2106
  have ht3 : x.t3 = x.start + x.there + x.held := rfl
  apply Nat.div_lt_of_lt_mul
  rw [Nat.mul_comm]
  omega

theorem minUnixSecs_le : minUnixSecs ≤ x.t3 / ns := by
  have hstart := x.after2026
  have ht3 : x.t3 = x.start + x.there + x.held := rfl
  apply (Nat.le_div_iff_mul_le (by decide)).mpr
  omega

/-- In the first era the answer is accepted. -/
theorem parse_firstEra (h : x.FirstEra) :
    parse (srv.answer x.nonce x.t2 x.t3) x.nonce x.sent x.recv =
      .ok ⟨satAdd u64Max (x.t3 - lost x.t3) (x.measured / 2), x.recv, x.measured, srv.stratum⟩ := by
  have h2 : x.t2 / ns + ntpToUnix < 2 ^ 32 :=
    (Nat.add_le_add_right (Nat.div_le_div_right x.t2_le_t3) _).trans_lt h
  have hnot : ¬ ntpStamp x.t3 / 2 ^ 32 < ntpToUnix + minUnixSecs := by
    have hmin := x.minUnixSecs_le
    rw [ntpStamp_secs, Nat.mod_eq_of_lt h]
    omega
  rw [srv.parse_answer _ _ _ _ _ x.nonce_lt, measure, if_neg hnot, unixNs_ntpStamp h,
    unixNs_ntpStamp h2]
  dsimp only
  rw [measured_eq]

/-- After it the seconds start again, and every answer reads as a time before 2026. -/
theorem parse_later (h : ¬ x.FirstEra) :
    ∃ secs, parse (srv.answer x.nonce x.t2 x.t3) x.nonce x.sent x.recv =
      .error (.tooEarly secs) := by
  have hwrap : (x.t3 / ns + ntpToUnix) % 2 ^ 32 < ntpToUnix + minUnixSecs := by
    have hlt := x.secs_lt
    have hsmall : ntpToUnix < 2 ^ 32 := by decide
    have hge : 2 ^ 32 ≤ x.t3 / ns + ntpToUnix := Nat.le_of_not_lt h
    rw [Nat.mod_eq_sub_mod hge, Nat.mod_eq_of_lt (by omega)]
    omega
  rw [← ntpStamp_secs] at hwrap
  exact ⟨_, (srv.parse_answer _ _ _ _ _ x.nonce_lt).trans (if_pos hwrap)⟩

/-! ### The error -/

theorem lost_eq_one {t : ℕ} : lost t = 1 ↔ ¬ IsExact t := by
  rw [lost]
  split_ifs with h
  · exact ⟨nofun, fun hn => absurd h hn⟩
  · exact ⟨fun _ => h, fun _ => rfl⟩

/-- What `parse` takes for the true time of the reception. -/
def estimate : ℕ := x.t3 - lost x.t3 + x.measured / 2

theorem estimate_le : 2 * x.estimate ≤ 2 * (x.t3 + x.back) + x.delay + 2 := by
  have h3 := lost_le x.t3
  have hmeasured : x.measured = x.delay + lost x.t3 - lost x.t2 := rfl
  have hestimate : x.estimate = x.t3 - lost x.t3 + x.measured / 2 := rfl
  omega

/-- The estimate falls short by more than half the delay and a nanosecond exactly where all that
can be lost is lost on the way back. -/
theorem le_estimate_iff :
    2 * (x.t3 + x.back) ≤ 2 * x.estimate + x.delay + 2 ↔ ¬ x.Truncated := by
  have h2 := lost_le x.t2
  have h3 := lost_le x.t3
  have hself := lost_le_self (t := x.t3)
  have hmeasured : x.measured = x.delay + lost x.t3 - lost x.t2 := rfl
  have hestimate : x.estimate = x.t3 - lost x.t3 + x.measured / 2 := rfl
  have hdelay : x.delay = x.there + x.back := rfl
  rw [Truncated, ← lost_eq_one, ← lost_eq_one]
  constructor
  · rintro hle ⟨h0, hodd, hlost2, hlost3⟩
    omega
  · intro hnot
    by_contra hlt
    apply hnot
    omega

theorem trueAt_eq {now : ℕ} (h : x.recv ≤ now) :
    x.trueAt now = x.t3 + x.back + (now - x.recv) := by
  have hrecv : x.recv = x.sent + x.there + x.held + x.back := rfl
  have ht3 : x.t3 = x.start + x.there + x.held := rfl
  have htrue : x.trueAt now = x.start + (now - x.sent) := rfl
  omega

theorem trueAt_recv_le : x.trueAt x.recv ≤ u64Max := by
  have hend := x.before2106
  have hmax : 2 ^ 32 * ns ≤ u64Max := by decide
  have ht3 : x.t3 = x.start + x.there + x.held := rfl
  have htrue := x.trueAt_eq le_rfl
  omega

theorem satAdd_satAdd (max a b c : ℕ) :
    satAdd max (satAdd max a b) c = min (a + b + c) max := by
  rw [satAdd, satAdd]
  omega

theorem unixAt_sample {now delay : ℕ} {stratum : UInt8} :
    Sample.unixAt ⟨satAdd u64Max (x.t3 - lost x.t3) (x.measured / 2), x.recv, delay, stratum⟩ now =
      min (x.estimate + (now - x.recv)) u64Max := by
  rw [Sample.unixAt, satAdd_satAdd]
  rfl

/-- In the first era only the truncations of the worst case are too much. -/
theorem accurate_firstEra_iff (h : x.FirstEra) :
    x.Accurate (parse (srv.answer x.nonce x.t2 x.t3) x.nonce x.sent x.recv) ↔ ¬ x.Truncated := by
  rw [x.parse_firstEra srv h, Accurate, ← le_estimate_iff]
  constructor
  · rintro ⟨s, hs, hbound⟩
    cases hs
    obtain ⟨-, hlow⟩ := hbound x.recv le_rfl x.trueAt_recv_le
    rw [unixAt_sample, x.trueAt_eq le_rfl] at hlow
    omega
  · intro hlow
    have hhigh := x.estimate_le
    refine ⟨_, rfl, fun now hnow htrue => ?_⟩
    rw [unixAt_sample]
    rw [x.trueAt_eq hnow] at htrue ⊢
    constructor
    · omega
    · omega

end Exchange

/-- What `parse` accepts is the answer of a synchronized server to our question, with a time from
2026 on; and from a correct server the clock is set right within half the path delay if and only if
the server answers in the first era, the worst case of the truncations aside. -/
theorem parse_accurate_iff (resp : Bytes) (nonce sent recv : ℕ) (srv : Server) (x : Exchange) :
    (∀ s : Sample, parse resp nonce sent recv = .ok s →
      resp.headD 0 &&& 7 = 4 ∧ resp.getD 1 0 ≠ 0 ∧ resp.getD 1 0 ≤ 15 ∧ stamp resp 24 = nonce ∧
      minUnixSecs ≤ stamp resp 40 / 2 ^ 32 - ntpToUnix ∧ minUnixSecs * ns ≤ s.unixNs) ∧
    (x.Accurate (parse (srv.answer x.nonce x.t2 x.t3) x.nonce x.sent x.recv) ↔
      x.FirstEra ∧ ¬ x.Truncated) := by
  constructor
  · intro s h
    obtain ⟨-, hmode, -, hkiss, hstratum, hnonce, h⟩ := parse_eq_ok h
    obtain ⟨hsecs, serverNs, hns, hunix, -, -⟩ := measure_eq_ok h
    have hmin : minUnixSecs ≤ stamp resp 40 / 2 ^ 32 - ntpToUnix := by omega
    have hserver := le_unixNs hns hsecs
    have hfit := (unixNs_eq_some.mp hns).2.2
    refine ⟨hmode, hkiss, hstratum, hnonce, hmin, ?_⟩
    rw [hunix, satAdd]
    exact le_min (hserver.trans (Nat.le_add_right _ _)) (hserver.trans hfit)
  · by_cases h : x.FirstEra
    · rw [x.accurate_firstEra_iff srv h]
      exact (and_iff_right h).symm
    · obtain ⟨secs, herr⟩ := x.parse_later srv h
      rw [herr]
      constructor
      · rintro ⟨s, hs, -⟩
        cases hs
      · exact fun hfirst => absurd hfirst.1 h

/-- A question at 2030-01-01T00:00:00Z. -/
def newYear : Exchange where
  start := 1893456000 * ns
  there := 20
  held := 5
  back := 30
  sent := 100
  nonce := 7
  after2026 := by decide
  before2106 := by decide
  nonce_lt := by decide

/-- A server of stratum 2 that answers in version 4. -/
def stratumTwo : Server where
  head := 0x24
  stratum := 2
  fields := List.replicate 22 0
  isServer := by decide
  noAlarm := by decide
  one_le_stratum := by decide
  stratum_le := by decide
  fields_length := rfl

theorem parse_accurate_newYear :
    newYear.Accurate (parse (stratumTwo.answer newYear.nonce newYear.t2 newYear.t3) newYear.nonce
      newYear.sent newYear.recv) ∧ minUnixSecs * ns ≤ 1893456000000000050 := by
  have hparse : parse (stratumTwo.answer newYear.nonce newYear.t2 newYear.t3) newYear.nonce
      newYear.sent newYear.recv = .ok ⟨1893456000000000049, 155, 50, 2⟩ := by decide +kernel
  obtain ⟨haccepts, haccurate⟩ := parse_accurate_iff
    (stratumTwo.answer newYear.nonce newYear.t2 newYear.t3) newYear.nonce newYear.sent newYear.recv
    stratumTwo newYear
  refine ⟨haccurate.mpr ⟨by decide, by decide⟩, ?_⟩
  exact (haccepts _ hparse).2.2.2.2.2.trans (by decide)

/-- A question at 2036-02-07T06:28:16Z, the first second of the second era. -/
def secondEra : Exchange where
  start := 2085978496 * ns
  there := 10
  held := 10
  back := 10
  sent := 0
  nonce := 7
  after2026 := by decide
  before2106 := by decide
  nonce_lt := by decide

/-- The answer to it is refused: it reads as a time before 1970. -/
theorem secondEra_refused :
    parse (stratumTwo.answer secondEra.nonce secondEra.t2 secondEra.t3) secondEra.nonce
        secondEra.sent secondEra.recv = .error (.tooEarly 0) ∧
      ¬ secondEra.Accurate (parse (stratumTwo.answer secondEra.nonce secondEra.t2 secondEra.t3)
        secondEra.nonce secondEra.sent secondEra.recv) := by
  have herr : parse (stratumTwo.answer secondEra.nonce secondEra.t2 secondEra.t3) secondEra.nonce
      secondEra.sent secondEra.recv = .error (.tooEarly 0) := by decide
  refine ⟨herr, ?_⟩
  rw [herr]
  rintro ⟨s, hs, -⟩
  cases hs

end Hop.HopOS.Sntp
