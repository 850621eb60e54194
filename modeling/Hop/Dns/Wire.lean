import Hop.Lib.Text

/-!
# The wire format of DNS

`apps/hopdns/src/wire.rs`: reading a question and writing an answer. A message is a list of bytes;
a reader that walks over labels counts down the bytes of the label it is in. An answer that is being
built keeps its header apart from the records behind it; `Reply.finish` puts them together.
-/

namespace Hop.Dns

/-- `HEADER_LEN`. -/
def headerLen : ℕ := 12

/-- The largest message without EDNS. -/
def udpMax : ℕ := 512

/-- The largest message with EDNS. -/
def ednsMax : ℕ := 1232

/-- The longest name on the wire. -/
def nameMax : ℕ := 255

def labelMax : ℕ := 63

/-- The size of an OPT record without options. -/
def optLen : ℕ := 11

/-- `b'.'`. -/
def dot : UInt8 := 46

namespace RType

def a : ℕ := 1
def cname : ℕ := 5
def soa : ℕ := 6
def opt : ℕ := 41
def any : ℕ := 255

end RType

def classIn : ℕ := 1

def classAny : ℕ := 255

inductive Rcode
  | noError
  | formErr
  | servFail
  | nxDomain
  | notImp
  | refused
deriving DecidableEq

def Rcode.code : Rcode → ℕ
  | noError => 0
  | formErr => 1
  | servFail => 2
  | nxDomain => 3
  | notImp => 4
  | refused => 5

/-- Why a record was not written. -/
inductive Error
  | badName
  | noRoom
deriving DecidableEq

/-! ### Numbers -/

/-- The two bytes at `at'`. -/
def be16 (b : Bytes) (at' : ℕ) : Option ℕ := do
  let hi ← b[at']?
  let lo ← b[at' + 1]?
  some (hi.toNat * 256 + lo.toNat)

/-- `u16::to_be_bytes`. -/
def put16 (n : ℕ) : Bytes := [UInt8.ofNat (n / 256), UInt8.ofNat n]

/-- `u32::to_be_bytes`. -/
def put32 (n : ℕ) : Bytes := put16 (n / 65536) ++ put16 n

@[simp] theorem length_put16 (n : ℕ) : (put16 n).length = 2 := rfl

@[simp] theorem length_put32 (n : ℕ) : (put32 n).length = 4 := rfl

/-! ### Names -/

/-- `skip_plain_name`: the length of the name at the start; `k` bytes of a label are left. A
reference or a reserved form is no name. -/
def plainLen : Bytes → ℕ → Option ℕ
  | [], _ => none
  | b :: bs, 0 =>
    if b = 0 then some 1
    else if labelMax < b.toNat then none
    else (plainLen bs b.toNat).map (· + 1)
  | _ :: bs, k + 1 => (plainLen bs k).map (· + 1)

def skipPlainName (msg : Bytes) (at' : ℕ) : Option ℕ :=
  match plainLen (msg.drop at') 0 with
  | some n => if n ≤ nameMax then some (at' + n) else none
  | none => none

/-- `skip_name`: the same where a reference may end the name. -/
def nameLen : Bytes → ℕ → Option ℕ
  | [], _ => none
  | b :: bs, 0 =>
    if b = 0 then some 1
    else if b.toNat ≤ labelMax then (nameLen bs b.toNat).map (· + 1)
    else if 0xC0 ≤ b.toNat then (if bs = [] then none else some 2)
    else none
  | _ :: bs, k + 1 => (nameLen bs k).map (· + 1)

/-- The place behind a name. -/
def skipName (msg : Bytes) (at' : ℕ) : Option ℕ := (nameLen (msg.drop at') 0).map (at' + ·)

/-- `u8::to_ascii_lowercase`. -/
def lowerByte (b : UInt8) : UInt8 := if 65 ≤ b ∧ b ≤ 90 then b + 32 else b

def lower (s : Bytes) : Bytes := s.map lowerByte

/-- A byte that a label of a host name may have. -/
def plainByte (b : UInt8) : Bool := 0x21 ≤ b && b ≤ 0x7E && b != dot

/-- One more byte in a buffer of `nameMax`. -/
def push (buf : Bytes) (b : UInt8) : Option Bytes :=
  if buf.length < nameMax then some (buf ++ [b]) else none

/-- `name_text`: the name on the wire as text in small letters, without a dot at the end. -/
def nameTextFrom : Bytes → Bytes → ℕ → Option Bytes
  | [], _, _ => none
  | b :: bs, buf, 0 =>
    if b = 0 then some buf
    else if buf = [] then nameTextFrom bs buf b.toNat
    else match push buf dot with
      | some buf => nameTextFrom bs buf b.toNat
      | none => none
  | b :: bs, buf, k + 1 =>
    if plainByte b then
      match push buf (lowerByte b) with
      | some buf => nameTextFrom bs buf k
      | none => none
    else none

def nameText (wire : Bytes) : Option Bytes := nameTextFrom wire [] 0

/-- `str::split('.')`. -/
def splitDots : Bytes → List Bytes
  | [] => [[]]
  | b :: bs =>
    if b = dot then [] :: splitDots bs
    else match splitDots bs with
      | [] => [[b]]
      | l :: ls => (b :: l) :: ls

/-- `strip_suffix('.')`, or the text as it is. -/
def stripDot (s : Bytes) : Bytes := if s.getLast? = some dot then s.dropLast else s

/-- The labels of a name behind `w`, in a buffer of `room` bytes. -/
def putLabels (room : ℕ) : List Bytes → Bytes → Except Error Bytes
  | [], w => if w.length < room then .ok (w ++ [0]) else .error .noRoom
  | l :: ls, w =>
    if l.length = 0 ∨ labelMax < l.length then .error .badName
    else if room < w.length + 1 + l.length then .error .noRoom
    else putLabels room ls (w ++ UInt8.ofNat l.length :: l)

/-- `put_name`: a text, with or without a dot at the end, on the wire. -/
def putName (room : ℕ) (name : Bytes) : Except Error Bytes :=
  let name := stripDot name
  match putLabels room (if name = [] then [] else splitDots name) [] with
  | .error e => .error e
  | .ok w => if nameMax < w.length then .error .badName else .ok w

/-! ### Questions -/

/-- The question of a datagram. -/
structure Query where
  id : ℕ
  flags : ℕ
  /-- Name, type and class as they stand on the wire. -/
  question : Bytes
  /-- The name with its last zero. -/
  qname : Bytes
  qtype : ℕ
  qclass : ℕ
  /-- The size that the asker offers with EDNS. -/
  edns : Option ℕ
deriving DecidableEq

/-- Why a datagram is no ordinary question. -/
inductive Bad
  | drop
  | reply (id flags : ℕ) (rcode : Rcode)
deriving DecidableEq

/-- The size in the OPT record among the next `count` records. -/
def findOpt (msg : Bytes) : ℕ → ℕ → Option ℕ
  | 0, _ => none
  | count + 1, at' => do
    let nameEnd ← skipName msg at'
    let rtype ← be16 msg nameEnd
    let cls ← be16 msg (nameEnd + 2)
    let rdlen ← be16 msg (nameEnd + 8)
    if rtype = RType.opt then some cls else findOpt msg count (nameEnd + 10 + rdlen)

/-- The bit that says that a message is an answer. -/
def qr : ℕ := 0x8000

/-- Read a datagram as a question. -/
def parseQuery (msg : Bytes) : Except Bad Query :=
  match be16 msg 0, be16 msg 2 with
  | some id, some flags =>
    if msg.length < headerLen ∨ flags &&& qr ≠ 0 then .error .drop
    else if (flags >>> 11) &&& 0xF ≠ 0 then .error (.reply id flags .notImp)
    else match be16 msg 4, be16 msg 6, be16 msg 8, be16 msg 10 with
      | some 1, some an, some ns, some ar =>
        match skipPlainName msg headerLen with
        | none => .error (.reply id flags .formErr)
        | some nameEnd =>
          match be16 msg nameEnd, be16 msg (nameEnd + 2) with
          | some qtype, some qclass =>
            let qEnd := nameEnd + 4
            .ok { id := id, flags := flags
                  question := (msg.drop headerLen).take (qEnd - headerLen)
                  qname := (msg.drop headerLen).take (nameEnd - headerLen)
                  qtype := qtype, qclass := qclass
                  edns := findOpt msg (an + ns + ar) qEnd }
          | _, _ => .error (.reply id flags .formErr)
      | _, _, _, _ => .error (.reply id flags .formErr)
  | _, _ => .error .drop

/-! ### Answers -/

structure Ipv4 where
  octets : UInt8 × UInt8 × UInt8 × UInt8
deriving DecidableEq

def Ipv4.bytes (ip : Ipv4) : Bytes := [ip.octets.1, ip.octets.2.1, ip.octets.2.2.1, ip.octets.2.2.2]

/-- An answer under construction: the fields of its header, and the bytes behind the header. -/
structure Reply where
  id : ℕ
  /-- The flags without the code. -/
  flags : ℕ
  rcode : Rcode
  qd : ℕ
  an : ℕ
  ns : ℕ
  ar : ℕ
  body : Bytes
  limit : ℕ
  /-- The size of the buffer of the caller. -/
  cap : ℕ
  edns : Option ℕ

namespace Reply

/-- An answer without a question, only a code. -/
def bare (cap id flags : ℕ) (rcode : Rcode) (limit : ℕ) : Except Error Reply :=
  let limit := min limit cap
  if limit < headerLen then .error .noRoom
  else .ok { id := id, flags := 0x8400 ||| (flags &&& 0x7910), rcode := rcode, qd := 0, an := 0
             ns := 0, ar := 0, body := [], limit := limit, cap := cap, edns := none }

def len (r : Reply) : ℕ := headerLen + r.body.length

/-- What is kept free for the OPT record. -/
def reserve (r : Reply) : ℕ := if r.edns.isSome then optLen else 0

/-- The beginning of the answer to `q`: the header and the question. -/
def start (cap : ℕ) (q : Query) (limit : ℕ) : Except Error Reply := do
  let limit := min limit cap
  let r ← bare cap q.id q.flags .noError limit
  let reserve := if q.edns.isSome then optLen else 0
  if r.limit < headerLen + q.question.length + reserve then .error .noRoom
  else .ok { r with body := q.question, qd := 1, edns := q.edns }

def setRcode (r : Reply) (rcode : Rcode) : Reply := { r with rcode := rcode }

def room (r : Reply) : ℕ := r.limit - (r.len + r.reserve)

/-- A record for the name of the question. -/
def answer (r : Reply) (rtype ttl : ℕ) (rdata : Bytes) : Except Error Reply :=
  if r.room < 12 + rdata.length then .error .noRoom
  else .ok { r with
    body := r.body ++ ([0xC0, 12] ++ put16 rtype ++ put16 classIn ++ put32 ttl ++
      put16 rdata.length ++ rdata)
    an := r.an + 1 }

def answerA (r : Reply) (ip : Ipv4) (ttl : ℕ) : Except Error Reply := r.answer RType.a ttl ip.bytes

def answerCname (r : Reply) (target : Bytes) (ttl : ℕ) : Except Error Reply := do
  let w ← putName (nameMax + 1) target
  r.answer RType.cname ttl w

/-- `put_soa_name`: a label before the zone. -/
def putSoaName (room : ℕ) (label zone : Bytes) : Except Error Bytes :=
  if room < 1 + label.length then .error .noRoom
  else match putName (room - (1 + label.length)) zone with
    | .error e => .error e
    | .ok w => .ok (UInt8.ofNat label.length :: label ++ w)

/-- The size of the buffer that an SOA record is written in. -/
def soaMax : ℕ := 3 * (nameMax + 1) + 20

/-- The bytes of the SOA record of a zone. -/
def soaRecord (zone : Bytes) (ttl : ℕ) : Except Error Bytes := do
  let owner ← putName soaMax zone
  let rdataAt := owner.length + 10
  let mname ← putSoaName (soaMax - rdataAt) (utf8 "ns") zone
  let rname ← putSoaName (soaMax - (rdataAt + mname.length)) (utf8 "hostmaster") zone
  if soaMax < rdataAt + mname.length + rname.length + 20 then .error .noRoom
  else
    let rdata := mname ++ rname ++ put32 1 ++ put32 ttl ++ put32 ttl ++ put32 ttl ++ put32 ttl
    .ok (owner ++ put16 RType.soa ++ put16 classIn ++ put32 ttl ++ put16 rdata.length ++ rdata)

/-- The SOA record in the authority section of an empty or negative answer. -/
def authoritySoa (r : Reply) (zone : Bytes) (ttl : ℕ) : Except Error Reply := do
  let b ← soaRecord zone ttl
  if r.room < b.length then .error .noRoom
  else .ok { r with body := r.body ++ b, ns := r.ns + 1 }

/-- The message: the OPT record is last if the question spoke EDNS. -/
def finish (r : Reply) : Bytes :=
  let opt := r.edns.isSome && decide (r.len + optLen ≤ r.cap)
  put16 r.id ++ put16 (r.flags ||| r.rcode.code) ++ put16 r.qd ++ put16 r.an ++ put16 r.ns ++
    put16 (if opt then r.ar + 1 else r.ar) ++ r.body ++
    if opt then [0] ++ put16 RType.opt ++ put16 ednsMax ++ [0, 0, 0, 0, 0, 0] else []

end Reply

end Hop.Dns
