import Hop.Dns.Wire
import Hop.Lib.SortedMap

/-!
# The name server

`apps/hopdns/src/cache.rs`, `cnames.rs` and `server.rs`: the addresses of each job by cluster, the
table of static names with its wildcards, and the answer to one datagram. Texts are their bytes.
-/

namespace Hop.Dns

/-- `TTL`, in seconds. -/
def ttl : ℕ := 5

/-- `DEFAULT_DOMAIN`. -/
def defaultDomain : Bytes := utf8 "hop.local"

/-- `table.rs`: a table from text to value. -/
abbrev Table (ν : Type) : Type := SortedMap Bytes ν

/-! ### The cache -/

/-- What is known of one cluster: the addresses of each job. -/
abbrev Jobs : Type := Table (List Ipv4)

structure Cache where
  clusters : Table Jobs
deriving DecidableEq

namespace Cache

def new : Cache := ⟨.empty⟩

/-- The addresses of a job in a cluster: `none` for an unknown job, none at all for one without a
running task. -/
def getCluster (c : Cache) (cluster job : Bytes) : Option (List Ipv4) :=
  (c.clusters.get? cluster).bind fun jobs => jobs.get? job

/-- The addresses of a job, for each cluster that knows it. -/
def merged (c : Cache) (job : Bytes) : List (List Ipv4) :=
  c.clusters.entries.filterMap fun e => e.2.get? job

def hasJob (c : Cache) (job : Bytes) : Bool := !(c.merged job).isEmpty

def hasCluster (c : Cache) (cluster : Bytes) : Bool := (c.clusters.get? cluster).isSome

/-- Set the addresses of one job in one cluster. -/
def set (c : Cache) (cluster job : Bytes) (ips : List Ipv4) : Cache :=
  match c.clusters.get? cluster with
  | some jobs => ⟨c.clusters.insert cluster (jobs.insert job ips)⟩
  | none => ⟨c.clusters.insert cluster (SortedMap.empty.insert job ips)⟩

/-- Replace what is known of a cluster. -/
def update (c : Cache) (cluster : Bytes) (jobs : Jobs) : Cache := ⟨c.clusters.insert cluster jobs⟩

end Cache

/-! ### Names and zones -/

/-- `char::is_whitespace`. -/
def isWhitespace (c : Char) : Bool :=
  let n := c.toNat
  (9 ≤ n && n ≤ 13) || n == 0x20 || n == 0x85 || n == 0xA0 || n == 0x1680 ||
    (0x2000 ≤ n && n ≤ 0x200A) || n == 0x2028 || n == 0x2029 || n == 0x202F || n == 0x205F ||
    n == 0x3000

/-- `str::trim`. -/
def trim (s : String) : Bytes :=
  utf8Chars ((s.toList.dropWhile isWhitespace).reverse.dropWhile isWhitespace).reverse

/-- `split_once('.')`. -/
def splitOnce : Bytes → Option (Bytes × Bytes)
  | [] => none
  | b :: bs => if b = dot then some ([], bs) else (splitOnce bs).map fun p => (b :: p.1, p.2)

/-- Whether a name is in a zone, or the zone itself. -/
def inZone (name zone : Bytes) : Bool :=
  name = zone || (decide (zone.length < name.length) && zone.isSuffixOf name &&
    name[name.length - zone.length - 1]? = some dot)

/-- The static names: exact ones, and the parents of the wildcards. -/
structure CNames where
  exact : Table Bytes
  wildcard : Table Bytes
deriving DecidableEq

namespace CNames

def empty : CNames := ⟨.empty, .empty⟩

/-- The loop of `lookup` over the parents of a name: the first wildcard is the longest one. The
name gets shorter each time, so its length is fuel enough. -/
def parents (c : CNames) : ℕ → Bytes → Option Bytes
  | 0, _ => none
  | fuel + 1, name =>
    match splitOnce name with
    | none => none
    | some (_, rest) =>
      if rest = [] then none
      else match c.wildcard.get? rest with
        | some v => some v
        | none => c.parents fuel rest

/-- The target of a name, if it has one. -/
def lookup (c : CNames) (name : Bytes) : Option Bytes :=
  let name := stripDot name
  if 256 < name.length then none
  else
    let name := lower name
    match c.exact.get? name with
    | some v => some v
    | none => c.parents (name.length + 1) name

/-- `max_by_key`: the last of the longest ones. -/
def longest : List Bytes → Option Bytes
  | [] => none
  | z :: zs =>
    match longest zs with
    | none => some z
    | some z' => if z.length ≤ z'.length then some z' else some z

/-- The zones of the table: an exact name without its first label, the parent of a wildcard. -/
def zones (c : CNames) : List Bytes :=
  c.exact.entries.filterMap (fun e => (splitOnce e.1).map Prod.snd) ++ c.wildcard.entries.map Prod.fst

/-- The longest zone of the table that a name is in. -/
def zoneOf (c : CNames) (name : Bytes) : Option Bytes :=
  longest (c.zones.filter fun z => !z.isEmpty && inZone name z)

/-- The name as a key: in small letters, without a dot at the end. -/
def keyOf (name : String) : Bytes := lower (stripDot (trim name))

/-- The target with a dot at the end. -/
def fqdn (name : String) : Bytes :=
  let t := trim name
  if t.getLast? = some dot then t else t ++ [dot]

/-- One pair of the configuration. -/
def add (c : CNames) (key target : String) : CNames :=
  let k := keyOf key
  if k = [] ∨ trim target = [] then c
  else match k with
    | 42 :: 46 :: p :: parent => { c with wildcard := c.wildcard.insert (p :: parent) (fqdn target) }
    | _ => { c with exact := c.exact.insert k (fqdn target) }

/-- The table of a list of pairs. -/
def new (pairs : List (String × String)) : CNames := pairs.foldl (fun c p => c.add p.1 p.2) empty

end CNames

/-! ### The server -/

structure Server where
  domain : Bytes
  cnames : CNames

/-- What a name in the domain is. -/
inductive Lookup
  /-- The addresses in one cluster. -/
  | cluster (ips : Option (List Ipv4))
  /-- A job, over all clusters. -/
  | merged (job : Bytes)
  /-- The zone itself. -/
  | apex

/-- `MAX_ANSWERS`. -/
def maxAnswers : ℕ := (ednsMax - headerLen - 5) / 16

/-- Write addresses until there is no room. -/
def writeAll : List Ipv4 → Reply → Reply
  | [], r => r
  | ip :: ips, r =>
    match r.answerA ip ttl with
    | .ok r => writeAll ips r
    | .error _ => r

/-- `write_merged`: each address once, until there is no room. -/
def writeOnce : List Ipv4 → List Ipv4 → Reply → Reply
  | [], _, r => r
  | ip :: ips, seen, r =>
    if ip ∈ seen then writeOnce ips seen r
    else if maxAnswers ≤ seen.length then r
    else match r.answerA ip ttl with
      | .ok r => writeOnce ips (seen ++ [ip]) r
      | .error _ => r

namespace Server

/-- A server for a domain. -/
def new (domain : String) : Server :=
  let d := stripDot (trim domain)
  ⟨lower (if d = [] then defaultDomain else d), .empty⟩

/-- What a name is that is in the domain. -/
def find (s : Server) (cache : Cache) (name : Bytes) : Lookup :=
  if name.length < s.domain.length + 1 then .apex
  else
    let front := name.take (name.length - (s.domain.length + 1))
    match splitOnce front with
    | some (service, cluster) => .cluster (cache.getCluster cluster service)
    | none => .merged front

/-- Whether the name is known. -/
def exists' (cache : Cache) : Lookup → Bool
  | .apex => true
  | .cluster ips => ips.isSome
  | .merged job => cache.hasJob job || cache.hasCluster job

/-- The addresses of the name in the answer. -/
def addresses (cache : Cache) (found : Lookup) (r : Reply) : Reply :=
  match found with
  | .apex => r
  | .cluster ips => writeAll (ips.getD []) r
  | .merged job => writeOnce (cache.merged job).flatten [] r

/-- A name in the domain. -/
def service (s : Server) (cache : Cache) (name : Bytes) (qtype : ℕ) (r : Reply) :
    Except (Reply × Error) Reply :=
  let found := s.find cache name
  let r := if qtype = RType.a ∨ qtype = RType.any then addresses cache found r else r
  if r.an = 0 then
    let r := if exists' cache found then r else r.setRcode .nxDomain
    match r.authoritySoa s.domain ttl with
    | .ok r => .ok r
    | .error e => .error (r, e)
  else .ok r

/-- The answer to a question. On an error the answer is as far as it was. -/
def answer (s : Server) (cache : Cache) (q : Query) (r : Reply) : Except (Reply × Error) Reply :=
  match nameText q.qname with
  | none => .ok (r.setRcode .refused)
  | some name =>
    if q.qclass ≠ classIn ∧ q.qclass ≠ classAny then .ok (r.setRcode .refused)
    else match s.cnames.lookup name with
      | some target =>
        match r.answerCname target ttl with
        | .ok r => .ok r
        | .error e => .error (r, e)
      | none =>
        if inZone name s.domain then s.service cache name q.qtype r
        else match s.cnames.zoneOf name with
          | some zone =>
            let r := r.setRcode .nxDomain
            match r.authoritySoa zone ttl with
            | .ok r => .ok r
            | .error e => .error (r, e)
          | none => .ok (r.setRcode .refused)

/-- The largest answer to a question. -/
def limit (q : Query) : ℕ :=
  match q.edns with
  | none => udpMax
  | some size => max udpMax (min size ednsMax)

/-- The answer to one datagram in a buffer of `cap` bytes; `none` if nothing goes back. -/
def handle (s : Server) (cache : Cache) (msg : Bytes) (cap : ℕ) : Option Bytes :=
  match parseQuery msg with
  | .error .drop => none
  | .error (.reply id flags rcode) =>
    match Reply.bare cap id flags rcode udpMax with
    | .ok r => some r.finish
    | .error _ => none
  | .ok q =>
    match Reply.start cap q (limit q) with
    | .error _ => none
    | .ok r =>
      match s.answer cache q r with
      | .ok r => some r.finish
      | .error (r, _) => some (r.setRcode .servFail).finish

end Server

end Hop.Dns
