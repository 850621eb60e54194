import Hop.Hoplb.Http

/-!
# The request to the backend

`apps/hoplb/src/proxy.rs` from an accepted request to the head that the backend gets. The domain for
the routes and the target for the backend come from `hostAndTarget`; `requestHead` writes the head.
Read again, the head has the target and the fields of `requestFields` (`parseRequest_requestHead`),
so which `Host` the backend is told follows from the fields (`all_host`).

The host of an absolute target is the domain that is routed, but a `Host` field of the client is
passed on beside it. And a query that comes right after the host is taken for a part of it.
`forwards_iff` has both conditions.
-/

namespace Hop.Hoplb

/-- The framing of a request, and the rules for a request that is forwarded. -/
def checkRequest (r : RequestHead) : Except Error Framing :=
  if r.method = "CONNECT".toList then .error (.unsupported "CONNECT")
  else
    let hosts := (r.headers.all "Host").length
    if 1 < hosts ∨ (r.minor = 1 ∧ hosts = 0) then
      .error (.badRequest "missing or repeated Host header")
    else requestFraming r.headers

/-- `HOP_BY_HOP`: the fields for one connection only. -/
def hopByHop : List String :=
  ["Connection", "Proxy-Connection", "Keep-Alive", "Proxy-Authenticate", "Proxy-Authorization", "Te",
    "Trailer", "Transfer-Encoding", "Upgrade", "Content-Length"]

/-- Whether a field is passed on. -/
def passes (name : Text) (h : Headers) : Bool :=
  !(hopByHop.any fun x => eqIgnoreAsciiCase x.toList name) && !h.hasToken "Connection" name

/-- One more address in the chain of `X-Forwarded-For`. -/
def addForwarded (xff v : Text) : Text := (if xff.isEmpty then xff else xff ++ ", ".toList) ++ v

/-- Where the loop over the fields is: the head so far, whether it has a `Host`, and the chain. -/
structure HeadLoop where
  out : Text
  hasHost : Bool := false
  xff : Text := []

/-- One field of `request_head`. -/
def requestField (h : Headers) (s : HeadLoop) (f : Text × Text) : HeadLoop :=
  if eqIgnoreAsciiCase f.1 "X-Forwarded-For".toList then { s with xff := addForwarded s.xff f.2 }
  else if eqIgnoreAsciiCase f.1 "Expect".toList || !passes f.1 h then s
  else
    { s with
      out := s.out ++ field f.1 f.2
      hasHost := s.hasHost || eqIgnoreAsciiCase f.1 "Host".toList }

/-- `request_head`: the head to the backend. -/
def requestHead (req : RequestHead) (framing : Framing) (domain target peer : Text) : Text :=
  let start := req.method ++ " ".toList ++ target ++ " HTTP/1.1\r\n".toList
  let s := req.headers.fields.foldl (requestField req.headers) { out := start }
  let b := if !s.hasHost && !domain.isEmpty then s.out ++ field "Host".toList domain else s.out
  let xff := if peer.isEmpty then s.xff else addForwarded s.xff peer
  let b := if xff.isEmpty then b else b ++ field "X-Forwarded-For".toList xff
  let b :=
    match framing with
    | .length n => b ++ field "Content-Length".toList (Nat.toDigits 10 n)
    | .chunked => b ++ field "Transfer-Encoding".toList "chunked".toList
    | .empty => b
    | .eof => b
  b ++ "Connection: close\r\n\r\n".toList

/-- What follows the scheme of a target in absolute form. -/
def absoluteRest (t : Text) : Option Text :=
  (stripPrefix t "http://".toList).or (stripPrefix t "https://".toList)

/-- The domain for the routes, and the target for the backend. -/
def hostAndTarget (req : RequestHead) : Text × Text :=
  match absoluteRest req.target with
  | some rest =>
    let slash := (findChar '/' rest).getD rest.length
    let path := rest.drop slash
    (rest.take slash, if path.isEmpty then ['/'] else path)
  | none => ((req.headers.get "Host").getD [], req.target)

/-! ### The fields of the head -/

/-- The fields of the client that are passed on as they are. -/
def keptFields (h : Headers) : List (Text × Text) :=
  h.fields.filter fun f => !eqIgnoreAsciiCase f.1 "X-Forwarded-For".toList &&
    (!eqIgnoreAsciiCase f.1 "Expect".toList && passes f.1 h)

/-- The chain of addresses. -/
def forwarded (h : Headers) (peer : Text) : Text :=
  let xff := (h.all "X-Forwarded-For").foldl addForwarded []
  if peer.isEmpty then xff else addForwarded xff peer

/-- The `Host` field that is added if none is passed on. -/
def hostField (h : Headers) (domain : Text) : List (Text × Text) :=
  if !(keptFields h).any (fun f => eqIgnoreAsciiCase f.1 "Host".toList) && !domain.isEmpty then
    [("Host".toList, domain)]
  else []

/-- The field that says how the body ends. -/
def framingField : Framing → List (Text × Text)
  | .length n => [("Content-Length".toList, Nat.toDigits 10 n)]
  | .chunked => [("Transfer-Encoding".toList, "chunked".toList)]
  | .empty => []
  | .eof => []

/-- All the fields of the head to the backend. -/
def requestFields (h : Headers) (framing : Framing) (domain peer : Text) : List (Text × Text) :=
  keptFields h ++ hostField h domain ++
    (if (forwarded h peer).isEmpty then [] else [("X-Forwarded-For".toList, forwarded h peer)]) ++
    framingField framing ++ [("Connection".toList, "close".toList)]

section Fields

variable {h : Headers} {framing : Framing} {domain target peer : Text}

/-- The loop writes the fields that are kept, and collects the chain. -/
theorem foldl_requestField (h : Headers) (fields : List (Text × Text)) (s : HeadLoop) :
    fields.foldl (requestField h) s =
      let kept := fields.filter fun f => !eqIgnoreAsciiCase f.1 "X-Forwarded-For".toList &&
        (!eqIgnoreAsciiCase f.1 "Expect".toList && passes f.1 h)
      { out := s.out ++ kept.flatMap fun f => field f.1 f.2
        hasHost := s.hasHost || kept.any fun f => eqIgnoreAsciiCase f.1 "Host".toList
        xff := (((fields.filter fun f => eqIgnoreAsciiCase f.1 "X-Forwarded-For".toList).map
          Prod.snd).foldl addForwarded s.xff) } := by
  have hstep : requestField h = fun s f =>
      if eqIgnoreAsciiCase f.1 "X-Forwarded-For".toList then
        { s with xff := addForwarded s.xff f.2 }
      else if eqIgnoreAsciiCase f.1 "Expect".toList || !passes f.1 h then s
      else
        { s with
          out := s.out ++ field f.1 f.2
          hasHost := s.hasHost || eqIgnoreAsciiCase f.1 "Host".toList } := rfl
  rw [hstep]
  -- the names do not matter here
  generalize "X-Forwarded-For".toList = xffName, "Expect".toList = expectName, "Host".toList = hostName
  induction fields generalizing s with
  | nil => simp
  | cons f fields ih =>
    rw [List.foldl_cons, ih]
    by_cases hxff : eqIgnoreAsciiCase f.1 xffName = true
    · simp [hxff]
    · by_cases hkept : (!eqIgnoreAsciiCase f.1 expectName && passes f.1 h) = true
      · have hdrop : (eqIgnoreAsciiCase f.1 expectName || !passes f.1 h) = false := by
          simpa [and_comm] using hkept
        simp [hxff, hkept, hdrop, Bool.or_assoc]
      · have hdrop : (eqIgnoreAsciiCase f.1 expectName || !passes f.1 h) = true := by
          simpa [imp_iff_not_or] using hkept
        simp [hxff, hkept, hdrop]

theorem requestHead_eq (req : RequestHead) (framing : Framing) (domain target peer : Text) :
    requestHead req framing domain target peer =
      headText ([' '].intercalate [req.method, target, "HTTP/1.1".toList])
        (requestFields req.headers framing domain peer) := by
  have hstart : req.method ++ " ".toList ++ target ++ " HTTP/1.1\r\n".toList =
      [' '].intercalate [req.method, target, "HTTP/1.1".toList] ++ "\r\n".toList := by
    have hversion : " HTTP/1.1\r\n".toList = [' '] ++ ("HTTP/1.1".toList ++ "\r\n".toList) := rfl
    have hblank : " ".toList = [' '] := rfl
    rw [hversion, hblank]
    simp only [List.intercalate, List.intersperse, List.flatten_cons, List.flatten_nil,
      List.append_assoc, List.append_nil]
  have hend : "Connection: close\r\n\r\n".toList =
      field "Connection".toList "close".toList ++ "\r\n".toList := rfl
  have hloop : req.headers.fields.foldl (requestField req.headers)
      { out := req.method ++ " ".toList ++ target ++ " HTTP/1.1\r\n".toList } =
      { out := req.method ++ " ".toList ++ target ++ " HTTP/1.1\r\n".toList ++
          (keptFields req.headers).flatMap fun f => field f.1 f.2
        hasHost := (keptFields req.headers).any fun f => eqIgnoreAsciiCase f.1 "Host".toList
        xff := (req.headers.all "X-Forwarded-For").foldl addForwarded [] } := by
    rw [foldl_requestField]
    rfl
  have hframing : ∀ b : Text, (match framing with
      | .length n => b ++ field "Content-Length".toList (Nat.toDigits 10 n)
      | .chunked => b ++ field "Transfer-Encoding".toList "chunked".toList
      | .empty => b
      | .eof => b) = b ++ (framingField framing).flatMap fun f => field f.1 f.2 := by
    intro b
    rcases framing with _ | n | _ | _
    · exact (List.append_nil b).symm
    · rw [framingField, List.flatMap_singleton]
    · rw [framingField, List.flatMap_singleton]
    · exact (List.append_nil b).symm
  have hhost : ∀ b : Text,
      (if !(keptFields req.headers).any (fun f => eqIgnoreAsciiCase f.1 "Host".toList) &&
          !domain.isEmpty then b ++ field "Host".toList domain else b) =
        b ++ (hostField req.headers domain).flatMap fun f => field f.1 f.2 := by
    intro b
    rw [hostField]
    split_ifs
    · rw [List.flatMap_singleton]
    · exact (List.append_nil b).symm
  have hxff : ∀ b : Text,
      (if (forwarded req.headers peer).isEmpty then b
        else b ++ field "X-Forwarded-For".toList (forwarded req.headers peer)) =
        b ++ (if (forwarded req.headers peer).isEmpty then []
          else [("X-Forwarded-For".toList, forwarded req.headers peer)]).flatMap
            fun f => field f.1 f.2 := by
    intro b
    split_ifs
    · exact (List.append_nil b).symm
    · rw [List.flatMap_singleton]
  have hchain : (if peer.isEmpty then (req.headers.all "X-Forwarded-For").foldl addForwarded []
      else addForwarded ((req.headers.all "X-Forwarded-For").foldl addForwarded []) peer) =
      forwarded req.headers peer := rfl
  unfold requestHead
  dsimp only
  rw [hloop, hframing]
  dsimp only
  rw [hchain, hxff, hhost, hstart, hend, headText, requestFields]
  simp only [List.flatMap_append, List.flatMap_singleton, List.append_assoc]

theorem noControl_addForwarded {xff v : Text} (hxff : (utf8Chars xff).any isControl = false)
    (hv : (utf8Chars v).any isControl = false) :
    (utf8Chars (addForwarded xff v)).any isControl = false := by
  rw [addForwarded, noControl_append, hv, Bool.or_false]
  split_ifs
  · exact hxff
  · rw [noControl_append, hxff]
    rfl

theorem noControl_forwarded (hfields : ∀ f ∈ h.fields, FieldOk f)
    (hpeer : (utf8Chars peer).any isControl = false) :
    (utf8Chars (forwarded h peer)).any isControl = false := by
  have hall : ∀ v ∈ h.all "X-Forwarded-For", (utf8Chars v).any isControl = false := by
    intro v hv
    obtain ⟨f, hf, rfl⟩ := List.mem_map.mp hv
    exact (hfields f (List.mem_filter.mp hf).1).2
  have hchain : ∀ (vs : List Text) (xff : Text), (∀ v ∈ vs, (utf8Chars v).any isControl = false) →
      (utf8Chars xff).any isControl = false →
      (utf8Chars (vs.foldl addForwarded xff)).any isControl = false := by
    intro vs
    induction vs with
    | nil => exact fun xff _ hxff => hxff
    | cons v vs ih =>
      intro xff hvs hxff
      rw [List.forall_mem_cons] at hvs
      exact ih _ hvs.2 (noControl_addForwarded hxff hvs.1)
  rw [forwarded]
  split_ifs
  · exact hchain _ [] hall rfl
  · exact noControl_addForwarded (hchain _ [] hall rfl) hpeer

theorem fieldOk_framingField (framing : Framing) : ∀ f ∈ framingField framing, FieldOk f := by
  rcases framing with _ | n | _ | _
  · exact fun f hf => by cases hf
  · rw [framingField, List.forall_mem_singleton]
    have hname : isToken "Content-Length".toList = true := by decide
    refine ⟨hname, List.any_eq_false.mpr fun b hb => ?_⟩
    have hdigit : isDigit b = true := isDigit_of_mem_utf8Chars isDigit_of_mem_toDigits hb
    rw [isDigit, Bool.and_eq_true, decide_eq_true_eq, decide_eq_true_eq] at hdigit
    rw [isControl, Bool.or_eq_true, Bool.and_eq_true, decide_eq_true_eq, not_or, not_and]
    exact ⟨fun hlow => absurd hlow (by grind), by grind⟩
  · rw [framingField, List.forall_mem_singleton]
    exact ⟨by decide, by decide⟩
  · exact fun f hf => by cases hf

/-- All the fields of the head can stand in one. -/
theorem fieldOk_requestFields (hfields : ∀ f ∈ h.fields, FieldOk f) (framing : Framing)
    (hdomain : (utf8Chars domain).any isControl = false)
    (hpeer : (utf8Chars peer).any isControl = false) :
    ∀ f ∈ requestFields h framing domain peer, FieldOk f := by
  intro f hf
  rw [requestFields, List.mem_append, List.mem_append, List.mem_append, List.mem_append] at hf
  rcases hf with (((hf | hf) | hf) | hf) | hf
  · exact hfields f (List.mem_filter.mp hf).1
  · rw [hostField] at hf
    split_ifs at hf
    · obtain rfl := List.mem_singleton.mp hf
      have hname : isToken "Host".toList = true := by decide
      exact ⟨hname, hdomain⟩
    · cases hf
  · split_ifs at hf
    · cases hf
    · obtain rfl := List.mem_singleton.mp hf
      have hname : isToken "X-Forwarded-For".toList = true := by decide
      exact ⟨hname, noControl_forwarded hfields hpeer⟩
  · exact fieldOk_framingField framing f hf
  · obtain rfl := List.mem_singleton.mp hf
    exact ⟨by decide, by decide⟩

/-- What a backend reads in the head. -/
theorem parseRequest_requestHead {req : RequestHead} (hmethod : isToken req.method = true)
    (htarget : TargetOk target) (hfields : ∀ f ∈ req.headers.fields, FieldOk f) (framing : Framing)
    (hdomain : (utf8Chars domain).any isControl = false)
    (hpeer : (utf8Chars peer).any isControl = false) :
    parseRequest (utf8Chars (requestHead req framing domain target peer)) =
      .ok ⟨req.method, target, 1,
        ⟨(requestFields req.headers framing domain peer).map
          fun f => (f.1, trimMatches isBlank f.2)⟩⟩ := by
  have hall := fieldOk_requestFields hfields framing hdomain hpeer
  have hne : requestFields req.headers framing domain peer ≠ [] :=
    List.append_ne_nil_of_right_ne_nil _ (List.cons_ne_nil _ _)
  obtain ⟨f, fields, hcons⟩ := List.exists_cons_of_ne_nil hne
  rw [requestHead_eq, hcons]
  rw [hcons] at hall
  exact parseRequest_headText hmethod htarget hall

/-! ### The hosts in the head -/

theorem hasToken_congr (h : Headers) (name : String) {a b : Text}
    (hab : eqIgnoreAsciiCase a b = true) : h.hasToken name a = h.hasToken name b := by
  rw [Headers.hasToken, Headers.hasToken]
  congr 1
  funext t
  rw [eqIgnoreAsciiCase_comm _ a, eqIgnoreAsciiCase_comm _ b, eqIgnoreAsciiCase_congr hab]

/-- The `Host` fields that are passed on: all, or none if `Connection` names them. -/
theorem filter_keptFields (h : Headers) :
    (keptFields h).filter (fun f => eqIgnoreAsciiCase f.1 "Host".toList) =
      if h.hasToken "Connection" "Host".toList = true then []
      else h.fields.filter fun f => eqIgnoreAsciiCase f.1 "Host".toList := by
  have hkept : ∀ f ∈ h.fields, eqIgnoreAsciiCase f.1 "Host".toList = true →
      (!eqIgnoreAsciiCase f.1 "X-Forwarded-For".toList &&
        (!eqIgnoreAsciiCase f.1 "Expect".toList && passes f.1 h)) =
        !h.hasToken "Connection" "Host".toList := by
    intro f _ hf
    have hhop : (hopByHop.any fun x => eqIgnoreAsciiCase x.toList f.1) = false := by
      have hcongr : (fun x : String => eqIgnoreAsciiCase x.toList f.1) =
          fun x => eqIgnoreAsciiCase x.toList "Host".toList := by
        funext x
        rw [eqIgnoreAsciiCase_comm, eqIgnoreAsciiCase_congr hf, eqIgnoreAsciiCase_comm]
      rw [hcongr]
      decide
    have hxff : eqIgnoreAsciiCase "Host".toList "X-Forwarded-For".toList = false := by decide
    have hexpect : eqIgnoreAsciiCase "Host".toList "Expect".toList = false := by decide
    rw [passes, hhop, eqIgnoreAsciiCase_congr hf, eqIgnoreAsciiCase_congr hf, hxff, hexpect,
      hasToken_congr h "Connection" hf]
    rfl
  rw [keptFields, List.filter_filter]
  split_ifs with htoken
  · rw [List.filter_eq_nil_iff]
    intro f hf hboth
    rw [Bool.and_eq_true] at hboth
    have := hkept f hf hboth.1
    rw [hboth.2, htoken] at this
    exact absurd this (by decide)
  · rw [Bool.not_eq_true] at htoken
    refine List.filter_congr fun f hf => ?_
    by_cases hhost : eqIgnoreAsciiCase f.1 "Host".toList = true
    · rw [hhost, hkept f hf hhost, htoken]
      rfl
    · rw [Bool.not_eq_true] at hhost
      rw [hhost, Bool.false_and]

/-- The hosts of the client that are passed on. -/
def keptHosts (h : Headers) : List Text :=
  if h.hasToken "Connection" "Host".toList = true then [] else h.all "Host"

/-- None of the fields that the proxy adds is a `Host`, but for the domain. -/
theorem filter_requestFields (h : Headers) (framing : Framing) (domain peer : Text) :
    (requestFields h framing domain peer).filter (fun f => eqIgnoreAsciiCase f.1 "Host".toList) =
      (keptFields h).filter (fun f => eqIgnoreAsciiCase f.1 "Host".toList) ++ hostField h domain := by
  have hself : (hostField h domain).filter (fun f => eqIgnoreAsciiCase f.1 "Host".toList) =
      hostField h domain := by
    rw [hostField]
    split_ifs
    · exact List.filter_cons_of_pos (eqIgnoreAsciiCase_self _)
    · rfl
  have hxff : (if (forwarded h peer).isEmpty then []
      else [("X-Forwarded-For".toList, forwarded h peer)]).filter
        (fun f => eqIgnoreAsciiCase f.1 "Host".toList) = [] := by
    have hname : ¬ eqIgnoreAsciiCase "X-Forwarded-For".toList "Host".toList = true := by decide
    split_ifs
    · rfl
    · exact List.filter_cons_of_neg hname
  have hframing : (framingField framing).filter
      (fun f => eqIgnoreAsciiCase f.1 "Host".toList) = [] := by
    have hlength : ¬ eqIgnoreAsciiCase "Content-Length".toList "Host".toList = true := by decide
    have hcoding : ¬ eqIgnoreAsciiCase "Transfer-Encoding".toList "Host".toList = true := by decide
    rcases framing with _ | n | _ | _
    · rfl
    · exact List.filter_cons_of_neg hlength
    · exact List.filter_cons_of_neg hcoding
    · rfl
  have hclose : [("Connection".toList, "close".toList)].filter
      (fun f => eqIgnoreAsciiCase f.1 "Host".toList) = [] := by
    have hname : ¬ eqIgnoreAsciiCase "Connection".toList "Host".toList = true := by decide
    exact List.filter_cons_of_neg hname
  rw [requestFields, List.filter_append, List.filter_append, List.filter_append,
    List.filter_append, hself, hxff, hframing, hclose, List.append_nil, List.append_nil,
    List.append_nil]

/-- **Which hosts the backend is told**: those of the client that are passed on, or else the domain. -/
theorem all_host (htrim : ∀ f ∈ h.fields, trimMatches isBlank f.2 = f.2)
    (hdomain : trimMatches isBlank domain = domain) (framing : Framing) (peer : Text) :
    Headers.all ⟨(requestFields h framing domain peer).map
        fun f => (f.1, trimMatches isBlank f.2)⟩ "Host" =
      if keptHosts h = [] ∧ domain ≠ [] then [domain] else keptHosts h := by
  have hkept : ((keptFields h).filter fun f => eqIgnoreAsciiCase f.1 "Host".toList).map
      (fun f => trimMatches isBlank f.2) = keptHosts h := by
    rw [filter_keptFields, keptHosts]
    split_ifs
    · rfl
    · exact List.map_congr_left fun f hf => htrim f (List.mem_filter.mp hf).1
  have hall : Headers.all ⟨(requestFields h framing domain peer).map
      fun f => (f.1, trimMatches isBlank f.2)⟩ "Host" =
      keptHosts h ++ (hostField h domain).map fun f => trimMatches isBlank f.2 := by
    rw [← hkept, ← List.map_append, ← filter_requestFields h framing domain peer, Headers.all,
      List.filter_map, List.map_map]
    rfl
  have hany : (keptFields h).any (fun f => eqIgnoreAsciiCase f.1 "Host".toList) = true ↔
      keptHosts h ≠ [] := by
    rw [← hkept, ne_eq, List.map_eq_nil_iff, List.filter_eq_nil_iff, List.any_eq_true]
    constructor
    · rintro ⟨f, hf, hhost⟩ hnone
      exact hnone f hf hhost
    · intro hsome
      by_contra hno
      exact hsome fun f hf hhost => hno ⟨f, hf, hhost⟩
  have hfield : hostField h domain =
      if keptHosts h = [] ∧ domain ≠ [] then [("Host".toList, domain)] else [] := by
    rw [hostField]
    refine if_congr ?_ rfl rfl
    rw [Bool.and_eq_true, Bool.not_eq_true', Bool.not_eq_true', Bool.eq_false_iff, ne_eq, hany,
      not_not, Bool.eq_false_iff, ne_eq, List.isEmpty_iff]
  rw [hall, hfield]
  split_ifs with hadd
  · rw [hadd.1, List.map_cons, hdomain]
    rfl
  · exact List.append_nil _

end Fields

/-! ### What the target asks for -/

/-- The path and the query of a target in origin form, or in absolute form with or without them. -/
inductive Asks : Text → Text → Prop
  | origin {path : Text} : Asks ('/' :: path) ('/' :: path)
  | absolute {scheme authority path : Text} :
      scheme = "http://".toList ∨ scheme = "https://".toList → '/' ∉ authority → '?' ∉ authority →
      Asks (scheme ++ authority ++ '/' :: path) ('/' :: path)
  | query {scheme authority query : Text} :
      scheme = "http://".toList ∨ scheme = "https://".toList → '/' ∉ authority → '?' ∉ authority →
      Asks (scheme ++ authority ++ '?' :: query) ('/' :: '?' :: query)
  | bare {scheme authority : Text} :
      scheme = "http://".toList ∨ scheme = "https://".toList → '/' ∉ authority → '?' ∉ authority →
      Asks (scheme ++ authority) ['/']

/-- The backend is asked for what was routed: it reads the path and the query of the target, and one
`Host`, the domain, if there is a domain. -/
def Forwards (req : RequestHead) (framing : Framing) (peer path : Text) : Prop :=
  let routed := hostAndTarget req
  ∃ h : Headers, parseRequest (utf8Chars (requestHead req framing routed.1 routed.2 peer)) =
      .ok ⟨req.method, path, 1, h⟩ ∧ (routed.1 ≠ [] → h.all "Host" = [routed.1])

/-- No query comes before the path of an absolute target, and no other `Host` is passed on. -/
def Routable (req : RequestHead) : Prop :=
  ∀ rest, absoluteRest req.target = some rest →
    let authority := rest.takeWhile (· ≠ '/')
    '?' ∉ authority ∧ (authority = [] ∨ ∀ v ∈ keptHosts req.headers, v = authority)

section Routed

variable {req : RequestHead} {framing : Framing} {peer path rest : Text}

theorem hostAndTarget_absolute (h : absoluteRest req.target = some rest) :
    hostAndTarget req = (rest.takeWhile (· ≠ '/'),
      if rest.dropWhile (· ≠ '/') = [] then ['/'] else rest.dropWhile (· ≠ '/')) := by
  have hcut := take_findChar '/' rest
  rw [hostAndTarget, h]
  dsimp only
  rw [hcut.1, hcut.2]
  congr 1
  exact if_congr List.isEmpty_iff rfl rfl

theorem rest_subset (h : absoluteRest req.target = some rest) : rest ⊆ req.target := by
  have hsub : ∀ {scheme : Text}, stripPrefix req.target scheme = some rest → rest ⊆ req.target := by
    intro scheme hscheme
    rw [stripPrefix] at hscheme
    split_ifs at hscheme
    obtain rfl := Option.some.inj hscheme
    exact (List.drop_sublist _ _).subset
  rw [absoluteRest, Option.or_eq_some_iff] at h
  rcases h with h | ⟨-, h⟩
  · exact hsub h
  · exact hsub h

/-- What is cut from a target has no blanks and no control bytes. -/
theorem clean_of_subset {t s : Text} (ht : TargetOk t) (hs : s ⊆ t) :
    (utf8Chars s).any isControl = false ∧ trimMatches isBlank s = s ∧ (s ≠ [] → TargetOk s) := by
  have hbytes : ∀ b ∈ utf8Chars s, 32 < b ∧ b ≠ 127 := fun b hb => ht.2 b (mem_utf8Chars_mono hb hs)
  refine ⟨List.any_eq_false.mpr fun b hb => ?_, trimMatches_eq_self fun c hc => ?_,
    fun hne => ⟨hne, hbytes⟩⟩
  · obtain ⟨hlow, hdel⟩ := hbytes b hb
    simp [isControl, hdel, not_lt.mpr hlow.le]
  · rw [isBlank, Bool.or_eq_false_iff, decide_eq_false_iff_not, decide_eq_false_iff_not]
    constructor
    · rintro rfl
      exact notMem_of_targetOk ht (by decide) (by decide) (hs hc)
    · rintro rfl
      exact notMem_of_targetOk ht (by decide) (by decide) (hs hc)

/-- The domain can stand in a field, and the target in a request line. -/
theorem clean_hostAndTarget {head : Bytes} (hreq : parseRequest head = .ok req) :
    (utf8Chars (hostAndTarget req).1).any isControl = false ∧
      trimMatches isBlank (hostAndTarget req).1 = (hostAndTarget req).1 ∧
      TargetOk (hostAndTarget req).2 := by
  obtain ⟨-, htarget, hfields⟩ := of_parseRequest hreq
  rcases habs : absoluteRest req.target with _ | rest
  · have hrouted : hostAndTarget req = ((req.headers.get "Host").getD [], req.target) := by
      rw [hostAndTarget, habs]
    rw [hrouted]
    rcases hget : req.headers.get "Host" with _ | v
    · exact ⟨rfl, rfl, htarget⟩
    · obtain ⟨f, hf, rfl⟩ := List.mem_map.mp (List.mem_of_mem_head? hget)
      obtain ⟨hok, htrim⟩ := hfields f (List.mem_filter.mp hf).1
      exact ⟨hok.2, htrim, htarget⟩
  · have hrest := rest_subset habs
    have hhost := clean_of_subset htarget fun c hc =>
      hrest ((List.takeWhile_sublist fun c => decide (c ≠ '/')).subset hc)
    have hpath := clean_of_subset htarget fun c hc =>
      hrest ((List.dropWhile_sublist fun c => decide (c ≠ '/')).subset hc)
    rw [hostAndTarget_absolute habs]
    refine ⟨hhost.1, hhost.2.1, ?_⟩
    dsimp only
    split_ifs with hempty
    · refine ⟨List.cons_ne_nil _ _, fun b hb => ?_⟩
      obtain rfl : b = 47 := List.mem_singleton.mp hb
      decide
    · exact hpath.2.2 hempty

theorem length_keptHosts (hcheck : checkRequest req = .ok framing) :
    (keptHosts req.headers).length ≤ 1 := by
  rw [checkRequest] at hcheck
  split_ifs at hcheck with hmethod
  dsimp only at hcheck
  split_ifs at hcheck with hhosts
  rw [not_or, Nat.not_lt] at hhosts
  rw [keptHosts]
  split_ifs
  · exact Nat.zero_le _
  · exact hhosts.1

/-- The only `Host` of an accepted request is the one that is read. -/
theorem kept_eq_get (hcheck : checkRequest req = .ok framing) :
    ∀ v ∈ keptHosts req.headers, v = (req.headers.get "Host").getD [] := by
  intro v hv
  have hone := length_keptHosts hcheck
  rw [keptHosts] at hv hone
  split_ifs at hv hone
  · cases hv
  · rw [Headers.get]
    rcases hall : req.headers.all "Host" with _ | ⟨w, _ | ⟨x, ws⟩⟩
    · rw [hall] at hv
      cases hv
    · rw [hall] at hv
      exact List.mem_singleton.mp hv
    · rw [hall] at hone
      simp at hone

/-- What the backend is asked, in terms of the domain and the target that were split off. -/
theorem forwards_iff_routed {head : Bytes} (hreq : parseRequest head = .ok req)
    (hcheck : checkRequest req = .ok framing) (hpeer : (utf8Chars peer).any isControl = false) :
    Forwards req framing peer path ↔ (hostAndTarget req).2 = path ∧
      ((hostAndTarget req).1 = [] ∨ ∀ v ∈ keptHosts req.headers, v = (hostAndTarget req).1) := by
  obtain ⟨hmethod, -, hfields⟩ := of_parseRequest hreq
  obtain ⟨hdomain, htrim, htarget⟩ := clean_hostAndTarget hreq
  have hparse := parseRequest_requestHead hmethod htarget (fun f hf => (hfields f hf).1) framing
    hdomain hpeer
  have hhosts := all_host (fun f hf => (hfields f hf).2) htrim framing peer
  have hone := length_keptHosts hcheck
  rw [Forwards, hparse]
  constructor
  · rintro ⟨h, heq, hall⟩
    obtain ⟨-, hpath, -, rfl⟩ := RequestHead.mk.inj (Except.ok.inj heq)
    refine ⟨hpath, or_iff_not_imp_left.mpr fun hne v hv => ?_⟩
    have hkept := hall hne
    rw [hhosts, if_neg fun h => List.ne_nil_of_mem hv h.1] at hkept
    rw [hkept] at hv
    exact List.mem_singleton.mp hv
  · rintro ⟨rfl, hkept⟩
    refine ⟨_, rfl, fun hne => ?_⟩
    rw [hhosts]
    rcases hlist : keptHosts req.headers with _ | ⟨v, _ | ⟨w, vs⟩⟩
    · rw [if_pos ⟨rfl, hne⟩]
    · rw [if_neg fun h => List.cons_ne_nil _ _ h.1]
      rw [hlist] at hkept
      rw [hkept.resolve_left hne v List.mem_cons_self]
    · rw [hlist] at hone
      simp at hone

theorem absoluteRest_scheme {scheme : Text}
    (h : scheme = "http://".toList ∨ scheme = "https://".toList) (rest : Text) :
    absoluteRest (scheme ++ rest) = some rest := by
  rcases h with rfl | rfl
  · rfl
  · rfl

/-- Up to the first `/`, if there is none in `authority`. -/
theorem cut_authority {authority : Text} (h : '/' ∉ authority) (tail : Text)
    (htail : tail = [] ∨ tail.head? = some '/') :
    (authority ++ tail).takeWhile (· ≠ '/') = authority ∧
      (authority ++ tail).dropWhile (· ≠ '/') = tail := by
  have hplain : ∀ c ∈ authority, decide (c ≠ '/') = true := by
    intro c hc
    rw [decide_eq_true_eq]
    rintro rfl
    exact h hc
  have htake : tail.takeWhile (fun c => decide (c ≠ '/')) = [] := by
    rcases htail with rfl | hslash
    · rfl
    · obtain ⟨path, rfl⟩ := List.head?_eq_some_iff.mp hslash
      rfl
  have hdrop : tail.dropWhile (fun c => decide (c ≠ '/')) = tail := by
    rcases htail with rfl | hslash
    · rfl
    · obtain ⟨path, rfl⟩ := List.head?_eq_some_iff.mp hslash
      rfl
  rw [List.takeWhile_append_of_pos hplain, List.dropWhile_append_of_pos hplain, htake, hdrop]
  exact ⟨List.append_nil _, rfl⟩

/-- Where the authority is cut off right, only the hosts of the client matter. -/
theorem routable_iff {authority tail : Text} (habs : absoluteRest req.target = some (authority ++ tail))
    (hslash : '/' ∉ authority) (hquery : '?' ∉ authority) (htail : tail = [] ∨ tail.head? = some '/') :
    Routable req ↔ authority = [] ∨ ∀ v ∈ keptHosts req.headers, v = authority := by
  have hcut := (cut_authority hslash tail htail).1
  constructor
  · intro h
    have := (h _ habs).2
    rwa [hcut] at this
  · intro h rest hrest
    obtain rfl := Option.some.inj (habs.symm.trans hrest)
    dsimp only
    rw [hcut]
    exact ⟨hquery, h⟩

/-- **The backend is asked for the resource that was routed**, exactly if no query comes before the
path of an absolute target, and no `Host` other than the host of the target is passed on. -/
theorem forwards_iff {head : Bytes} (hreq : parseRequest head = .ok req)
    (hcheck : checkRequest req = .ok framing) (hpeer : (utf8Chars peer).any isControl = false)
    (hasks : Asks req.target path) : Forwards req framing peer path ↔ Routable req := by
  rw [forwards_iff_routed hreq hcheck hpeer]
  generalize htarget : req.target = target at hasks
  rcases hasks with @⟨path⟩ | @⟨scheme, authority, path, hscheme, hslash, hquery⟩ |
    @⟨scheme, authority, query, hscheme, hslash, hquery⟩ | @⟨scheme, authority, hscheme, hslash, hquery⟩
  · -- the domain is the `Host` of the client, of which there is at most one
    have habs : absoluteRest req.target = none := by rw [htarget]; rfl
    have hrouted : hostAndTarget req = ((req.headers.get "Host").getD [], req.target) := by
      rw [hostAndTarget, habs]
    rw [hrouted]
    refine iff_of_true ⟨htarget, .inr (kept_eq_get hcheck)⟩ fun rest hrest => ?_
    rw [habs] at hrest
    cases hrest
  · have habs := absoluteRest_scheme hscheme (authority ++ '/' :: path)
    rw [← List.append_assoc, ← htarget] at habs
    have hcut := cut_authority hslash ('/' :: path) (.inr rfl)
    rw [hostAndTarget_absolute habs, hcut.1, hcut.2, routable_iff habs hslash hquery (.inr rfl)]
    exact and_iff_right rfl
  · -- the query is taken for a part of the host, and it is missing in the target
    have habs := absoluteRest_scheme hscheme (authority ++ '?' :: query)
    rw [← List.append_assoc, ← htarget] at habs
    have hplain : ∀ c ∈ authority, decide (c ≠ '/') = true := by
      intro c hc
      rw [decide_eq_true_eq]
      rintro rfl
      exact hslash hc
    have htake : '?' ∈ (authority ++ '?' :: query).takeWhile (fun c => decide (c ≠ '/')) := by
      rw [List.takeWhile_append_of_pos hplain]
      exact List.mem_append_right _ List.mem_cons_self
    rw [hostAndTarget_absolute habs]
    refine iff_of_false (fun h => ?_) fun h => (h _ habs).1 htake
    have hpath := h.1
    dsimp only at hpath
    split_ifs at hpath with hempty
    · cases hpath
    · have hlen := (List.dropWhile_sublist (fun c => decide (c ≠ '/')) (l := query)).length_le
      rw [List.dropWhile_append_of_pos hplain, List.dropWhile_cons_of_pos (by decide)] at hpath
      rw [hpath, List.length_cons, List.length_cons] at hlen
      omega
  · have habs := absoluteRest_scheme hscheme authority
    rw [← htarget, ← List.append_nil authority] at habs
    have hcut := cut_authority hslash [] (.inl rfl)
    rw [hostAndTarget_absolute habs, hcut.1, hcut.2, routable_iff habs hslash hquery (.inl rfl)]
    exact and_iff_right rfl

/-- A request in absolute form, with a `Host` of its own. -/
def proxied (host : Text) : Bytes :=
  utf8Chars (headText ([' '].intercalate ["GET".toList, "http://a.eu/x".toList, "HTTP/1.1".toList])
    [("Host".toList, host)])

/-- What is read of it. -/
def proxiedHead (host : Text) : RequestHead :=
  ⟨"GET".toList, "http://a.eu/x".toList, 1, ⟨[("Host".toList, host)]⟩⟩

theorem parseRequest_proxied {host : Text} (hok : (utf8Chars host).any isControl = false)
    (htrim : trimMatches isBlank host = host) :
    parseRequest (proxied host) = .ok (proxiedHead host) := by
  have hname : isToken "Host".toList = true := by decide
  have htarget : TargetOk "http://a.eu/x".toList := by
    have hall : (utf8Chars "http://a.eu/x".toList).all (fun b => 32 < b && b != 127) = true := by
      decide
    refine ⟨by decide, fun b hb => ?_⟩
    simpa using List.all_eq_true.mp hall b hb
  have hfields : ∀ f ∈ [("Host".toList, host)], FieldOk f :=
    List.forall_mem_singleton.mpr ⟨hname, hok⟩
  have := parseRequest_headText (by decide : isToken "GET".toList = true) htarget hfields
  rw [List.map_singleton, htrim] at this
  exact this

theorem asks_proxied (host : Text) : Asks (proxiedHead host).target "/x".toList :=
  @Asks.absolute "http://".toList "a.eu".toList "x".toList (.inl rfl) (by decide) (by decide)

theorem forwards_iff_proxied : Forwards (proxiedHead "a.eu".toList) .empty "10.0.0.9".toList
    "/x".toList := by
  refine (forwards_iff (parseRequest_proxied (by decide) (by decide)) rfl (by decide)
    (asks_proxied _)).mpr fun rest hrest => ?_
  obtain rfl := Option.some.inj hrest
  exact ⟨by decide, .inr (by decide)⟩

/-- The request is routed to `a.eu`, and the backend is told `b.eu`. -/
theorem proxied_elsewhere : parseRequest (proxied "b.eu".toList) = .ok (proxiedHead "b.eu".toList) ∧
    checkRequest (proxiedHead "b.eu".toList) = .ok .empty ∧
    Asks (proxiedHead "b.eu".toList).target "/x".toList ∧
    ¬ Forwards (proxiedHead "b.eu".toList) .empty "10.0.0.9".toList "/x".toList := by
  have hreq := parseRequest_proxied (by decide : (utf8Chars "b.eu".toList).any isControl = false)
    (by decide)
  have hcheck : checkRequest (proxiedHead "b.eu".toList) = .ok .empty := rfl
  refine ⟨hreq, hcheck, asks_proxied _, fun h => ?_⟩
  have hhost := ((forwards_iff_routed hreq hcheck (by decide)).mp h).2
  revert hhost
  decide

end Routed

end Hop.Hoplb
