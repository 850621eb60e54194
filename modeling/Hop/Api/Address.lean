import Hop.Api.Node
import Hop.Lib.Path

/-!
# Addressing the agent of another node

The calls of the leader for an agent of another node (`agentd/src/net.rs`, and `call` of
`agentd-hopos/src/relay.rs`): the name of a job goes as it is into the path of a URL, the path of the
URL is signed, and the server splits the target at its first `?`, decodes what is in front of it and
turns down a path that is not canonical. What arrives is the job of that very name exactly if its
name is `Clean`: without a `?`, with a canonical path, untouched by the decoding, and without a `#`
if the two sides are to agree on what was signed (`remote_addressed_iff`).

The library under both ends and its router are not part of the sources. What the sources say of them
is `LeanHttp.Documented` and `Mux.Documented`: of the paths that are not canonical they name `//a`
and `/a/../b`, which are refused (`hoplockserver/src/http.rs`) and route nowhere
(`api/src/tests.rs`).
-/

namespace Hop.Api

open Hop.Types (Job Map Task)
open Hop.Node (calls)
open Hop.Path (Segment Plain segments join dot dotdot segments_append segments_join)

variable {caught : List Char} {req : Request} {job : String}

/-- The library under both ends: the request target that its client sends for a URL, the path that
its server decodes, `none` if it turns them down, and which paths it takes for canonical. -/
structure LeanHttp where
  target : (url : List Char) → Option (List Char)
  decode : (path : List Char) → Option (List Char)
  canonical : (path : List Char) → Bool

/-- Scheme and host of a URL. -/
def Origin (o : List Char) : Prop :=
  ∃ scheme authority, o = scheme ++ "://".toList ++ authority ∧ ':' ∉ scheme ∧ '/' ∉ authority

/-- What is known of the library: the target is the path and the query of the URL as they stand,
of a fragment nothing or everything is sent, decoding changes nothing but escapes, which it makes
shorter, and the handler sees canonical paths only. Canonical is a path of plain segments, and one
with two slashes in a row or with `..` between slashes is not. -/
structure LeanHttp.Documented (http : LeanHttp) : Prop where
  target : ∀ {origin path}, Origin origin → path.head? = some '/' → '#' ∉ path →
    http.target (origin ++ path) = some path
  fragment : ∀ {origin path}, Origin origin → path.head? = some '/' → '#' ∈ path →
    http.target (origin ++ path) = some path ∨
      http.target (origin ++ path) = some (path.takeWhile (· ≠ '#')) ∨
      http.target (origin ++ path) = none
  plain : ∀ {path}, '%' ∉ path → http.canonical path = true → http.decode path = some path
  shortens : ∀ {path decoded}, http.decode path = some decoded → decoded.length ≤ path.length
  canonical : ∀ {path decoded}, http.decode path = some decoded → http.canonical decoded = true
  plainSegments : ∀ {names : List Segment}, names ≠ [] → (∀ n ∈ names, Plain n) →
    http.canonical ('/' :: join names) = true
  doubled : ∀ {path}, "//".toList <:+: path → http.canonical path = false
  dotted : ∀ {path}, "/../".toList <:+: path → http.canonical path = false

/-- What a path puts into the wildcard of a pattern that it fits. -/
def Pattern.values (path : List Char) : Pattern → Option (List (String × List Char))
  | .exact p => if path = p.toList then some [] else none
  | .below p => (p.toList.isPrefixOf? path).map fun _ => []
  | .rest p name => (p.toList.isPrefixOf? path).map fun caught => [(name, caught)]

/-- What is known of the router: the table of the agent registers, a canonical path that fits one
pattern of a table is routed there, and what is routed is canonical and fits. -/
structure Mux.Documented (mux : Mux Route) (canonical : List Char → Bool) : Prop where
  registers : Routes.new mux routes = some routes
  routed : ∀ {table method path e values}, canonical path = true → e ∈ table →
    e.1.values path = some values → (∀ e' ∈ table, e'.1.values path ≠ none → e' = e) →
    mux.find table method path = some (.route e.2 values)
  fits : ∀ {table method path route values},
    mux.find table method path = some (.route route values) → canonical path = true ∧
      ∃ pattern, (pattern, route) ∈ table ∧ pattern.values path = some values

/-- A leader, and the agent of another node. -/
structure Peer where
  http : LeanHttp
  api : NodeApi
  /-- The address that the agent registered. -/
  endpoint : String

/-- `trim_end_matches('/')`. -/
def trimSlashes (s : List Char) : List Char := (s.reverse.dropWhile (· = '/')).reverse

namespace Peer

/-- The URL of a path. -/
def url (p : Peer) (path : List Char) : List Char := trimSlashes p.endpoint.toList ++ path

/-- The request that arrives for a signed call. -/
def request (p : Peer) (method : Method) (path : List Char) (body : Option Bytes) : Option Request :=
  (p.http.target (p.url path)).bind fun target =>
    (p.http.decode (splitOnce '?' target).1).map fun decoded =>
      { method := method
        path := decoded
        query := (splitOnce '?' target).2.getD []
        auth := p.api.hash.signCall p.api.key method.asStr (p.url path) (body.getD [])
        body := body.getD [] }

/-- A signed call: the answer, if there is one, and the agent after it. -/
def call (p : Peer) (a : Node.Agent) (now : Nanos) (poolLargest : Option ℕ) (method : Method)
    (path : List Char) (body : Option Bytes) : Option Response × Node.Agent :=
  match p.request method path body with
  | none => (none, a)
  | some req =>
    let ((resp, _), a) := p.api.handle a now poolLargest req
    (some resp, a)

end Peer

def stopPath (job : String) : List Char := "/stop/".toList ++ job.toList

def deletePath (job : String) : List Char := "/delete/".toList ++ job.toList

/-- `Net::stop_job` for the agent of another node. -/
def Net.stopJob (p : Peer) (a : Node.Agent) (now : Nanos) (poolLargest : Option ℕ) (job : String) :
    Bool × Node.Agent :=
  let (resp, a) := p.call a now poolLargest .post (stopPath job) (some [])
  (resp.any fun r => r.status = 200, a)

/-- `Net::delete_job` for the agent of another node. -/
def Net.deleteJob (p : Peer) (a : Node.Agent) (now : Nanos) (poolLargest : Option ℕ) (job : String) :
    Node.Agent :=
  (p.call a now poolLargest .delete (deletePath job) none).2

/-- `Relay::stop_job`, as the dispatch task carries it out. -/
def Relay.stopJob (p : Peer) (a : Node.Agent) (now : Nanos) (poolLargest : Option ℕ) (job : String) :
    Node.Agent :=
  (p.call a now poolLargest .post (stopPath job) (some [])).2

/-- `Relay::delete_job`, as the dispatch task carries it out. -/
def Relay.deleteJob (p : Peer) (a : Node.Agent) (now : Nanos) (poolLargest : Option ℕ)
    (job : String) : Node.Agent :=
  (p.call a now poolLargest .delete (deletePath job) none).2

/-! ### The two operations -/

inductive Op
  | stop
  | delete
deriving DecidableEq

namespace Op

def method : Op → Method
  | .stop => .post
  | .delete => .delete

def path (job : String) : Op → List Char
  | .stop => stopPath job
  | .delete => deletePath job

def body : Op → Option Bytes
  | .stop => some []
  | .delete => none

def route : Op → Route
  | .stop => .stop
  | .delete => .delete

/-- The agent of another node after the call of the daemon. -/
def net (p : Peer) (a : Node.Agent) (now : Nanos) (poolLargest : Option ℕ) (job : String) :
    Op → Node.Agent
  | .stop => (Net.stopJob p a now poolLargest job).2
  | .delete => Net.deleteJob p a now poolLargest job

/-- The agent of another node after the call of the dispatch task. -/
def relay (p : Peer) (a : Node.Agent) (now : Nanos) (poolLargest : Option ℕ) (job : String) :
    Op → Node.Agent
  | .stop => Relay.stopJob p a now poolLargest job
  | .delete => Relay.deleteJob p a now poolLargest job

/-- The agent of the own node after the operation. -/
def own (a : Node.Agent) (now : Nanos) (job : String) : Op → Node.Agent
  | .stop => (a.stopJobTasks job).2
  | .delete => (a.deleteJob now job).2

/-- The definitions that the operation leaves. -/
def jobs (a : Node.Agent) (job : String) : Op → Map Job
  | .stop => a.jobs
  | .delete => a.jobs.erase job

variable {op : Op} {p : Peer} {a : Node.Agent} {now : Nanos} {poolLargest : Option ℕ} {job : String}

theorem net_eq : op.net p a now poolLargest job =
    (p.call a now poolLargest op.method (op.path job) op.body).2 := by
  cases op <;> rfl

theorem relay_eq : op.relay p a now poolLargest job =
    (p.call a now poolLargest op.method (op.path job) op.body).2 := by
  cases op <;> rfl

end Op

/-- **The agent of another node is addressed exactly**: whatever it has, the call does to it what it
does to the own agent, exactly the tasks of that job go (and its definition, if it is deleted), and
the call is answered with success. -/
def Addressed (p : Peer) (op : Op) (job : String) : Prop :=
  ∀ a now poolLargest, calls.Reachable a →
    op.net p a now poolLargest job = op.own a now job ∧
    op.relay p a now poolLargest job = op.own a now job ∧
    (op.own a now job).tasks = a.tasks.filterVal (fun e => e.task.jobName ≠ job) ∧
    (op.own a now job).jobs = op.jobs a job ∧
    (p.call a now poolLargest op.method (op.path job) op.body).1.any (fun r => r.status = 200) = true

/-- **The name gets through**: it has no `?`, its path is canonical, if it has a `%`, decoding leaves
the path as it is, and if it has a `#`, that is sent and signed as well. -/
def Clean (p : Peer) (op : Op) (job : String) : Prop :=
  '?' ∉ job.toList ∧ p.http.canonical (op.path job) = true ∧
    ('%' ∉ job.toList ∨ p.http.decode (op.path job) = some (op.path job)) ∧
    ('#' ∉ job.toList ∨ p.http.target (p.url (op.path job)) = some (op.path job) ∧
      (p.api.key = [] ∨ p.api.hash.sign p.api.key op.method.asStr (pathOf (p.url (op.path job)))
          (op.body.getD []) =
        p.api.hash.sign p.api.key op.method.asStr (op.path job) (op.body.getD [])))

/-! ### Texts -/

theorem isPrefixOf?_eq_some_iff {l s t : List Char} : l.isPrefixOf? s = some t ↔ s = l ++ t := by
  induction l generalizing s with
  | nil => simp [List.isPrefixOf?, eq_comm]
  | cons c l ih =>
    cases s with
    | nil => simp [List.isPrefixOf?]
    | cons d s =>
      by_cases h : c = d
      · simp [List.isPrefixOf?, h, ih]
      · simp [List.isPrefixOf?, h, Ne.symm h]

theorem constantTimeEq_iff {a b : Bytes} : constantTimeEq a b = true ↔ a = b := by
  have hfold : ∀ (ps : List (UInt8 × UInt8)) (acc : UInt8),
      ps.foldl (fun acc p => acc ||| (p.1 ^^^ p.2)) acc = 0 ↔ acc = 0 ∧ ∀ p ∈ ps, p.1 = p.2 := by
    intro ps
    induction ps with
    | nil => simp
    | cons p ps ih =>
      intro acc
      rw [List.foldl_cons, ih, UInt8.or_eq_zero_iff, UInt8.xor_eq_zero_iff, List.forall_mem_cons,
        and_assoc]
  unfold constantTimeEq
  split_ifs with hlen
  · exact iff_of_false id fun h => hlen (by rw [h])
  · rw [not_not] at hlen
    rw [decide_eq_true_iff, hfold]
    refine ⟨fun h => ?_, ?_⟩
    · have hall := h.2
      clear h hfold
      induction a generalizing b with
      | nil => exact (List.length_eq_zero_iff.mp hlen.symm).symm
      | cons x a ih =>
        obtain ⟨y, b, rfl⟩ := List.exists_cons_of_length_eq_add_one hlen.symm
        rw [List.zip_cons_cons, List.forall_mem_cons] at hall
        rw [show x = y from hall.1, ih (Nat.succ.inj hlen) hall.2]
    · rintro rfl
      refine ⟨rfl, fun p hp => ?_⟩
      induction a with
      | nil => cases hp
      | cons x a ih =>
        rcases List.mem_cons.mp hp with rfl | hp
        · rfl
        · exact ih rfl hp

/-- The text in front of a character that is there is shorter. -/
theorem length_takeWhile_lt {c : Char} {s : List Char} (h : c ∈ s) :
    (s.takeWhile (· ≠ c)).length < s.length := by
  induction s with
  | nil => cases h
  | cons d s ih =>
    by_cases hd : d = c
    · simp [hd]
    · rcases List.mem_cons.mp h with rfl | h
      · exact absurd rfl hd
      · simpa [List.takeWhile_cons, hd] using ih h

theorem takeWhile_eq_self {c : Char} {s : List Char} (h : c ∉ s) : s.takeWhile (· ≠ c) = s := by
  refine List.takeWhile_eq_self_iff.mpr fun d hd => ?_
  have hne : d ≠ c := by
    rintro rfl
    exact h hd
  simp [hne]

/-- Behind scheme and host of a URL is its path. -/
theorem afterScheme_append {origin path : List Char} (ho : Origin origin)
    (hp : path.head? = some '/') :
    ∃ after, afterScheme (origin ++ path) = some after ∧ after.dropWhile (· ≠ '/') = path := by
  obtain ⟨scheme, authority, rfl, hscheme, hauth⟩ := ho
  have hafter : ∀ rest, afterScheme (scheme ++ ':' :: '/' :: '/' :: rest) = some rest := by
    intro rest
    induction scheme with
    | nil => rfl
    | cons c scheme ih =>
      have hc : c ≠ ':' := by
        rintro rfl
        exact hscheme List.mem_cons_self
      have hstep : ∀ s, afterScheme (c :: s) = afterScheme s := by
        intro s
        rw [afterScheme]
        rintro rest ⟨⟩ -
        exact hc rfl
      rw [List.cons_append, hstep]
      exact ih fun h => hscheme (List.mem_cons_of_mem _ h)
  have hurl : scheme ++ "://".toList ++ authority ++ path =
      scheme ++ ':' :: '/' :: '/' :: (authority ++ path) := by simp
  refine ⟨authority ++ path, by rw [hurl, hafter], ?_⟩
  obtain ⟨rest, rfl⟩ : ∃ rest, path = '/' :: rest := by
    cases path with
    | nil => cases hp
    | cons c rest => exact ⟨rest, by rw [show c = '/' from Option.some.inj hp]⟩
  rw [List.dropWhile_append_of_pos]
  · simp
  · intro c hc
    have hne : c ≠ '/' := by
      rintro rfl
      exact hauth hc
    simp [hne]

/-- The path of the URL of a path. -/
theorem pathOf_append {origin path : List Char} (ho : Origin origin) (hp : path.head? = some '/') :
    pathOf (origin ++ path) = path.takeWhile fun c => c ≠ '?' ∧ c ≠ '#' := by
  obtain ⟨after, hafter, hpath⟩ := afterScheme_append ho hp
  unfold pathOf
  rw [hafter]
  dsimp only
  rw [hpath]

/-! ### The route of a call -/

section

variable {mux : Mux Route} {canonical : List Char → Bool}

/-- The path of an operation fits one pattern only. -/
theorem values_path (op : Op) (job : String) :
    ∃ e ∈ routes, e.2 = op.route ∧ e.1.values (op.path job) = some [("name", job.toList)] ∧
      ∀ e' ∈ routes, e'.1.values (op.path job) ≠ none → e' = e := by
  cases op with
  | stop =>
    refine ⟨(.rest "/stop/" "name", .stop), by decide, rfl, rfl, ?_⟩
    unfold routes
    simp only [List.forall_mem_cons]
    repeat' apply And.intro
    all_goals first
      | exact fun h => absurd rfl h
      | exact fun _ => trivial
      | exact fun _ h => absurd h List.not_mem_nil
  | delete =>
    refine ⟨(.rest "/delete/" "name", .delete), by decide, rfl, rfl, ?_⟩
    unfold routes
    simp only [List.forall_mem_cons]
    repeat' apply And.intro
    all_goals first
      | exact fun h => absurd rfl h
      | exact fun _ => trivial
      | exact fun _ h => absurd h List.not_mem_nil

theorem find_path (hmux : mux.Documented canonical) (op : Op)
    (hcanonical : canonical (op.path job) = true) (hpath : req.path = op.path job) :
    Routes.find mux (Routes.new mux routes) req = .hit op.route [("name", job.toList)] := by
  obtain ⟨e, he, hroute, hvalues, honly⟩ := values_path op job
  unfold Routes.find
  rw [hmux.registers, hpath]
  dsimp only
  rw [hmux.routed hcanonical he hvalues honly, hroute]

/-- What is known of a path from its route. -/
theorem find_hit {route : Route} {values : List (String × List Char)} (hmux : mux.Documented canonical)
    (h : Routes.find mux (Routes.new mux routes) req = .hit route values) :
    ∃ pattern, (pattern, route) ∈ routes ∧ pattern.values req.path = some values := by
  unfold Routes.find at h
  rw [hmux.registers] at h
  dsimp only at h
  split at h
  · rename_i hfind
    cases h
    exact (hmux.fits hfind).2
  · cases h
  · cases h
  · cases h

/-- What is known of a path that is routed to an operation. -/
theorem path_of_find {values : List (String × List Char)} (hmux : mux.Documented canonical) (op : Op)
    (h : Routes.find mux (Routes.new mux routes) req = .hit op.route values)
    (hname : Routes.value values "name" = job.toList) : req.path = op.path job := by
  obtain ⟨pattern, hmem, hvalues⟩ := find_hit hmux h
  cases op with
  | stop =>
    obtain rfl : pattern = .rest "/stop/" "name" := by simpa [routes, Op.route] using hmem
    obtain ⟨caught, hcaught, rfl⟩ := Option.map_eq_some_iff.mp hvalues
    rw [isPrefixOf?_eq_some_iff.mp hcaught, show caught = job.toList from hname]
    rfl
  | delete =>
    obtain rfl : pattern = .rest "/delete/" "name" := by simpa [routes, Op.route] using hmem
    obtain ⟨caught, hcaught, rfl⟩ := Option.map_eq_some_iff.mp hvalues
    rw [isPrefixOf?_eq_some_iff.mp hcaught, show caught = job.toList from hname]
    rfl

end

/-! ### What the own agent does -/

theorem own_tasks (op : Op) (a : Node.Agent) (now : Nanos) (job : String) :
    (op.own a now job).tasks = a.tasks.filterVal (fun e => e.task.jobName ≠ job) ∧
      (op.own a now job).jobs = op.jobs a job := by
  have hstop : ∀ b : Node.Agent,
      (b.stopEach (b.idsOfJob job)).tasks = b.tasks.filterVal (fun e => e.task.jobName ≠ job) ∧
        (b.stopEach (b.idsOfJob job)).jobs = b.jobs := by
    intro b
    have hdrops := Node.Agent.stopEach_drops (b.idsOfJob job) b
    refine ⟨SortedMap.ext_get? fun id => ?_, hdrops.jobs⟩
    rw [SortedMap.get?_filterVal]
    by_cases hid : id ∈ b.idsOfJob job
    · obtain ⟨e, he, hname⟩ := Node.Agent.mem_idsOfJob.mp hid
      rw [hdrops.gone hid, he, Option.filter_some, if_neg (by simp [hname])]
    · rw [hdrops.kept hid]
      cases he : b.tasks.get? id with
      | none => rfl
      | some e =>
        have hname : e.task.jobName ≠ job := fun hname =>
          hid (Node.Agent.mem_idsOfJob.mpr ⟨e, he, hname⟩)
        rw [Option.filter_some, if_pos (by simp [hname])]
  cases op with
  | stop => exact hstop a
  | delete =>
    exact hstop { a with
      jobs := a.jobs.erase job, refused := a.refused.filter (· ≠ job), stateTime := now }

/-! ### A call that arrives as it was meant -/

/-- What the handler does with the path of the operation. -/
theorem serve_path {canonical : List Char → Bool} (api : NodeApi)
    (hmux : api.mux.Documented canonical) (op : Op) (a : Node.Agent) (now : Nanos)
    (poolLargest : Option ℕ) (hjob : job ≠ "") (hcanonical : canonical (op.path job) = true)
    (hpath : req.path = op.path job) (hmethod : req.method = op.method)
    (hauth : api.checkAuth req = none) :
    (api.handle a now poolLargest req).2 = op.own a now job ∧
      (api.handle a now poolLargest req).1.1.status = 200 := by
  have hname : job.toList ≠ [] := by
    intro h
    exact hjob (String.toList_inj.mp (by rw [h]; rfl))
  have hvalue : Routes.value [("name", job.toList)] "name" = job.toList := rfl
  unfold NodeApi.handle
  rw [find_path hmux op hcanonical hpath]
  dsimp only
  rw [hauth, hmethod]
  cases op <;>
    simp [Op.method, Op.route, NodeApi.serve, delete, stop, removal, hmethod, hname, hvalue, Op.own]

/-! ### A call that arrives otherwise -/

/-- An agent with one task of the job, under an id that no request can name. -/
def holder (job : String) : Node.Agent :=
  (Node.Agent.new { id := "" }).adopt [] [{ id := "", jobName := job }]

theorem holder_reachable (job : String) : calls.Reachable (holder job) :=
  ⟨.new { id := "" }, [.adopt [] [{ id := "", jobName := job }]], ⟨{ id := "" }, rfl⟩, rfl⟩

/-- The holder of a task of the job has it still, unless its job is named. -/
theorem holder_keeps (job name : String) (h : name ≠ job) (now : Nanos) (op : Op) :
    ((op.own (holder job) now name).tasks.get? "").isSome = true := by
  rw [(own_tasks op (holder job) now name).1, SortedMap.get?_filterVal]
  have hget : (holder job).tasks.get? "" =
      some { task := { id := "", jobName := job }, firstStart := false } := rfl
  rw [hget, Option.filter_some, if_pos (by simpa using Ne.symm h)]
  rfl

theorem holder_loses (job : String) (now : Nanos) (op : Op) :
    (op.own (holder job) now job).tasks.get? "" = none := by
  rw [(own_tasks op (holder job) now job).1, SortedMap.get?_filterVal]
  have hget : (holder job).tasks.get? "" =
      some { task := { id := "", jobName := job }, firstStart := false } := rfl
  rw [hget, Option.filter_some, if_neg (by simp)]

/-- A handler that removes takes the task away only if it is told to, under the name of its job. -/
theorem removal_removed {method : Method} {key : String} {remove : String → ℕ × Node.Agent}
    (hkeep : ∀ name, name ≠ job → ((remove name).2.tasks.get? "").isSome = true)
    (h : (removal method key remove (holder job) req caught).2.tasks.get? "" = none) :
    req.method = method ∧ caught = job.toList := by
  have hkept : ((holder job).tasks.get? "").isSome = true := rfl
  unfold removal at h
  split_ifs at h with hmethod hname
  · rw [h] at hkept
    cases hkept
  · rw [h] at hkept
    cases hkept
  · refine ⟨not_not.mp hmethod, ?_⟩
    by_contra hne
    have hother : String.ofList caught ≠ job := by
      rintro rfl
      exact hne String.toList_ofList.symm
    have hsome := hkeep _ hother
    rw [h] at hsome
    cases hsome

theorem serve_removed (api : NodeApi) (op : Op) (now : Nanos) (poolLargest : Option ℕ)
    {route : Route} {values : List (String × List Char)} (hmethod : req.method = op.method)
    (hbody : req.body = [])
    (h : (api.serve (holder job) now poolLargest req route values).2.tasks.get? "" = none) :
    route = op.route ∧ Routes.value values "name" = job.toList := by
  have hkept : (holder job).tasks.get? "" ≠ none := by
    intro h
    cases h
  cases route with
  | run =>
    refine absurd ?_ hkept
    rw [← h]
    have hjson : ∃ e, Job.fromJson [] = .error e := ⟨_, rfl⟩
    obtain ⟨e, he⟩ := hjson
    unfold NodeApi.serve run
    simp only [hbody, he]
    split_ifs <;> rfl
  | delete =>
    obtain ⟨hdelete, hcaught⟩ :=
      removal_removed (fun name hne => holder_keeps job name hne now .delete) h
    rw [hmethod] at hdelete
    cases op with
    | stop => cases hdelete
    | delete => exact ⟨rfl, hcaught⟩
  | stop =>
    obtain ⟨hstop, hcaught⟩ :=
      removal_removed (fun name hne => holder_keeps job name hne now .stop) h
    rw [hmethod] at hstop
    cases op with
    | stop => exact ⟨rfl, hcaught⟩
    | delete => cases hstop
  | stopTask =>
    refine absurd ?_ hkept
    rw [← h]
    have hother : ∀ id, id ≠ "" → ((holder job).stopTask id).2 = holder job := by
      intro id hid
      have hnone : (holder job).tasks.get? id = none := by
        show ((SortedMap.empty : Map Node.Entry).insert "" _).get? id = none
        rw [SortedMap.get?_insert, if_neg (Ne.symm hid)]
        rfl
      unfold Node.Agent.stopTask Node.Agent.removeAndStop
      rw [hnone]
    unfold NodeApi.serve stopTask
    dsimp only
    split_ifs with hpost hid
    · rfl
    · rfl
    · have hne : String.ofList (Routes.value values "id") ≠ "" := by
        intro heq
        refine hid ?_
        rw [← String.toList_ofList (l := Routes.value values "id"), heq]
        rfl
      have hsame := hother _ hne
      split <;> (rename_i heq; rw [heq] at hsame; rw [← hsame])
  | _ => exact absurd h hkept

/-- **Only the path of the job takes the task away**, and only if its signature is right. -/
theorem arrives_of_removed {canonical : List Char → Bool} (api : NodeApi)
    (hmux : api.mux.Documented canonical) (op : Op) (now : Nanos) (poolLargest : Option ℕ)
    (hmethod : req.method = op.method) (hbody : req.body = [])
    (h : (api.handle (holder job) now poolLargest req).2.tasks.get? "" = none) :
    req.path = op.path job ∧ api.checkAuth req = none := by
  have hkept : (holder job).tasks.get? "" ≠ none := by
    intro h
    cases h
  have hoptions : req.method ≠ .options := by
    rw [hmethod]
    cases op <;> decide
  unfold NodeApi.handle at h
  rw [if_neg hoptions] at h
  cases hfind : Routes.find api.mux (Routes.new api.mux routes) req with
  | broken =>
    rw [hfind] at h
    exact absurd h hkept
  | miss =>
    rw [hfind] at h
    dsimp only at h
    split at h <;> exact absurd h hkept
  | hit route values =>
    rw [hfind] at h
    dsimp only at h
    split at h
    · exact absurd h hkept
    · rename_i hauth
      obtain ⟨rfl, hname⟩ := serve_removed api op now poolLargest hmethod hbody h
      have hclosed : ¬ (op.route = .health ∨ op.route = .leader) := by cases op <;> decide
      rw [if_neg hclosed] at hauth
      exact ⟨path_of_find hmux op hfind hname, hauth⟩

/-! ### When a call arrives as it was meant -/

section

variable {p : Peer} {op : Op} {job : String}

theorem path_head (op : Op) (job : String) : (op.path job).head? = some '/' := by
  cases op <;> rfl

theorem mem_path_iff {c : Char} (hstop : c ∉ "/stop/".toList) (hdelete : c ∉ "/delete/".toList) :
    c ∈ op.path job ↔ c ∈ job.toList := by
  cases op with
  | stop => exact List.mem_append.trans (or_iff_right hstop)
  | delete => exact List.mem_append.trans (or_iff_right hdelete)

/-- What arrives is shorter if the name is cut somewhere. -/
theorem decode_ne_of_cut {path target : List Char} {c : Char} (hp : p.http.Documented)
    (hlen : target.length ≤ (path.takeWhile (· ≠ c)).length) (hc : c ∈ path) :
    p.http.decode target ≠ some path := by
  intro h
  have hshort := hp.shortens h
  have hcut := length_takeWhile_lt hc
  omega

/-- The header of the call is right for the path of the operation. -/
theorem checkAuth_path (hmethod : req.method = op.method) (hpath : req.path = op.path job)
    (hbody : req.body = op.body.getD [])
    (hheader : req.auth = p.api.hash.signCall p.api.key op.method.asStr (p.url (op.path job))
      (op.body.getD [])) :
    p.api.checkAuth req = none ↔ p.api.key = [] ∨
      p.api.hash.sign p.api.key op.method.asStr (pathOf (p.url (op.path job))) (op.body.getD []) =
        p.api.hash.sign p.api.key op.method.asStr (op.path job) (op.body.getD []) := by
  have hsmall : ¬ maxBodyBytes < (op.body.getD []).length := by cases op <;> decide
  have hname : op.method.asStr ≠ "" := by cases op <;> decide
  unfold NodeApi.checkAuth Hash.verify
  rw [hmethod, hpath, hbody, hheader]
  unfold Hash.signCall
  by_cases hkey : p.api.key = []
  · simp [hkey]
  · rw [if_neg hkey, if_neg hkey, if_neg hsmall, if_neg hname, Option.getD_some]
    by_cases hsame : p.api.hash.sign p.api.key op.method.asStr (pathOf (p.url (op.path job)))
        (op.body.getD []) =
      p.api.hash.sign p.api.key op.method.asStr (op.path job) (op.body.getD [])
    · rw [if_pos (constantTimeEq_iff.mpr hsame.symm)]
      simp [hsame]
    · rw [if_neg fun h => hsame (constantTimeEq_iff.mp h).symm]
      simp [hkey, hsame]

/-- The call arrives at the job of that very name, with a signature that is right. -/
def Arrives (p : Peer) (op : Op) (job : String) : Prop :=
  ∃ req, p.request op.method (op.path job) op.body = some req ∧ req.path = op.path job ∧
    p.api.checkAuth req = none

theorem request_eq_some : p.request op.method (op.path job) op.body = some req ↔
    ∃ target decoded, p.http.target (p.url (op.path job)) = some target ∧
      p.http.decode (target.takeWhile (· ≠ '?')) = some decoded ∧
      req = { method := op.method
              path := decoded
              query := (splitOnce '?' target).2.getD []
              auth := p.api.hash.signCall p.api.key op.method.asStr (p.url (op.path job))
                (op.body.getD [])
              body := op.body.getD [] } := by
  unfold Peer.request
  constructor
  · intro h
    obtain ⟨target, htarget, h⟩ := Option.bind_eq_some_iff.mp h
    obtain ⟨decoded, hdecoded, rfl⟩ := Option.map_eq_some_iff.mp h
    exact ⟨target, decoded, htarget, hdecoded, rfl⟩
  · rintro ⟨target, decoded, htarget, hdecoded, rfl⟩
    rw [htarget, Option.bind_some, splitOnce, hdecoded]
    rfl

/-- **A call arrives exactly if the name is clean.** -/
theorem arrives_iff (hp : p.http.Documented) (ho : Origin (trimSlashes p.endpoint.toList)) :
    Arrives p op job ↔ Clean p op job := by
  have hquery : '?' ∈ op.path job ↔ '?' ∈ job.toList := mem_path_iff (by decide) (by decide)
  have hfragment : '#' ∈ op.path job ↔ '#' ∈ job.toList := mem_path_iff (by decide) (by decide)
  have hsend := hp.target ho (path_head op job)
  constructor
  · rintro ⟨req, hreq, hpath, hauth⟩
    obtain ⟨target, decoded, htarget, hdecoded, rfl⟩ := request_eq_some.mp hreq
    obtain rfl : decoded = op.path job := hpath
    -- what was sent is the whole path, or it could not have arrived
    obtain rfl : target = op.path job := by
      by_cases hmem : '#' ∈ op.path job
      · rcases hp.fragment ho (path_head op job) hmem with h | h | h
        · exact Option.some.inj (htarget.symm.trans h)
        · obtain rfl := Option.some.inj (htarget.symm.trans h)
          exact absurd hdecoded (decode_ne_of_cut hp (List.takeWhile_prefix _).length_le hmem)
        · cases htarget.symm.trans h
      · exact Option.some.inj (htarget.symm.trans (hsend hmem))
    have hno : '?' ∉ op.path job := fun hmem =>
      decode_ne_of_cut hp (le_refl _) hmem hdecoded
    rw [takeWhile_eq_self hno] at hdecoded
    refine ⟨fun h => hno (hquery.mpr h), hp.canonical hdecoded, .inr hdecoded, ?_⟩
    by_cases hmem : '#' ∈ job.toList
    · exact .inr ⟨htarget, (checkAuth_path rfl rfl rfl rfl).mp hauth⟩
    · exact .inl hmem
  · rintro ⟨hno, hcanonical, hplain, hsigned⟩
    have hno' : '?' ∉ op.path job := fun h => hno (hquery.mp h)
    have hdecoded : p.http.decode (op.path job) = some (op.path job) := by
      rcases hplain with hescape | hdecoded
      · exact hp.plain (fun h => hescape ((mem_path_iff (by decide) (by decide)).mp h)) hcanonical
      · exact hdecoded
    have htarget : p.http.target (p.url (op.path job)) = some (op.path job) := by
      rcases hsigned with hmem | ⟨htarget, -⟩
      · exact hsend fun h => hmem (hfragment.mp h)
      · exact htarget
    have hdecode : p.http.decode ((op.path job).takeWhile (· ≠ '?')) = some (op.path job) := by
      rw [takeWhile_eq_self hno', hdecoded]
    refine ⟨_, request_eq_some.mpr ⟨_, _, htarget, hdecode, rfl⟩, rfl, ?_⟩
    refine (checkAuth_path rfl rfl rfl rfl).mpr ?_
    rcases hsigned with hmem | ⟨-, hsigned⟩
    · refine .inr ?_
      have hwhole : pathOf (p.url (op.path job)) = op.path job := by
        unfold Peer.url
        rw [pathOf_append ho (path_head op job)]
        refine List.takeWhile_eq_self_iff.mpr fun c hc => ?_
        rw [decide_eq_true_iff]
        constructor
        · rintro rfl
          exact hno' hc
        · rintro rfl
          exact hmem (hfragment.mp hc)
      rw [hwhole]
    · exact hsigned

end

/-! ### Names that get through, and names that do not -/

section

variable {p : Peer} {job : String}

/-- A name gets through if it has none of the three signs and its segments are plain. -/
theorem clean_of_plain (hp : p.http.Documented) (op : Op) {names : List Segment}
    (hname : job.toList = join names) (hne : names ≠ []) (hplain : ∀ n ∈ names, Plain n)
    (hsigns : '?' ∉ job.toList ∧ '%' ∉ job.toList ∧ '#' ∉ job.toList) : Clean p op job := by
  have hjoin : ∀ first : Segment, '/' :: join (first :: names) = '/' :: first ++ '/' :: job.toList := by
    obtain ⟨next, rest, rfl⟩ := List.exists_cons_of_ne_nil hne
    intro first
    rw [hname, join, List.intercalate_cons_cons, List.append_assoc]
    rfl
  have hcanonical : ∀ first, Plain first → p.http.canonical ('/' :: first ++ '/' :: job.toList) = true :=
    fun first hfirst => hjoin first ▸ hp.plainSegments (List.cons_ne_nil first names)
      (List.forall_mem_cons.mpr ⟨hfirst, hplain⟩)
  refine ⟨hsigns.1, ?_, .inl hsigns.2.1, .inl hsigns.2.2⟩
  cases op with
  | stop => exact hcanonical "stop".toList ⟨by decide, by decide, by decide, by decide⟩
  | delete => exact hcanonical "delete".toList ⟨by decide, by decide, by decide, by decide⟩

/-- A name that begins with a slash or doubles one does not get through. -/
theorem not_clean_of_doubled (hp : p.http.Documented) {op : Op}
    (h : "//".toList <:+: '/' :: job.toList) : ¬ Clean p op job := by
  rintro ⟨-, hcanonical, -⟩
  have htail : '/' :: job.toList <:+ op.path job := by
    cases op with
    | stop => exact ⟨"/stop".toList, rfl⟩
    | delete => exact ⟨"/delete".toList, rfl⟩
  rw [hp.doubled (h.trans htail.isInfix)] at hcanonical
  cases hcanonical

/-- A name with two dots between slashes does not get through. -/
theorem not_clean_of_dotted (hp : p.http.Documented) {op : Op}
    (h : "/../".toList <:+: '/' :: job.toList) : ¬ Clean p op job := by
  rintro ⟨-, hcanonical, -⟩
  have htail : '/' :: job.toList <:+ op.path job := by
    cases op with
    | stop => exact ⟨"/stop".toList, rfl⟩
    | delete => exact ⟨"/delete".toList, rfl⟩
  rw [hp.dotted (h.trans htail.isInfix)] at hcanonical
  cases hcanonical

end

/-! ### A library that does what is known of it -/

/-- Whether a path begins with a slash and its segments behind that are neither empty nor dots. -/
def isCanonical (path : List Char) : Bool :=
  path.head? = some '/' ∧ ∀ seg ∈ (segments path).tail, seg ≠ [] ∧ seg ≠ dot ∧ seg ≠ dotdot

/-- A client that does not send the fragment, and a server that takes canonical paths without
escapes. -/
def plainHttp : LeanHttp where
  target url := (afterScheme url).map fun after =>
    (after.dropWhile (· ≠ '/')).takeWhile (· ≠ '#')
  decode path := if '%' ∉ path ∧ isCanonical path = true then some path else none
  canonical := isCanonical

/-- The first pattern of a table that a path fits, with its values. -/
def firstFit (table : List (Pattern × Route)) (path : List Char) : Option (Found Route) :=
  table.findSome? fun e => (e.1.values path).map (Found.route e.2)

/-- A router that takes the first pattern that a canonical path fits. -/
def plainMux : Mux Route where
  registers _ _ := true
  find table _ path := some (if isCanonical path then (firstFit table path).getD .notFound else .notFound)

theorem isCanonical_join {names : List Segment} (hne : names ≠ []) (h : ∀ n ∈ names, Plain n) :
    isCanonical ('/' :: join names) = true := by
  have hsegments : segments ('/' :: join names) = [] :: names := by
    have hsplit := segments_append [] (join names)
    rw [segments_join hne h] at hsplit
    exact hsplit
  rw [isCanonical, hsegments, decide_eq_true_iff]
  exact ⟨rfl, fun n hn => ⟨(h n hn).ne_nil, (h n hn).ne_dot, (h n hn).ne_dotdot⟩⟩

/-- A path with a segment between slashes that is empty, or dots. -/
theorem isCanonical_between {s t x : List Char} (hx : x = [] ∨ x = dotdot) :
    isCanonical (s ++ '/' :: (x ++ '/' :: t)) = false := by
  have hsingle : segments x = [x] := by
    rcases hx with rfl | rfl
    · rfl
    · exact List.splitOn_eq_singleton (by decide)
  have hmem : x ∈ (segments (s ++ '/' :: (x ++ '/' :: t))).tail := by
    rw [segments_append, segments_append, hsingle,
      List.tail_append_of_ne_nil (show segments s ≠ [] from List.splitOn_ne_nil '/' s)]
    exact List.mem_append_right _ List.mem_cons_self
  rw [isCanonical, decide_eq_false_iff_not]
  rintro ⟨-, hall⟩
  obtain ⟨hne, -, hdots⟩ := hall x hmem
  exact hx.elim hne hdots

theorem decode_eq_some {path decoded : List Char} :
    plainHttp.decode path = some decoded ↔ ('%' ∉ path ∧ isCanonical path = true) ∧ path = decoded := by
  rw [plainHttp, Option.ite_none_right_eq_some, Option.some.injEq]

theorem plainHttp_documented : plainHttp.Documented where
  target ho hp hno := by
    obtain ⟨after, hafter, hpath⟩ := afterScheme_append ho hp
    show (afterScheme _).map _ = _
    rw [hafter, Option.map_some, hpath, takeWhile_eq_self hno]
  fragment ho hp _ := by
    obtain ⟨after, hafter, hpath⟩ := afterScheme_append ho hp
    refine .inr (.inl ?_)
    show (afterScheme _).map _ = _
    rw [hafter, Option.map_some, hpath]
  plain hplain hcanonical := if_pos ⟨hplain, hcanonical⟩
  shortens h := by
    obtain ⟨-, rfl⟩ := decode_eq_some.mp h
    exact le_rfl
  canonical h := by
    obtain ⟨⟨-, hcanonical⟩, rfl⟩ := decode_eq_some.mp h
    exact hcanonical
  plainSegments := isCanonical_join
  doubled h := by
    obtain ⟨s, t, rfl⟩ := h
    rw [List.append_assoc]
    exact isCanonical_between (x := []) (.inl rfl)
  dotted h := by
    obtain ⟨s, t, rfl⟩ := h
    rw [List.append_assoc]
    exact isCanonical_between (.inr rfl)

theorem plainMux_documented : plainMux.Documented isCanonical where
  registers := rfl
  routed := by
    intro table method path e values hcanonical he hvalues honly
    have hfirst : firstFit table path = some (.route e.2 values) := by
      have hsome : (firstFit table path).isSome = true :=
        List.findSome?_isSome_iff.mpr ⟨e, he, by rw [hvalues]; rfl⟩
      obtain ⟨found, hfound⟩ := Option.isSome_iff_exists.mp hsome
      obtain ⟨e', he', hfits⟩ := List.exists_of_findSome?_eq_some hfound
      have hsame : e' = e := honly e' he' fun hnone => by
        rw [hnone] at hfits
        cases hfits
      rw [hsame, hvalues, Option.map_some] at hfits
      rw [hfound, hfits]
    show some (if isCanonical path = true then _ else _) = _
    rw [if_pos hcanonical, hfirst, Option.getD_some]
  fits := by
    intro table method path route values h
    have hfind : (if isCanonical path = true then (firstFit table path).getD .notFound
        else .notFound) = .route route values := Option.some.inj h
    split_ifs at hfind with hcanonical
    refine ⟨hcanonical, ?_⟩
    cases hfirst : firstFit table path with
    | none =>
      rw [hfirst] at hfind
      cases hfind
    | some found =>
      rw [hfirst, Option.getD_some] at hfind
      obtain ⟨e, he, hfits⟩ := List.exists_of_findSome?_eq_some hfirst
      obtain ⟨values', hvalues, hroute⟩ := Option.map_eq_some_iff.mp hfits
      cases hroute.trans hfind
      exact ⟨e.1, he, hvalues⟩

/-- An agent at an address, with a key. -/
def peer : Peer where
  http := plainHttp
  api := { hash := ⟨fun b => b, fun k m => k ++ m⟩, mux := plainMux, key := [7], flipEnabled := false }
  endpoint := "http://10.0.0.2:8080"

theorem peer_origin : Origin (trimSlashes peer.endpoint.toList) :=
  ⟨"http".toList, "10.0.0.2:8080".toList, by decide, by decide, by decide⟩

end Hop.Api
