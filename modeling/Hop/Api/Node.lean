import Hop.Node.Charges
import Hop.Types.JobJson

/-!
# The interface of an agent on the net

`auth/src/lib.rs` (the signature of a request) and `api/src/node.rs` (the routes of an agent and
what they do to it). A request is what the server reads off the wire: its path is decoded and has
no query. The hash functions are parameters, so is the router (`leanhttp::Mux`, which is not part of
the sources), and so is everything that the answers report of the state of the agent.
-/

namespace Hop.Api

open Hop.Types (Job)
open Hop.Types.Json (Value)

/-! ### Signatures -/

/-- The hash functions of the crate `auth`. -/
structure Hash where
  sha256 : Bytes → Bytes
  hmac : (key message : Bytes) → Bytes

/-- The largest body that is checked. -/
def maxBodyBytes : ℕ := 512 * 2 ^ 10

/-- Bytes as lower-case hex digits. -/
def hex (bs : Bytes) : Bytes :=
  bs.flatMap fun b => [Types.Json.hexDigit (b.toNat / 16), Types.Json.hexDigit (b.toNat % 16)]

namespace Hash

/-- The signature of `METHOD \n PATH \n hex(sha256(body))`. -/
def sign (h : Hash) (key : Bytes) (method : String) (path : List Char) (body : Bytes) : Bytes :=
  hex (h.hmac key (utf8 method ++ [10] ++ utf8Chars path ++ [10] ++ hex (h.sha256 body)))

end Hash

/-- What follows the first `://`. -/
def afterScheme : List Char → Option (List Char)
  | ':' :: '/' :: '/' :: rest => some rest
  | _ :: rest => afterScheme rest
  | [] => none

/-- The path of a URL: without scheme and host, without query and fragment. -/
def pathOf (url : List Char) : List Char :=
  let rest := match afterScheme url with
    | some after => after.dropWhile (· ≠ '/')
    | none => url
  rest.takeWhile fun c => c ≠ '?' ∧ c ≠ '#'

/-- The signature of a request that goes out, or none without a key. -/
def Hash.signCall (h : Hash) (key : Bytes) (method : String) (url : List Char) (body : Bytes) :
    Option Bytes :=
  if key = [] then none
  else some (h.sign key (if method = "" then "GET" else method) (pathOf url) body)

/-- Whether two rows of bytes are equal, in time that does not depend on what they are. -/
def constantTimeEq (a b : Bytes) : Bool :=
  if a.length ≠ b.length then false
  else (a.zip b).foldl (fun acc p => acc ||| (p.1 ^^^ p.2)) (0 : UInt8) = 0

/-- Why a request is turned down. -/
inductive Rejection
  | bodyTooLarge (len : ℕ)
  | unauthorized
deriving DecidableEq

/-- Check a request that came in. -/
def Hash.verify (h : Hash) (key : Bytes) (method : String) (path : List Char) (body : Bytes)
    (header : Option Bytes) : Except Rejection Unit :=
  if key = [] then .ok ()
  else if maxBodyBytes < body.length then .error (.bodyTooLarge body.length)
  else if constantTimeEq (h.sign key method path body) (header.getD []) then .ok ()
  else .error .unauthorized

/-! ### Requests and answers -/

inductive Method
  | get
  | post
  | delete
  | patch
  | options
  | other
deriving DecidableEq

def Method.asStr : Method → String
  | .get => "GET"
  | .post => "POST"
  | .delete => "DELETE"
  | .patch => "PATCH"
  | .options => "OPTIONS"
  | .other => "OTHER"

/-- A request as the server read it. -/
structure Request where
  method : Method
  /-- The decoded path, without the query. -/
  path : List Char
  query : List Char
  /-- The header `X-Hop-Auth`. -/
  auth : Option Bytes
  body : Bytes

/-- The text in front of the first `c`, and what follows it. -/
def splitOnce (c : Char) (s : List Char) : List Char × Option (List Char) :=
  (s.takeWhile (· ≠ c), (s.dropWhile (· ≠ c)).tail?)

/-- A parameter of the query. -/
def Request.queryParam (req : Request) (name : List Char) : Option (List Char) :=
  (req.query.splitOn '&').findSome? fun kv =>
    let (k, v) := splitOnce '=' kv
    if k = name then some (v.getD []) else none

/-- What an answer carries. -/
inductive Body
  | empty
  | error (msg : String)
  | fields (pairs : List (String × Value))
  /-- A report of the state of the agent. -/
  | report

structure Response where
  status : ℕ
  body : Body

def Response.error (status : ℕ) (msg : String) : Response := ⟨status, .error msg⟩

inductive LogStream
  | stdout
  | stderr

/-- What is left to do after the answer. -/
inductive Effect
  | none
  | proxy (leader : String) (stream : Bool)
  | logs (taskId : List Char) (stream : LogStream)
  | flip (url sha256 : String)
  | restart (url sha256 : String)

/-! ### The routes -/

inductive Route
  | health
  | leader
  | proxy
  | logs
  | capacity
  | tasks
  | run
  | flip
  | restart
  | delete
  | stop
  | stopTask
deriving DecidableEq

/-- A pattern of a route table. -/
inductive Pattern
  | exact (path : String)
  /-- Everything below a path that ends in a slash. -/
  | below (path : String)
  /-- A wildcard after the path: it catches the rest under its name. -/
  | rest (path name : String)
deriving DecidableEq

/-- What a router found: a route, with the values of its wildcards, or nothing. -/
inductive Found (T : Type)
  | route (value : T) (values : List (String × List Char))
  | notFound
  | methodNotAllowed

/-- The router: whether a pattern registers behind those that are there, and what the table that was
registered finds for a method and a path; `none` when it has no memory for it. -/
structure Mux (T : Type) where
  registers : List (Pattern × T) → Pattern → Bool
  find : List (Pattern × T) → (method : String) → (path : List Char) → Option (Found T)

/-- What the lookup for a request found. -/
inductive Lookup (T : Type)
  | hit (value : T) (values : List (String × List Char))
  | miss
  /-- The table did not register, or the lookup had no memory. -/
  | broken

namespace Routes

variable {T : Type}

/-- Register a table in order; `none` if a pattern does not register. -/
def new (mux : Mux T) (table : List (Pattern × T)) : Option (List (Pattern × T)) :=
  table.foldlM (fun done e => if mux.registers done e.1 then some (done ++ [e]) else none) []

/-- The route for the method and the path of a request. -/
def find (mux : Mux T) (routes : Option (List (Pattern × T))) (req : Request) : Lookup T :=
  match routes with
  | none => .broken
  | some table =>
    match mux.find table req.method.asStr req.path with
    | some (.route value values) => .hit value values
    | some .notFound => .miss
    | some .methodNotAllowed => .miss
    | none => .broken

/-- The value of a wildcard, or the empty text. -/
def value (values : List (String × List Char)) (name : String) : List Char :=
  ((values.find? fun v => v.1 = name).map Prod.snd).getD []

end Routes

/-- The route table of an agent. -/
def routes : List (Pattern × Route) :=
  [(.exact "/health", .health), (.exact "/leader", .leader),
    (.exact "/v1/agents", .proxy), (.below "/v1/agents/", .proxy),
    (.exact "/v1/jobs", .proxy), (.below "/v1/jobs/", .proxy),
    (.exact "/v1/status", .proxy), (.exact "/v1/tasks", .proxy), (.exact "/v1/events", .proxy),
    (.rest "/logs/" "rest", .logs), (.exact "/capacity", .capacity), (.exact "/tasks", .tasks),
    (.exact "/run", .run), (.exact "/flip", .flip), (.exact "/restart", .restart),
    (.rest "/delete/" "name", .delete), (.rest "/stop/" "name", .stop),
    (.rest "/stop-task/" "id", .stopTask)]

/-- The largest body that is passed on to the leader. -/
def proxyMaxBody : ℕ := 8 * 2 ^ 20

/-! ### The handlers -/

def proxy (a : Node.Agent) (req : Request) : Response × Effect :=
  if a.leaderAddr = "" then (.error 503 "no leader available", .none)
  else if proxyMaxBody < req.body.length then (.error 413 "request body too large", .none)
  else
    let stream := decide (req.path = "/v1/events".toList) ||
      ("/v1/agents/".toList.isPrefixOf req.path && decide ("/logs/".toList <:+: req.path))
    (⟨200, .empty⟩, .proxy a.leaderAddr stream)

def logs (rest : List Char) : Response × Effect :=
  match rest.splitOn '/' with
  | [id, stream] =>
    if stream = "stdout".toList then (⟨200, .empty⟩, .logs id .stdout)
    else if stream = "stderr".toList then (⟨200, .empty⟩, .logs id .stderr)
    else (.error 400 "stream must be stdout or stderr", .none)
  | _ => (.error 400 "usage: /logs/\x7btaskID\x7d/stdout or /logs/\x7btaskID\x7d/stderr", .none)

/-- `/run`: take a job on. -/
def run (a : Node.Agent) (now : Nanos) (poolLargest : Option ℕ) (req : Request) :
    Response × Node.Agent :=
  if req.method ≠ .post then (.error 405 "method not allowed", a)
  else
    let replace := decide (req.queryParam "replace".toList = some "1".toList)
    match Job.fromJson req.body with
    | .error _ => (.error 400 "invalid json", a)
    | .ok job =>
      match a.run now job replace poolLargest with
      | (.ok _, a) => (⟨202, .fields [("status", .string "accepted"), ("job", .string job.name),
          ("message", .string "job accepted, starting in background")]⟩, a)
      | (.error .affinityMismatch, a) => (.error 406 "affinity mismatch", a)
      | (.error .noCapacity, a) => (.error 503 "insufficient capacity", a)
      | (.error .tooManyTasks, a) => (.error 503 "insufficient capacity", a)
      | (.error .tooManyJobs, a) => (.error 503 "insufficient capacity", a)
      | (.error _, a) => (.error 500 "internal error", a)

/-- A handler that removes tasks of the job `name` with this method, and counts them. -/
def removal (method : Method) (key : String) (remove : String → ℕ × Node.Agent) (a : Node.Agent)
    (req : Request) (name : List Char) : Response × Node.Agent :=
  if req.method ≠ method then (.error 405 "method not allowed", a)
  else if name = [] then (.error 400 "job name required", a)
  else
    let (n, a) := remove (String.ofList name)
    (⟨200, .fields [(key, .uint n)]⟩, a)

def delete (a : Node.Agent) (now : Nanos) (req : Request) (name : List Char) :
    Response × Node.Agent :=
  removal .delete "deleted" (fun name => a.deleteJob now name) a req name

/-- `/stop/`: stop the tasks and keep the job. -/
def stop (a : Node.Agent) (req : Request) (name : List Char) : Response × Node.Agent :=
  removal .post "stopped" (fun name => a.stopJobTasks name) a req name

def stopTask (a : Node.Agent) (req : Request) (id : List Char) : Response × Node.Agent :=
  if req.method ≠ .post then (.error 405 "method not allowed", a)
  else if id = [] then (.error 400 "task id required", a)
  else match a.stopTask (String.ofList id) with
    | (false, a) => (.error 404 "task not found", a)
    | (true, a) => (⟨200, .fields [("stopped", .string (String.ofList id))]⟩, a)

/-- A field of an object that is a text, or the empty text. -/
def textField (o : List (String × Value)) (key : String) : String :=
  ((o.find? fun kv => kv.1 = key).bind fun kv => kv.2.asStr).getD ""

/-- Whether a text has `://` in it. -/
def isAbsolute (url : String) : Bool := (afterScheme url.toList).isSome

/-- Whether a text is a sha256 in hex digits. -/
def isSum (sum : String) : Bool :=
  decide ((utf8 sum).length = 64) && (utf8 sum).all fun b => (Types.Json.hexVal b).isSome

/-- The answers to a flip and a restart that begin. -/
def flipRequested : String :=
  "flip requested: the node fetches, verifies and replaces its kernel; " ++
    "watch its console and its re-registration"

def restartRequested (url : String) : String :=
  if url = "" then
    "restart requested: Hop hands its state to the kernel and starts again in its slot; " ++
      "the apps keep running"
  else
    "restart requested: the node fetches and verifies the new Hop, " ++
      "hands its state to the kernel and starts it in its slot; the apps keep running"

/-- `/flip`: the node replaces its kernel while its tasks run on. -/
def flip (flipEnabled : Bool) (req : Request) : Response × Effect :=
  if req.method ≠ .post then (.error 405 "method not allowed", .none)
  else if !flipEnabled then
    (.error 501 "this node cannot flip its kernel (not a HopOS node, or flipping is disabled)", .none)
  else match Types.Json.parse req.body with
    | .error _ => (.error 400 "invalid json", .none)
    | .ok v =>
      let o := v.asObject.getD []
      let url := textField o "url"
      let sum := textField o "sha256"
      if !isAbsolute url then (.error 400 "url must be absolute", .none)
      else if !isSum sum then (.error 400 "sha256 must be 64 hex characters", .none)
      else if o.any (fun kv => kv.1 ≠ "url" ∧ kv.1 ≠ "sha256") then
        (.error 400 "a flip takes only url and sha256", .none)
      else (⟨202, .fields [("status", .string flipRequested)]⟩, .flip url sum)

/-- The fields of the body of `/restart`. -/
def restartFields (body : Bytes) : Except String (String × String) :=
  if body.all fun b => b = 9 ∨ b = 10 ∨ b = 12 ∨ b = 13 ∨ b = 32 then .ok ("", "")
  else match Types.Json.parse body with
    | .error _ => .error "invalid json"
    | .ok v => match v.asObject with
      | none => .error "body must be an object"
      | some o => .ok (textField o "url", textField o "sha256")

/-- `/restart`: Hop restarts itself while the apps run on. -/
def restart (flipEnabled : Bool) (req : Request) : Response × Effect :=
  if req.method ≠ .post then (.error 405 "method not allowed", .none)
  else if !flipEnabled then
    (.error 501 "this node cannot restart Hop under its apps (not a HopOS node)", .none)
  else match restartFields req.body with
    | .error msg => (.error 400 msg, .none)
    | .ok (url, sum) =>
      if url = "" ∧ sum ≠ "" then (.error 400 "sha256 without url", .none)
      else if url ≠ "" ∧ !isAbsolute url then (.error 400 "url must be absolute", .none)
      else if url ≠ "" ∧ !isSum sum then (.error 400 "sha256 must be 64 hex characters", .none)
      else (⟨202, .fields [("status", .string (restartRequested url))]⟩, .restart url sum)

/-- The interface of an agent. -/
structure NodeApi where
  hash : Hash
  mux : Mux Route
  key : Bytes
  /-- The node is one of HopOS. -/
  flipEnabled : Bool

namespace NodeApi

/-- The refusal of a request that is not signed. -/
def checkAuth (api : NodeApi) (req : Request) : Option Response :=
  match api.hash.verify api.key req.method.asStr req.path req.body req.auth with
  | .ok () => none
  | .error (.bodyTooLarge len) =>
    some (.error 413 s!"request body too large ({len} > {maxBodyBytes} bytes)")
  | .error .unauthorized => some (.error 401 "unauthorized")

/-- What a route does. -/
def serve (api : NodeApi) (a : Node.Agent) (now : Nanos) (poolLargest : Option ℕ) (req : Request)
    (route : Route) (values : List (String × List Char)) : (Response × Effect) × Node.Agent :=
  let plain := fun (r : Response × Node.Agent) => ((r.1, Effect.none), r.2)
  match route with
  | .health => ((⟨200, .fields [("status", .string "ok")]⟩, .none), a)
  | .leader => ((⟨200, .report⟩, .none), a)
  | .proxy => (proxy a req, a)
  | .logs => (logs (Routes.value values "rest"), a)
  | .capacity => ((⟨200, .report⟩, .none), a)
  | .tasks => ((⟨200, .report⟩, .none), a)
  | .run => plain (run a now poolLargest req)
  | .flip => (flip api.flipEnabled req, a)
  | .restart => (restart api.flipEnabled req, a)
  | .delete => plain (delete a now req (Routes.value values "name"))
  | .stop => plain (stop a req (Routes.value values "name"))
  | .stopTask => plain (stopTask a req (Routes.value values "id"))

/-- Answer one request. Health and leader come before the signature, an unknown path after it. -/
def handle (api : NodeApi) (a : Node.Agent) (now : Nanos) (poolLargest : Option ℕ) (req : Request) :
    (Response × Effect) × Node.Agent :=
  if req.method = .options then ((⟨200, .empty⟩, .none), a)
  else match Routes.find api.mux (Routes.new api.mux routes) req with
    | .broken => ((.error 500 "internal error", .none), a)
    | .miss =>
      match api.checkAuth req with
      | some reject => ((reject, .none), a)
      | none => ((.error 404 "not found", .none), a)
    | .hit route values =>
      match (if route = .health ∨ route = .leader then none else api.checkAuth req) with
      | some reject => ((reject, .none), a)
      | none => api.serve a now poolLargest req route values

end NodeApi

end Hop.Api
