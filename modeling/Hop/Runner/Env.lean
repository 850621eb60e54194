import Hop.Runner.Host
import Hop.Runner.HopRunner

/-!
# The environment of a task

Three drivers give a task its variables: the plan of a command (`runner/src/host/process.rs`), the
body that creates a container (`runner/src/host/docker.rs`) and the start on HopOS
(`runner/src/hopos.rs`). Each puts the variables of the job, the ports and the attributes of the
node into one map, and the last one wins.

A port and an attribute never have the same name, so containers and HopOS agree always; a command
has the variables of the job after the ports, and agrees with them unless the job names the variable
of a port and gives it another value (`sameEnv_iff`).
-/

namespace Hop.Runner

open Hop.Types (Map)

/-! ### A command -/

/-- What is started: the program, its directory and variables, and another user. -/
structure Plan where
  argv : List String
  dir : String
  env : Map String
  creds : Option (ℕ × ℕ)
deriving DecidableEq

/-- What a task is made of; the artifact is not read here. -/
structure LaunchSpec extends Host.TaskSpec where
  jobName : String
  command : String
  user : String := ""
  env : Map String := .empty
  ports : Map ℕ := .empty
  volumes : Map String := .empty
  cpuShares : ℤ := 0
  memoryLimit : ℕ := 0
  nodeAttrs : Map String := .empty

/-- The host that a plan is made for. -/
structure PlanHost where
  /-- `os::plan`: the command in its isolation, with the variables of the platform. -/
  base : LaunchSpec → (taskDir : String) → Except String Plan
  /-- `nice_for`: the niceness of these shares, a logarithm in floating point. -/
  niceFor : ℤ → ℤ
  niceTool : String

/-- The plan of a task that is a command. -/
def plan (host : PlanHost) (spec : LaunchSpec) (taskDir : String) : Except String Plan := do
  let plan ← host.base spec taskDir
  let env := portEnvVars spec.ports plan.env
  let env := env.overlay spec.env
  let env := attrEnvVars spec.nodeAttrs env
  let n := host.niceFor spec.cpuShares
  let argv := if 0 < spec.cpuShares ∧ 0 < n then
      [host.niceTool, "-n", toString n] ++ plan.argv
    else plan.argv
  .ok { plan with env := env, argv := argv }

/-! ### A container -/

/-- What a container is created from, as the fields of the JSON text. What is empty or `none` is
left out of it. -/
structure CreateBody where
  image : String
  env : List String
  cmd : List String
  /-- The same port in the container and on the host, as `8080/tcp`. -/
  ports : List ℕ
  binds : List String
  memory : Option ℕ
  cpuShares : Option ℤ
deriving DecidableEq

/-- The variables as texts, in the order of their names. -/
def envTexts (env : Map String) : List String := env.entries.map fun e => e.1 ++ "=" ++ e.2

/-- The body of `POST /containers/create`. -/
def createBody (spec : LaunchSpec) : CreateBody :=
  let env := spec.env
  let env := portEnvVars spec.ports env
  let env := attrEnvVars spec.nodeAttrs env
  { image := spec.image
    env := envTexts env
    cmd := if spec.command = "" then [] else ["/bin/sh", "-c", spec.command]
    ports := spec.ports.entries.map Prod.snd
    binds := spec.volumes.entries.map fun v => v.1 ++ ":" ++ v.2
    memory := if 0 < spec.memoryLimit then some spec.memoryLimit else none
    cpuShares := if 0 < spec.cpuShares then some spec.cpuShares else none }

/-! ### Which variable wins -/

/-- The variables of the ports alone. -/
def portVars (ports : Map ℕ) : Map String := portEnvVars ports .empty

/-- The variables of the attributes alone. -/
def attrVars (attrs : Map String) : Map String := attrEnvVars attrs .empty

theorem get?_portEnvVars (ports : Map ℕ) (env : Map String) (k : String) :
    (portEnvVars ports env).get? k = ((portVars ports).get? k).or (env.get? k) := by
  have hpairs : ∀ m : Map String, portEnvVars ports m =
      (ports.entries.map fun p => ("ER_PORT_" ++ envKey p.1, toString p.2)).foldl
        (fun m e => m.insert e.1 e.2) m := by
    intro m
    rw [List.foldl_map]
    rfl
  rw [portVars, hpairs, hpairs]
  exact SortedMap.get?_foldl_insert_of_empty _ env k

theorem get?_attrEnvVars (attrs : Map String) (env : Map String) (k : String) :
    (attrEnvVars attrs env).get? k = ((attrVars attrs).get? k).or (env.get? k) := by
  have hpairs : ∀ m : Map String, attrEnvVars attrs m =
      (attrs.entries.map fun a => ("ER_ATTR_" ++ envKey a.1, a.2)).foldl
        (fun m e => m.insert e.1 e.2) m := by
    intro m
    rw [List.foldl_map]
    rfl
  rw [attrVars, hpairs, hpairs]
  exact SortedMap.get?_foldl_insert_of_empty _ env k

/-- What is inserted into nothing has one of the inserted names. -/
theorem exists_of_foldl_insert {α : Type} {name val : α → String} {as : List α} {k v : String}
    (h : (as.foldl (fun (m : Map String) a => m.insert (name a) (val a)) .empty).get? k = some v) :
    ∃ a ∈ as, k = name a := by
  induction as using List.reverseRecOn with
  | nil => cases h
  | append_singleton as a ih =>
    rw [List.foldl_append, List.foldl_cons, List.foldl_nil, SortedMap.get?_insert] at h
    split_ifs at h with hk
    · exact ⟨a, by simp, hk.symm⟩
    · obtain ⟨b, hb, hkb⟩ := ih h
      exact ⟨b, List.mem_append_left _ hb, hkb⟩

/-- **A port and an attribute never have the same name.** -/
theorem port_ne_attr {ports : Map ℕ} {attrs : Map String} {k v : String}
    (h : (portVars ports).get? k = some v) :
    (attrVars attrs).get? k = none := by
  rcases hattr : (attrVars attrs).get? k with _ | w
  · rfl
  · obtain ⟨p, -, hp⟩ := exists_of_foldl_insert h
    obtain ⟨a, -, ha⟩ := exists_of_foldl_insert hattr
    have htext := congrArg (fun s => s.toList.take 8) (hp.symm.trans ha)
    simp [String.toList_append] at htext

section Drivers

variable {S : Type} {host : PlanHost} {spec : LaunchSpec} {dir : String} {b p : Plan}
  {r : HopRunner S} {req : StartRequest} {s : StartSpec}

/-- The variables of a command: attributes, then the job, then ports, then the platform. -/
theorem get?_plan (hb : host.base spec dir = .ok b) (hp : plan host spec dir = .ok p) (k : String) :
    p.env.get? k = ((attrVars spec.nodeAttrs).get? k).or ((spec.env.get? k).or
      (((portVars spec.ports).get? k).or (b.env.get? k))) := by
  rw [plan, hb] at hp
  obtain rfl := Except.ok.inj hp
  rw [get?_attrEnvVars, SortedMap.get?_overlay, get?_portEnvVars]

/-- The variables of a container and on HopOS: attributes and ports, then the job. -/
theorem hopEnv_eq (hs : r.spec req = .ok s) (henv : req.env = spec.env)
    (hports : req.ports = spec.ports) (hattrs : r.nodeAttrs = spec.nodeAttrs) :
    s.env = attrEnvVars spec.nodeAttrs (portEnvVars spec.ports spec.env) := by
  rw [HopRunner.spec] at hs
  split_ifs at hs with himage hartifacts hextract
  obtain rfl := Except.ok.inj hs
  refine SortedMap.ext_get? fun k => ?_
  rw [get?_portEnvVars, get?_attrEnvVars, get?_attrEnvVars, get?_portEnvVars, hports, hattrs, henv]
  rcases hport : (portVars spec.ports).get? k with _ | v
  · rfl
  · rw [port_ne_attr hport]
    rfl

/-- The plan, the container and HopOS have the same variables: the plan has them over those of the
platform. -/
structure SameEnv (b p : Plan) (body : CreateBody) (s : StartSpec) : Prop where
  exec : p.env = b.env.overlay s.env
  docker : body.env = envTexts s.env

/-- **When the three drivers agree**: unless the job names the variable of a port and gives it
another value than the port. -/
theorem sameEnv_iff (hb : host.base spec dir = .ok b) (hp : plan host spec dir = .ok p)
    (hs : r.spec req = .ok s) (henv : req.env = spec.env) (hports : req.ports = spec.ports)
    (hattrs : r.nodeAttrs = spec.nodeAttrs) :
    SameEnv b p (createBody spec) s ↔ ∀ k v w, spec.env.get? k = some v →
      (portVars spec.ports).get? k = some w → v = w := by
  have hhop := hopEnv_eq hs henv hports hattrs
  constructor
  · intro h k v w hv hw
    have hk := congrArg (SortedMap.get? · k) h.exec
    simp only [get?_plan hb hp, SortedMap.get?_overlay, hhop, get?_attrEnvVars, get?_portEnvVars,
      port_ne_attr hw, hv, hw, Option.none_or, Option.some_or] at hk
    exact Option.some.inj hk
  · intro h
    refine ⟨SortedMap.ext_get? fun k => ?_, by rw [hhop]; rfl⟩
    rw [get?_plan hb hp, SortedMap.get?_overlay, hhop, get?_attrEnvVars, get?_portEnvVars]
    rcases hv : spec.env.get? k with _ | v
    · rcases (attrVars spec.nodeAttrs).get? k with _ | a
      · rcases (portVars spec.ports).get? k with _ | w <;> rfl
      · rfl
    · rcases hw : (portVars spec.ports).get? k with _ | w
      · rcases (attrVars spec.nodeAttrs).get? k with _ | a <;> rfl
      · rw [h k v w hv hw]
        rcases (attrVars spec.nodeAttrs).get? k with _ | a <;> rfl

end Drivers

/-! ### A job that names the variable of a port -/

/-- A host whose platform has no variables. -/
def bareHost : PlanHost where
  base spec dir := .ok ⟨["/bin/sh", "-c", spec.command], dir, .empty, none⟩
  niceFor _ := 0
  niceTool := "nice"

def portJob (value : String) : LaunchSpec :=
  { taskId := "t", jobName := "web", command := "serve"
    env := SortedMap.ofList [("ER_PORT_HTTP", value)]
    ports := SortedMap.ofList [("http", 8080)] }

def portRequest (value : String) : StartRequest :=
  { taskId := "t", jobName := "web", env := (portJob value).env, ports := (portJob value).ports }

/-- The job wins under exec, the port in a container and on HopOS. -/
theorem exec_differs : ¬ ∀ (host : PlanHost) (spec : LaunchSpec) (dir : String) (b p : Plan)
    (r : HopRunner Unit) (req : StartRequest) (s : StartSpec), host.base spec dir = .ok b →
    plan host spec dir = .ok p → r.spec req = .ok s → req.env = spec.env →
    req.ports = spec.ports → r.nodeAttrs = spec.nodeAttrs → SameEnv b p (createBody spec) s := by
  intro h
  have hsame := h bareHost (portJob "9999") "/t" _ _ (.new () .empty) (portRequest "9999") _ rfl rfl
    rfl rfl rfl rfl
  exact absurd hsame.exec (by decide)

theorem sameEnv_iff_sample : SameEnv ⟨["/bin/sh", "-c", "serve"], "/t", .empty, none⟩
    ⟨["/bin/sh", "-c", "serve"], "/t", SortedMap.ofList [("ER_PORT_HTTP", "8080")], none⟩
    (createBody (portJob "8080"))
    { imageSize := 0, memLimit := 0, coreClass := "", cores := 1, sharegroup := "", poolCores := 1
      env := SortedMap.ofList [("ER_PORT_HTTP", "8080")], mounts := .empty
      ports := SortedMap.ofList [("http", 8080)], job := "web" } := by
  have hports : portVars (portJob "8080").ports = (portJob "8080").env := by
    decide
  refine (@sameEnv_iff Unit bareHost (portJob "8080") "/t" _ _ (.new () .empty)
    (portRequest "8080") _ rfl (by decide) (by decide) rfl rfl rfl).mpr ?_
  intro k v w hv hw
  rw [hports, hv] at hw
  exact Option.some.inj hw

end Hop.Runner
