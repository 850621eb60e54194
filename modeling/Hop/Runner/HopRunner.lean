import Hop.Types.Job
import Hop.Lib.Text

/-!
# The runner of HopOS

`runner/src/hopos.rs` over the system interface of the kernel (`runner/src/system.rs`). Each task is
an app image in a cage of its own: the kernel owns the cages and picks the slot, the runner keeps
which task holds which cage and how far its start is.

The kernel is a parameter: whatever it answers, it may have changed by that. The logs of the tasks
are left out, with the fields of a slot status that only they show.
-/

namespace Hop.Runner

open Hop.Types (Map)

/-! ### The system interface -/

/-- A cage on the node, from 1 on. -/
abbrev Slot : Type := ℕ

/-- An error of the kernel. -/
inductive SysError
  /-- The kernel cannot place the cage. -/
  | noCapacity (why : String)
  /-- The kernel refuses for another reason. -/
  | refused (why : String)
  /-- The kernel did not answer. That is no verdict. -/
  | unreachable (why : String)
  /-- The stop was not confirmed in time. -/
  | notConfirmed
deriving DecidableEq

/-- What the kernel's ledger says of a slot. -/
inductive SlotState
  | empty
  | streaming
  | running
deriving DecidableEq

/-- The state of the app on the control page of a slot. -/
inductive SlotApp
  | empty
  | booting
  | ready
  | exited
deriving DecidableEq

/-- A slot at one moment. -/
structure SlotStatus where
  state : SlotState
  coreOn : Bool
  app : SlotApp
  exitCode : ℕ
  memSys : ℕ
  cores : ℕ
  core : Option ℕ
  cpuPct : Option ℕ
  faultVec : ℕ
deriving DecidableEq

/-- All that a start needs. -/
structure StartSpec where
  imageSize : ℕ
  memLimit : ℕ
  coreClass : String
  cores : ℕ
  sharegroup : String
  poolCores : ℕ
  env : Map String
  mounts : Map String
  ports : Map ℕ
  job : String
deriving DecidableEq

/-- How a chunk of an image fell. -/
inductive Streamed
  | more
  /-- The last byte: the image is placed, and the app runs. -/
  | placed
  /-- The last byte, but placing or starting failed; the kernel cleaned up. -/
  | failed (e : SysError)
deriving DecidableEq

/-- The calls of the kernel that the runner makes. -/
class SystemApi (S : Type) where
  startSlot : S → StartSpec → Except SysError Slot × S
  streamImage : S → Slot → Bytes → Except SysError Streamed × S
  stopSlot : S → Slot → (timeoutMs : ℕ) → Except SysError Unit × S
  slotStatus : S → Slot → Except SysError SlotStatus × S
  /-- A piece of the occupied slots after this one; empty: there are no more. -/
  occupied : S → (after : Slot) → Except SysError (List Slot) × S
  nextLogLine : S → Except SysError (Option Bytes) × S

/-! ### The runner -/

/-- How long a stop waits before it is enforced. -/
def hopStopTimeoutMs : ℕ := 3000

/-- How many images come in at the same time. -/
def maxConcurrentDownloads : ℕ := 4

/-- An error of a runner. -/
inductive Error
  | noCapacity (why : String)
  | rejected (why : String)
  | unknownTask
  | busy
  | stream (why : String)
  | system (e : SysError)
deriving DecidableEq

/-- How a start went. -/
inductive Started
  | running (pid : Slot)
  | awaitImage
  /-- The task was stopped during its start. -/
  | aborted
deriving DecidableEq

inductive RunState
  | running
  | failed
deriving DecidableEq

/-- What a runner needs to start a task. -/
structure StartRequest where
  taskId : String
  jobName : String
  image : String := ""
  artifacts : ℕ := 1
  extract : String := ""
  cpuShares : ℕ := 0
  memoryLimit : ℕ := 0
  env : Map String := .empty
  tags : Map String := .empty
  volumes : Map String := .empty
  ports : Map ℕ := .empty

/-- Where the start of a task is. -/
inductive Phase
  /-- It waits for its image; the kernel has reserved nothing. -/
  | queued (spec : StartSpec)
  /-- The image streams into the slot: `done` of `size` bytes. -/
  | streaming (slot : Slot) (done size : ℕ)
  /-- The app runs, or ran. -/
  | armed (slot : Slot)
deriving DecidableEq

namespace Phase

/-- The slot, once the kernel gave one. -/
def slot? : Phase → Option Slot
  | .queued _ => none
  | .streaming slot _ _ => some slot
  | .armed slot => some slot

def isStreaming : Phase → Bool
  | .streaming _ _ _ => true
  | _ => false

end Phase

/-- The start and the cage of a task. -/
structure Cage where
  phase : Phase
  /-- The reason of the end is in the log. -/
  faultLogged : Bool
deriving DecidableEq

/-- The runner of HopOS. -/
structure HopRunner (S : Type) where
  sys : S
  nodeAttrs : Map String
  cages : Map Cage
  inUse : SortedMap Slot String
  downloads : ℕ

/-- A name as an environment key: capitals and digits, all else is `_`. -/
def envKey (name : String) : String :=
  String.ofList (name.toList.map fun c =>
    if 'a' ≤ c ∧ c ≤ 'z' then Char.ofNat (c.toNat - 32)
    else if ('A' ≤ c ∧ c ≤ 'Z') ∨ ('0' ≤ c ∧ c ≤ '9') then c
    else '_')

def portEnvVars (ports : Map ℕ) (env : Map String) : Map String :=
  ports.entries.foldl (fun env p => env.insert ("ER_PORT_" ++ envKey p.1) (toString p.2)) env

def attrEnvVars (attrs : Map String) (env : Map String) : Map String :=
  attrs.entries.foldl (fun env a => env.insert ("ER_ATTR_" ++ envKey a.1) a.2) env

/-- A placement that failed is no error of the system. -/
def placementErr : SysError → Error
  | .noCapacity why => .noCapacity why
  | e => .system e

namespace HopRunner

variable {S : Type}

def new (sys : S) (nodeAttrs : Map String) : HopRunner S where
  sys := sys
  nodeAttrs := nodeAttrs
  cages := .empty
  inUse := .empty
  downloads := 0

/-- The cage of a task, if this runner has it and the kernel gave one. -/
def slotOf (r : HopRunner S) (id : String) : Option Slot :=
  (r.cages.get? id).bind fun c => c.phase.slot?

/-- Give the books of a task free. -/
def dropCage (r : HopRunner S) (id : String) : HopRunner S :=
  match r.cages.get? id with
  | none => r
  | some cage =>
    { r with
      cages := r.cages.erase id
      inUse := match cage.phase.slot? with
        | some slot => r.inUse.erase slot
        | none => r.inUse
      downloads := if cage.phase.isStreaming then r.downloads - 1 else r.downloads }

/-- The cage of a task goes into another phase. -/
def setPhase (r : HopRunner S) (id : String) (phase : Phase) : HopRunner S :=
  { r with cages := r.cages.modify id fun c => { c with phase := phase } }

/-- The specification of a start, without the size of the image. -/
def spec (r : HopRunner S) (req : StartRequest) : Except Error StartSpec :=
  if req.image ≠ "" then .error (.rejected "containers are not supported on HopOS")
  else if req.artifacts ≠ 1 then
    .error (.rejected "exactly one artifact (the app image) is required")
  else if req.extract ≠ "" then
    .error (.rejected "artifact must be a raw app image (no extract)")
  else
    let env := portEnvVars req.ports (attrEnvVars r.nodeAttrs req.env)
    let cores := max (req.cpuShares / 1024) 1
    let sharegroup := (req.tags.get? "sharegroup").getD ""
    .ok
      { imageSize := 0
        memLimit := req.memoryLimit
        coreClass := (req.tags.get? "core-class").getD ""
        -- With a share group the app runs on one core of a pool.
        cores := if sharegroup = "" then cores else 1
        sharegroup := sharegroup
        poolCores := if sharegroup = "" then 1 else cores
        env := env
        mounts := req.volumes
        ports := req.ports
        job := req.jobName }

/-- Begin a task. The kernel picks the slot only when the image begins. -/
def start (r : HopRunner S) (req : StartRequest) : Except Error Started × HopRunner S :=
  match r.spec req with
  | .error e => (.error e, r)
  | .ok spec =>
    (.ok .awaitImage, { r with cages := r.cages.insert req.taskId ⟨.queued spec, false⟩ })

variable [SystemApi S]

/-- The length of the image is known: the kernel reserves a slot. -/
def imageBegin (r : HopRunner S) (id : String) (size : ℕ) : Except Error Unit × HopRunner S :=
  match r.cages.get? id with
  | none => (.error .unknownTask, r)
  | some ⟨.queued spec, _⟩ =>
    if size = 0 then (.error (.stream "no Content-Length"), r.dropCage id)
    else if maxConcurrentDownloads ≤ r.downloads then (.error .busy, r)
    else
      let spec := { spec with imageSize := size }
      let r := r.setPhase id (.queued spec)
      match SystemApi.startSlot r.sys spec with
      -- The kernel cleaned up its reservations; we clean up ours.
      | (.error e, sys) => (.error (placementErr e), { r with sys := sys }.dropCage id)
      | (.ok slot, sys) =>
        (.ok (), { { r with sys := sys }.setPhase id (.streaming slot 0 size) with
          inUse := r.inUse.insert slot id
          downloads := r.downloads + 1 })
  | some _ => (.error (.stream "image already begun"), r)

/-- Break a stream off; if that fails, the cage stays ours. -/
def breakOff (r : HopRunner S) (id : String) (slot : Slot) (why : String) :
    Except Error Started × HopRunner S :=
  match SystemApi.stopSlot r.sys slot hopStopTimeoutMs with
  | (.ok (), sys) => (.error (.stream why), { r with sys := sys }.dropCage id)
  | (.error _, sys) => (.error (.stream why), { r with sys := sys })

/-- The app runs in its slot; the line of the node about the cage goes into its log. -/
def booted (r : HopRunner S) (slot : Slot) : Except Error Started × HopRunner S :=
  match SystemApi.slotStatus r.sys slot with
  | (.error e, sys) => (.error (.system e), { r with sys := sys })
  | (.ok _, sys) => (.ok (.running slot), { r with sys := sys })

/-- The next bytes of the image. -/
def imageChunk (r : HopRunner S) (id : String) (chunk : Bytes) :
    Except Error Started × HopRunner S :=
  match r.cages.get? id with
  | none => (.ok .aborted, r)
  | some ⟨.streaming slot done size, _⟩ =>
    let total := satAdd u64Max done chunk.length
    if size < total then r.breakOff id slot "more bytes than Content-Length"
    else
      match SystemApi.streamImage r.sys slot chunk with
      -- A chunk that was refused: the kernel broke the stream off and cleaned up.
      | (.error e, sys) => (.error (placementErr e), { r with sys := sys }.dropCage id)
      | (.ok streamed, sys) =>
        let r := { r with sys := sys }
        match streamed with
        | .failed e => (.error (placementErr e), r.dropCage id)
        | .more =>
          if total < size then (.ok .awaitImage, r.setPhase id (.streaming slot total size))
          else r.breakOff id slot "kernel and runner disagree on the image size"
        | .placed =>
          if total = size then
            { r.setPhase id (.armed slot) with downloads := r.downloads - 1 }.booted slot
          else r.breakOff id slot "kernel and runner disagree on the image size"
  | some _ => (.error (.stream "image not begun"), r)

/-- Stop a task. One that is not known is not ours: an outdated record must never take down the new
resident of its slot. -/
def stop (r : HopRunner S) (id : String) : Except Error Unit × HopRunner S :=
  match r.cages.get? id with
  | none => (.ok (), r)
  | some cage =>
    match cage.phase.slot? with
    | none => (.ok (), r.dropCage id)
    | some slot =>
      match SystemApi.stopSlot r.sys slot hopStopTimeoutMs with
      | (.ok (), sys) => (.ok (), { r with sys := sys }.dropCage id)
      -- Not confirmed: the cage stays ours, so that nobody uses it again.
      | (.error e, sys) => (.error (.system e), { r with sys := sys })

/-- The reason of an end goes into the log once. -/
def logEndOnce (r : HopRunner S) (id : String) (slot : Slot) : Except Error Unit × HopRunner S :=
  match r.cages.get? id with
  | none => (.ok (), r)
  | some cage =>
    if cage.faultLogged then (.ok (), r)
    else
      let r := { r with cages := r.cages.modify id fun c => { c with faultLogged := true } }
      match SystemApi.slotStatus r.sys slot with
      | (.error e, sys) => (.error (.system e), { r with sys := sys })
      | (.ok _, sys) => (.ok (), { r with sys := sys })

/-- The state of a task. The number in its record is not asked for: that slot may be another's. -/
def status (r : HopRunner S) (id : String) (pid : Slot) : Except Error RunState × HopRunner S :=
  if pid = 0 then (.ok .running, r)
  else
    match r.slotOf id with
    | none => (.ok .failed, r)
    | some slot =>
      match SystemApi.slotStatus r.sys slot with
      | (.error e, sys) => (.error (.system e), { r with sys := sys })
      | (.ok s, sys) =>
        let r := { r with sys := sys }
        if s.coreOn then (.ok .running, r)
        else if s.app ≠ .exited ∨ s.exitCode ≠ 0 ∨ s.faultVec ≠ 0 then
          match r.logEndOnce id slot with
          | (.error e, r) => (.error e, r)
          | (.ok (), r) => (.ok .failed, r)
        else (.ok .failed, r)

/-- Processor and memory of a task, the cores of its slot and the core it runs on. -/
def usage (r : HopRunner S) (id : String) :
    Except SysError (Option ℕ × Option ℕ × ℕ × Option ℕ) × HopRunner S :=
  match r.slotOf id with
  | none => (.ok (none, none, 0, none), r)
  | some slot =>
    match SystemApi.slotStatus r.sys slot with
    | (.error e, sys) => (.error e, { r with sys := sys })
    | (.ok s, sys) =>
      (.ok (s.cpuPct, if s.memSys ≠ 0 then some s.memSys else none, s.cores, s.core),
        { r with sys := sys })

/-- Take over the cages of tasks that the kernel still runs; the tasks that it took over. -/
def adoptRunning : List (String × Slot) → HopRunner S → Except SysError (List String) × HopRunner S
  | [], r => (.ok [], r)
  | (id, slot) :: rest, r =>
    if slot < 1 ∨ (r.cages.get? id).isSome ∨ (r.inUse.get? slot).isSome then adoptRunning rest r
    else
      match SystemApi.slotStatus r.sys slot with
      | (.error e, sys) => (.error e, { r with sys := sys })
      | (.ok s, sys) =>
        let r := { r with sys := sys }
        if s.state ≠ .running then adoptRunning rest r
        else
          let r := { r with
            inUse := r.inUse.insert slot id
            cages := r.cages.insert id ⟨.armed slot, false⟩ }
          match adoptRunning rest r with
          | (.error e, r) => (.error e, r)
          | (.ok adopted, r) => (.ok (id :: adopted), r)

/-- Stop the residents of a piece of the slots that nobody holds. -/
def sweepPage (own : Slot) : List Slot → HopRunner S → Except SysError (List Slot) × HopRunner S
  | [], r => (.ok [], r)
  | slot :: rest, r =>
    if slot = own ∨ (r.inUse.get? slot).isSome then sweepPage own rest r
    else
      match SystemApi.slotStatus r.sys slot with
      | (.error e, sys) => (.error e, { r with sys := sys })
      | (.ok s, sys) =>
        let r := { r with sys := sys }
        if s.state ≠ .running then sweepPage own rest r
        else
          match SystemApi.stopSlot r.sys slot hopStopTimeoutMs with
          | (.error e, sys) => (.error e, { r with sys := sys })
          | (.ok (), sys) =>
            match sweepPage own rest { r with sys := sys } with
            | (.error e, r) => (.error e, r)
            | (.ok stopped, r) => (.ok (slot :: stopped), r)

/-- Stop the residents that are nobody's, piece by piece; `none` is a sweep that is still under way
after `pages` pieces. -/
def sweepStrays (own : Slot) : (pages : ℕ) → (after : Slot) → HopRunner S →
    Option (Except SysError (List Slot)) × HopRunner S
  | 0, _, r => (none, r)
  | pages + 1, after, r =>
    match SystemApi.occupied r.sys after with
    | (.error e, sys) => (some (.error e), { r with sys := sys })
    | (.ok page, sys) =>
      let r := { r with sys := sys }
      match page.getLast? with
      | none => (some (.ok []), r)
      | some last =>
        match sweepPage own page r with
        | (.error e, r) => (some (.error e), r)
        | (.ok stopped, r) =>
          match sweepStrays own pages last r with
          | (none, r) => (none, r)
          | (some (.error e), r) => (some (.error e), r)
          | (some (.ok more), r) => (some (.ok (stopped ++ more)), r)

/-- Empty the console of the kernel; `none` is a console with more than `lines` lines. The lines go
into the logs. -/
def pumpConsole : (lines : ℕ) → HopRunner S → Option (Except SysError Unit) × HopRunner S
  | 0, r => (none, r)
  | lines + 1, r =>
    match SystemApi.nextLogLine r.sys with
    | (.error e, sys) => (some (.error e), { r with sys := sys })
    | (.ok none, sys) => (some (.ok ()), { r with sys := sys })
    | (.ok (some _), sys) => pumpConsole lines { r with sys := sys }

end HopRunner

end Hop.Runner
