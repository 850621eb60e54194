import Hop.Agent.Elector

/-!
# The election and heartbeat loop of a node

`agent/src/election.rs`. The loop tries to become leader through the lease, or finds the
leader, registers there and keeps a heartbeat. It does no I/O: `tick` and its siblings return
`Request`s for the executor, and `onReply` processes the answer to one.

The loop is generic in the lease side (`Discoverer`). Of its agent it uses three calls, which
are the class `AgentPort`: the model of the agent is one instance, a port that counts the
calls (`Counted`) another. The source passes the lease side and the agent by mutable
reference; here a `Loop` holds the three parts and every function returns the new `Loop`.
-/

namespace Hop.Agent

/-- After this many failed ticks the node tries to take over. -/
def takeoverAfter : ℕ := 4

/-- After this many failed ticks the node counts as isolated. -/
def isolatedAfter : ℕ := 7

/-- A call or an event for the executor. -/
inductive Request
  /-- `POST /v1/agents` at this leader. -/
  | register (leader : String)
  /-- `POST /v1/heartbeat` at this leader. -/
  | heartbeat (leader : String)
  /-- A heartbeat at our own leader API. -/
  | selfHeartbeat (leader : String)
  /-- A new registration at our own leader API, which forgot us. -/
  | selfRegister (leader : String)
  /-- Start the leader half on this node. -/
  | startLeader
  /-- Stop the leader half on this node, before the lease is given back. -/
  | stopLeader
deriving DecidableEq, Repr

/-- What went wrong with a call at the leader. -/
inductive LinkError
  /-- 404: the leader does not know us; register again. -/
  | notRegistered
  /-- Transport, timeout or another status. -/
  | failed
deriving DecidableEq, Repr

/-- The state of the loop. -/
structure Election where
  ownLeader : String
  leading : Bool
  registered : Bool
  lastLeader : String
  failCount : ℕ
  selfBeatFails : ℕ
  out : List Request
deriving DecidableEq, Repr

/-- What the election does to the agent of its node. -/
class AgentPort (A : Type) where
  setLeaderAddr : A → String → A
  setLeaseExpiresAt : A → Nanos → A
  stopAll : A → A

/-- An agent whose `stopAll` calls are counted. -/
structure Counted (A : Type) where
  agent : A
  stops : ℕ
deriving DecidableEq, Repr

instance {A : Type} [AgentPort A] : AgentPort (Counted A) where
  setLeaderAddr a addr := { a with agent := AgentPort.setLeaderAddr a.agent addr }
  setLeaseExpiresAt a t := { a with agent := AgentPort.setLeaseExpiresAt a.agent t }
  stopAll a := { agent := AgentPort.stopAll a.agent, stops := a.stops + 1 }

namespace Election

/-- A loop for a node at `ip` with its agent on `port`; the leader API is on `port + 1000`. -/
def new (ip : String) (port : ℕ) : Election where
  ownLeader := ip ++ ":" ++ toString (port + 1000)
  leading := false
  registered := false
  lastLeader := ""
  failCount := 0
  selfBeatFails := 0
  out := []

def emit (el : Election) (r : Request) : Election := { el with out := el.out ++ [r] }

/-- One more failed tick. -/
def fail (el : Election) : Election := { el with failCount := satAdd u32Max el.failCount 1 }

@[simp] theorem emit_leading (el : Election) (r : Request) :
    (el.emit r).leading = el.leading := rfl

@[simp] theorem emit_failCount (el : Election) (r : Request) :
    (el.emit r).failCount = el.failCount := rfl

variable {A : Type} [AgentPort A]

def publish (el : Election) (agent : A) (addr : String) : A :=
  let agent := AgentPort.setLeaderAddr agent addr
  if addr ≠ el.ownLeader then AgentPort.setLeaseExpiresAt agent 0 else agent

end Election

/-- The loop with its lease side and its agent. -/
structure Loop (D A : Type) where
  el : Election
  disc : D
  agent : A
deriving DecidableEq, Repr

namespace Loop

variable {D A : Type} [Discoverer D] [AgentPort A]

/-- Hand over the requests that have been collected. -/
def takeOut (l : Loop D A) : List Request × Loop D A :=
  (l.el.out, { l with el := { l.el with out := [] } })

def becomeLeader (l : Loop D A) : Loop D A :=
  let el := { l.el with leading := true, failCount := 0 }.emit .startLeader
  { l with el := el, agent := el.publish l.agent el.ownLeader }

/-- `if disc.try_become_leader() { self.become_leader(agent) }`. -/
def claim (l : Loop D A) : Loop D A :=
  let (won, disc) := Discoverer.tryBecomeLeader l.disc
  let l := { l with disc := disc }
  if won then l.becomeLeader else l

/-- One direct attempt at boot: is the lock free, then this node leads at once. -/
def becomeLeaderNow (l : Loop D A) : List Request × Loop D A :=
  (if !l.el.leading then l.claim else l).takeOut

def stepDownInner (l : Loop D A) (release : Bool) : Loop D A :=
  let was := l.el.leading
  let el := { l.el with leading := false, registered := false, lastLeader := "" }
  let l := { l with el := el, agent := el.publish l.agent "" }
  if !was then l
  else
    let l := { l with el := l.el.emit .stopLeader }
    if release then { l with disc := Discoverer.releaseLeadership l.disc } else l

/-- Step down: first stop the leader half, only then give the lease back. -/
def stepDown (l : Loop D A) (release : Bool) : List Request × Loop D A :=
  (l.stepDownInner release).takeOut

def tryTakeOver (l : Loop D A) : Loop D A :=
  let el := { l.el with lastLeader := "" }
  let l := { l with el := el, agent := el.publish l.agent "" }
  -- The next tick has to ask the store again whether there is still a live leader.
  let l := { l with disc := Discoverer.invalidate l.disc }
  l.claim

/-- The only answer that makes the loss of the leader safe: the store answered, and nobody
holds a live lease. -/
def storeSaysNoLeader (d : D) : Bool × D :=
  let (leader, d) := Discoverer.getLeader d
  (leader.isNone && Discoverer.storeReachable d, d)

/-- One more failed tick; after `takeoverAfter` of them, an attempt to take over. -/
def failOver (l : Loop D A) : Loop D A :=
  let l := { l with el := l.el.fail }
  if takeoverAfter ≤ l.el.failCount then l.tryTakeOver else l

/-- The branch at `isolatedAfter` failed ticks: stop everything, unless the store says that
nobody leads. -/
def isolate (l : Loop D A) : Loop D A :=
  let (nobody, disc) := storeSaysNoLeader l.disc
  { l with
    disc := disc
    agent := if !nobody then AgentPort.stopAll l.agent else l.agent
    el := { l.el with failCount := takeoverAfter } }

def leaderFailed (l : Loop D A) : Loop D A :=
  let l := l.failOver
  if isolatedAfter ≤ l.el.failCount then l.isolate else l

def noLeader (l : Loop D A) : Loop D A :=
  let l := { l with el := l.el.fail }
  if takeoverAfter ≤ l.el.failCount then
    let l := l.tryTakeOver
    if !l.el.leading then { l with el := { l.el with failCount := takeoverAfter } } else l
  else l

/-- The agent shows until when our lease runs, if the lease side keeps that. -/
def showExpiry (l : Loop D A) : Loop D A :=
  match Discoverer.leaseExpiresAt l.disc with
  | some t => { l with agent := AgentPort.setLeaseExpiresAt l.agent t }
  | none => l

/-- The leader branch of a tick: the answer of the lease decides whether we still lead. -/
def tickLeading (l : Loop D A) (agentsConnected : ℕ) : Loop D A :=
  let ((renewed, displaced), disc) := Discoverer.renewLease l.disc
  let l := { l with disc := disc }.showExpiry
  -- Really replaced, not only cut off: step down now.
  if displaced then l.stepDownInner false
  else if renewed then
    { l with el := { l.el with failCount := 0 }.emit (.selfHeartbeat l.el.ownLeader) }
  -- Store unreachable and no agents: leadership lost. With agents it goes on: a working LAN
  -- survives an outage of the lock store.
  else if agentsConnected = 0 then l.stepDownInner false
  else { l with el := l.el.emit (.selfHeartbeat l.el.ownLeader) }

/-- The leader this tick goes by: the cached one; the lock store is asked only if there is
none. -/
def knownLeader (l : Loop D A) : String × Loop D A :=
  if l.el.lastLeader = "" then
    let (leader, disc) := Discoverer.getLeader l.disc
    (leader.getD "", { l with disc := disc })
  else (l.el.lastLeader, l)

/-- A tick of a node that neither leads nor knows a leader. -/
def tickLost (l : Loop D A) : Loop D A :=
  let (nobody, disc) := storeSaysNoLeader l.disc
  let l := { l with disc := disc }
  if nobody then l.noLeader else l.leaderFailed

def tickInner (l : Loop D A) (agentsConnected : ℕ) : Loop D A :=
  let (leader, l) := l.knownLeader
  if l.el.leading then l.tickLeading agentsConnected
  else if leader ≠ "" then
    { l with el := l.el.emit (if l.el.registered then .heartbeat leader else .register leader) }
  else l.tickLost

/-- One tick; `agentsConnected` is what the local leader sees (0 if we do not lead). -/
def tick (l : Loop D A) (agentsConnected : ℕ) : List Request × Loop D A :=
  (l.tickInner agentsConnected).takeOut

def onReplyInner (l : Loop D A) : Request → Except LinkError Unit → Loop D A
  | .register leader, .ok () =>
    let el := { l.el with registered := true, failCount := 0, lastLeader := leader }
    { l with el := el, agent := el.publish l.agent leader }
  | .register _, .error _ => l.leaderFailed
  | .heartbeat leader, .ok () =>
    let el := { l.el with failCount := 0, lastLeader := leader }
    { l with el := el, agent := el.publish l.agent leader }
  | .heartbeat _, .error .notRegistered => { l with el := { l.el with registered := false } }
  | .heartbeat _, .error .failed => l.leaderFailed
  | .selfHeartbeat _, .ok () => { l with el := { l.el with selfBeatFails := 0 } }
  | .selfHeartbeat leader, .error .notRegistered =>
    { l with el := l.el.emit (.selfRegister leader) }
  | .selfHeartbeat _, .error .failed =>
    { l with el := { l.el with selfBeatFails := satAdd u32Max l.el.selfBeatFails 1 } }
  | .selfRegister _, .ok () => { l with el := { l.el with selfBeatFails := 0 } }
  | .selfRegister _, .error _ =>
    { l with el := { l.el with selfBeatFails := satAdd u32Max l.el.selfBeatFails 1 } }
  | .startLeader, _ => l
  | .stopLeader, _ => l

/-- Process the answer to a request; this may give a follow-up. -/
def onReply (l : Loop D A) (req : Request) (result : Except LinkError Unit) :
    List Request × Loop D A :=
  (l.onReplyInner req result).takeOut

end Loop

/-! ### What the loop leaves alone of its agent -/

/-- What none of the calls of the loop touches of the agent. -/
structure PortKeeps {A β : Type} [AgentPort A] (g : A → β) : Prop where
  setLeaderAddr : ∀ a addr, g (AgentPort.setLeaderAddr a addr) = g a
  setLeaseExpiresAt : ∀ a t, g (AgentPort.setLeaseExpiresAt a t) = g a
  stopAll : ∀ a, g (AgentPort.stopAll a) = g a

namespace PortKeeps

variable {D A β : Type} [Discoverer D] [AgentPort A] {g : A → β}

theorem publish (hg : PortKeeps g) (el : Election) (agent : A) (addr : String) :
    g (el.publish agent addr) = g agent := by
  unfold Election.publish
  dsimp only
  split_ifs
  · rw [hg.setLeaseExpiresAt, hg.setLeaderAddr]
  · rw [hg.setLeaderAddr]

theorem claim (hg : PortKeeps g) (l : Loop D A) : g l.claim.agent = g l.agent := by
  unfold Loop.claim
  dsimp only
  split_ifs
  · exact hg.publish _ _ _
  · rfl

theorem becomeLeaderNow (hg : PortKeeps g) (l : Loop D A) :
    g l.becomeLeaderNow.2.agent = g l.agent := by
  change g (if !l.el.leading then l.claim else l).agent = g l.agent
  split_ifs
  · exact hg.claim l
  · rfl

theorem stepDownInner (hg : PortKeeps g) (l : Loop D A) (release : Bool) :
    g (l.stepDownInner release).agent = g l.agent := by
  unfold Loop.stepDownInner
  dsimp only
  split_ifs <;> exact hg.publish _ _ _

theorem stepDown (hg : PortKeeps g) (l : Loop D A) (release : Bool) :
    g (l.stepDown release).2.agent = g l.agent := hg.stepDownInner l release

theorem tryTakeOver (hg : PortKeeps g) (l : Loop D A) : g l.tryTakeOver.agent = g l.agent :=
  (hg.claim _).trans (hg.publish _ _ _)

theorem failOver (hg : PortKeeps g) (l : Loop D A) : g l.failOver.agent = g l.agent := by
  unfold Loop.failOver
  dsimp only
  split_ifs
  · exact hg.tryTakeOver _
  · rfl

theorem leaderFailed (hg : PortKeeps g) (l : Loop D A) : g l.leaderFailed.agent = g l.agent := by
  unfold Loop.leaderFailed Loop.isolate
  dsimp only
  split_ifs
  · exact (hg.stopAll _).trans (hg.failOver l)
  · exact hg.failOver l
  · exact hg.failOver l

theorem noLeader (hg : PortKeeps g) (l : Loop D A) : g l.noLeader.agent = g l.agent := by
  unfold Loop.noLeader
  dsimp only
  split_ifs
  · exact hg.tryTakeOver _
  · exact hg.tryTakeOver _
  · rfl

theorem tickLeading (hg : PortKeeps g) (l : Loop D A) (connected : ℕ) :
    g (l.tickLeading connected).agent = g l.agent := by
  have hshow : ∀ l : Loop D A, g l.showExpiry.agent = g l.agent := by
    intro l
    unfold Loop.showExpiry
    split
    · exact hg.setLeaseExpiresAt _ _
    · rfl
  unfold Loop.tickLeading
  dsimp only
  split_ifs
  · exact (hg.stepDownInner _ _).trans (hshow _)
  · exact hshow _
  · exact (hg.stepDownInner _ _).trans (hshow _)
  · exact hshow _

theorem tick (hg : PortKeeps g) (l : Loop D A) (connected : ℕ) :
    g (l.tick connected).2.agent = g l.agent := by
  have hknown : l.knownLeader.2.agent = l.agent := by
    unfold Loop.knownLeader
    split_ifs <;> rfl
  change g (l.tickInner connected).agent = g l.agent
  rw [← hknown]
  unfold Loop.tickInner Loop.tickLost
  dsimp only
  split_ifs
  · exact hg.tickLeading _ _
  · rfl
  · rfl
  · exact hg.noLeader _
  · exact hg.leaderFailed _

theorem onReply (hg : PortKeeps g) (l : Loop D A) (req : Request)
    (result : Except LinkError Unit) : g (l.onReply req result).2.agent = g l.agent := by
  change g (l.onReplyInner req result).agent = g l.agent
  unfold Loop.onReplyInner
  split
  · exact hg.publish _ _ _
  · exact hg.leaderFailed l
  · exact hg.publish _ _ _
  · rfl
  · exact hg.leaderFailed l
  all_goals rfl

end PortKeeps

end Hop.Agent
