import Hop.Lib.Machine
import Hop.Agent.Election

/-!
# Runs of the election over the elector

The machine that composes the loop of `Election.lean` with the elector of `Elector.lean` as
its lease side. The environment moves the clock forward, answers the orders in the queue to
the lease store in FIFO order (or loses one: each is answered at most once), answers the
requests that the loop emitted, and calls the loop in any order. How many orders the queue
takes during a call is also the environment's choice, so that every outcome of a bounded
queue is covered.

Two things are recorded besides the state of the program: what the last processed read of
the lease store said, and for each call of `Agent::stop_all` what it said at that moment.
-/

namespace Hop.Agent

/-- What a read of the lease store said: the leader, and whether the store answered. -/
abbrev ReadAnswer : Type := Option String × Bool

/-- The store answered, and nobody holds a live lease. -/
def nobodyLeads : ReadAnswer := (none, true)

/-- A node that elects: the program's state, and the record of what happened. -/
structure Voter (A : Type) where
  loop : Loop (Elector LeaseQueue) (Counted A)
  /-- The requests the loop has emitted. -/
  emitted : List Request
  /-- What the last processed read said, if any was processed. -/
  lastRead : Option ReadAnswer
  /-- For each call of `stop_all`, what the last processed read said at that moment. -/
  stopped : List (Option ReadAnswer)
deriving DecidableEq

/-- What the environment may do. -/
inductive ElectionEvent
  /-- The wall clock moves on to `t`. -/
  | clock (t : ℕ)
  | electorTick (now room : ℕ)
  /-- The oldest order in the queue is answered. -/
  | leaseReply (r : LeaseReply)
  /-- The oldest order in the queue is never answered. -/
  | leaseLost
  | tick (agentsConnected room : ℕ)
  | reply (req : Request) (result : Except LinkError Unit) (room : ℕ)
  | becomeLeaderNow (room : ℕ)
  | stepDown (release : Bool) (room : ℕ)

namespace Voter

variable {A : Type} [AgentPort A]

/-- The elector of the node. -/
abbrev elector (s : Voter A) : Elector LeaseQueue := s.loop.disc

/-- The loop with room for `room` more orders in its queue. -/
def loopWithRoom (s : Voter A) (room : ℕ) : Loop (Elector LeaseQueue) (Counted A) :=
  { s.loop with disc := { s.elector with ops := { s.elector.ops with room := room } } }

/-- Carry out a call of the loop and record what it did. -/
def call (s : Voter A) (room : ℕ)
    (f : Loop (Elector LeaseQueue) (Counted A) →
      List Request × Loop (Elector LeaseQueue) (Counted A)) : Voter A :=
  let (reqs, loop) := f (s.loopWithRoom room)
  { s with
    loop := loop
    emitted := s.emitted ++ reqs
    stopped := s.stopped ++ List.replicate (loop.agent.stops - s.loop.agent.stops) s.lastRead }

/-- The answer that a reply brings, if it answers a read. -/
def readOf : LeaseReply → Option ReadAnswer
  | .read leader ok => some (leader, ok)
  | _ => none

/-- The oldest order leaves the queue. -/
def answered (s : Voter A) (rest : List LeaseOp) : Elector LeaseQueue :=
  { s.elector with ops := { s.elector.ops with sent := rest } }

def step (s : Voter A) : ElectionEvent → Option (Voter A)
  | .clock t =>
    if s.elector.clock ≤ t ∧ t ≤ u64Max then
      some { s with loop := { s.loop with disc := { s.elector with clock := t } } }
    else none
  | .electorTick now room =>
    let l := s.loopWithRoom room
    some { s with loop := { l with disc := l.disc.tick now } }
  | .leaseReply r =>
    match s.elector.ops.sent with
    | op :: rest =>
      if op = r.op then
        some { s with
          loop := { s.loop with disc := (s.answered rest).onReply r }
          lastRead := (readOf r).orElse fun _ => s.lastRead }
      else none
    | [] => none
  | .leaseLost =>
    match s.elector.ops.sent with
    | _ :: rest => some { s with loop := { s.loop with disc := s.answered rest } }
    | [] => none
  | .tick agentsConnected room => some (s.call room fun l => l.tick agentsConnected)
  | .reply req result room =>
    if req ∈ s.emitted then some (s.call room fun l => l.onReply req result) else none
  | .becomeLeaderNow room => some (s.call room fun l => l.becomeLeaderNow)
  | .stepDown release room => some (s.call room fun l => l.stepDown release)

/-- A node at boot: `holding` is the outcome of the boot claim. -/
def boot (ip : String) (port now ttlMs : ℕ) (holding : Bool) (agent : A) : Voter A where
  loop :=
    { el := Election.new ip port
      disc := Elector.new ⟨[], 0⟩ now ttlMs holding
      agent := ⟨agent, 0⟩ }
  emitted := []
  lastRead := none
  stopped := []

end Voter

/-- The election over the elector, as a machine. -/
def electionMachine (A : Type) [AgentPort A] : Machine (Voter A) ElectionEvent where
  Init s := ∃ ip port now ttlMs holding agent,
    now ≤ u64Max ∧ s = Voter.boot ip port now ttlMs holding agent
  step := Voter.step

end Hop.Agent
