import Hop.Lead.Refusal
import Hop.Lead.Update

/-!
# The books at each call

While the leader places instances and stops old tasks, it books each reply before it makes the
next call. So the counts at a call follow from the counts at the start and the calls before it:
`Counts.after` replays one call. `Told` is the relation between two states of the leader that says
this of a part of an operation, together with a property of every call at the moment it is made;
it composes, and the functions that place and stop are instances.
-/

namespace Hop.Lead

open Hop.Types (Agent Job Map)

variable {agent : Agent}

/-- The number of instances of each job on each agent. -/
abbrev Counts : Type := String → String → ℕ

namespace Counts

/-- The counts after a call and its reply, while the instances of `name` are placed and stopped.
An accepted `run` in the place of an old task leaves them as they are. -/
def after (name : String) (k : Counts) : Call → Counts
  | .run agent job false .accepted => fun a n =>
    if agent.id = a ∧ job.name = n then satAdd u32Max (k agent.id job.name) 1 else k a n
  | .stopJob agent victim true => fun a n => if agent.id = a ∧ victim = n then 0 else k a n
  | .stopTask agent _ => fun a n =>
    if agent.id = a ∧ name = n then k agent.id name - 1 else k a n
  | _ => k

/-- The counts after a list of calls. -/
def afterAll (name : String) (k : Counts) (cs : List Call) : Counts := cs.foldl (after name) k

/-- At every call of a list `P` holds of the counts at that moment and of the call. -/
def AtCalls (name : String) (P : Counts → Call → Prop) : Counts → List Call → Prop
  | _, [] => True
  | k, c :: cs => P k c ∧ AtCalls name P (k.after name c) cs

variable {name : String} {P Q : Counts → Call → Prop}

theorem atCalls_append {k : Counts} {cs ds : List Call} : AtCalls name P k (cs ++ ds) ↔
    AtCalls name P k cs ∧ AtCalls name P (k.afterAll name cs) ds := by
  induction cs generalizing k with
  | nil => exact (iff_of_eq (true_and _)).symm
  | cons c cs ih => exact (and_congr_right fun _ => ih).trans (and_assoc).symm

theorem AtCalls.mono {k : Counts} {cs : List Call} (h : AtCalls name P k cs)
    (hPQ : ∀ k, ∀ c ∈ cs, P k c → Q k c) : AtCalls name Q k cs := by
  induction cs generalizing k with
  | nil => trivial
  | cons c cs ih =>
    exact ⟨hPQ k c List.mem_cons_self h.1,
      ih h.2 fun k d hd => hPQ k d (List.mem_cons_of_mem c hd)⟩

/-- The property at one of the calls. -/
theorem AtCalls.split {k : Counts} {pre post : List Call} {c : Call}
    (h : AtCalls name P k (pre ++ c :: post)) : P (k.afterAll name pre) c := by
  induction pre generalizing k with
  | nil => exact h.1
  | cons d pre ih => exact ih h.2

/-- The counts went from `k` to `k'` by the calls between two states of the transport, and at each
of these `P` holds. -/
structure Tally {N : Type} (name : String) (P : Counts → Call → Prop) (k : Counts) (net : Logged N)
    (k' : Counts) (net' : Logged N) : Prop where
  log : net.log <+: net'.log
  counts : k' = afterAll name k (net'.since net)
  calls : AtCalls name P k (net'.since net)

namespace Tally

variable {N : Type} {k k' k'' : Counts} {net net' net'' : Logged N}

theorem refl (k : Counts) (net : Logged N) : Tally name P k net k net := by
  refine ⟨List.prefix_rfl, ?_, ?_⟩
  · rw [Logged.since_refl]
    rfl
  · rw [Logged.since_refl]
    trivial

theorem trans (h : Tally name P k net k' net') (h' : Tally name P k' net' k'' net'') :
    Tally name P k net k'' net'' := by
  have hsince := Logged.since_trans h.log h'.log
  refine ⟨h.log.trans h'.log, ?_, ?_⟩
  · rw [hsince, h'.counts, h.counts, afterAll, afterAll, afterAll, List.foldl_append]
  · rw [hsince]
    exact atCalls_append.mpr ⟨h.calls, h.counts ▸ h'.calls⟩

theorem mono (h : Tally name P k net k' net')
    (hPQ : ∀ k, ∀ c ∈ net'.since net, P k c → Q k c) : Tally name Q k net k' net' :=
  ⟨h.log, h.counts, h.calls.mono hPQ⟩

theorem one {c : Call} (hlog : net'.log = net.log ++ [c]) (hcounts : k' = after name k c)
    (hP : P k c) : Tally name P k net k' net' := by
  have hsince := Logged.since_eq hlog
  refine ⟨hlog ▸ List.prefix_append _ _, ?_, ?_⟩
  · rw [hsince, hcounts]
    rfl
  · rw [hsince]
    exact ⟨hP, trivial⟩

/-- What holds at the first calls has to hold at the later ones only. -/
theorem atCalls_iff (h : Tally name P k net k' net') (hlog : net'.log <+: net''.log) :
    AtCalls name P k (net''.since net) ↔ AtCalls name P k' (net''.since net') := by
  rw [Logged.since_trans h.log hlog, atCalls_append, h.counts]
  exact and_iff_right h.calls

/-- A property of the calls alone holds of each of them. -/
theorem forall_calls {p : Call → Prop} (h : Tally name (fun _ => p) k net k' net') :
    ∀ c ∈ net'.since net, p c := by
  intro c hc
  obtain ⟨cs, ds, hcs⟩ := List.append_of_mem hc
  have hcalls := h.calls
  rw [hcs] at hcalls
  exact hcalls.split

end Tally

end Counts

namespace Leader

open Counts

variable {N : Type}

/-- A part of an operation, seen from its calls: the leader changed in its books, its round robin
and its events only, and its counts by the calls, at each of which `P` holds. -/
structure Told (name : String) (P : Counts → Call → Prop) (l : Leader) (net : Logged N)
    (l' : Leader) (net' : Logged N) : Prop where
  moves : Moves l net l' net'
  tally : Tally name P l.placedOn net l'.placedOn net'

/-- The counts depend on the books only. -/
theorem placedOn_congr {l l' : Leader} (h : l'.placed = l.placed) : l'.placedOn = l.placedOn := by
  funext a n
  rw [placedOn, placedOn, h]

namespace Told

variable {name : String} {P Q : Counts → Call → Prop} {l l' l'' : Leader}
  {net net' net'' : Logged N}

theorem trans (h : Told name P l net l' net') (h' : Told name P l' net' l'' net'') :
    Told name P l net l'' net'' :=
  ⟨h.moves.trans h'.moves, h.tally.trans h'.tally⟩

theorem mono (h : Told name P l net l' net')
    (hPQ : ∀ k, ∀ c ∈ net'.since net, P k c → Q k c) : Told name Q l net l' net' :=
  ⟨h.moves, h.tally.mono hPQ⟩

/-- No call, and nothing booked. -/
theorem quiet (hmoves : Moves l net l' net) (hplaced : l'.placed = l.placed) :
    Told name P l net l' net :=
  ⟨hmoves, placedOn_congr hplaced ▸ .refl _ net⟩

theorem refl (l : Leader) (net : Logged N) : Told name P l net l net :=
  quiet (.refl l net) rfl

/-- One call, and what is booked for it. -/
theorem one {c : Call} (hmoves : Moves l net l' net') (hlog : net'.log = net.log ++ [c])
    (hcounts : l'.placedOn = after name l.placedOn c) (hP : P l.placedOn c) :
    Told name P l net l' net' :=
  ⟨hmoves, .one hlog hcounts hP⟩

theorem emit (l : Leader) (net : Logged N) (e : Event) : Told name P l net (l.emit e) net :=
  quiet (moves_emit l net e) rfl

theorem nextAgent (l : Leader) (net : Logged N) : Told name P l net l.nextAgent.2 net :=
  quiet (moves_nextAgent l net) l.nextAgent_books.1

variable [Transport N]

/-- A `run` that was not accepted. -/
theorem refused {job : Job} {r : RunReply} (h : Transport.run net agent job false = (r, net'))
    (hr : r ≠ .accepted) (hP : P l.placedOn (.run agent job false r)) :
    Told name P l net l net' := by
  refine one (moves_run l h) (Logged.log_run h) ?_ hP
  rcases r with _ | _ | _ | _ | _
  · exact absurd rfl hr
  all_goals rfl

/-- An accepted `run`, and its booking. -/
theorem accepted {job : Job} (h : Transport.run net agent job false = (.accepted, net'))
    (hP : P l.placedOn (.run agent job false .accepted)) :
    Told name P l net (l.trackPlacement agent.id job.name) net' := by
  refine one ((moves_run l h).trans (moves_trackPlacement _ _ _ _)) (Logged.log_run h) ?_ hP
  funext a n
  rw [placedOn_trackPlacement]
  rfl

/-- A stop that was not confirmed. -/
theorem unconfirmed {victim : String} (h : Transport.stopJob net agent victim = (false, net'))
    (hP : P l.placedOn (.stopJob agent victim false)) : Told name P l net l net' :=
  one (moves_stopJob l h) (Logged.log_stopJob h) rfl hP

/-- A confirmed stop, and its booking. -/
theorem confirmed {victim : String} (h : Transport.stopJob net agent victim = (true, net'))
    (hP : P l.placedOn (.stopJob agent victim true)) :
    Told name P l net (l.dropPlacement agent.id victim) net' := by
  refine one ((moves_stopJob l h).trans (moves_dropPlacement _ _ _ _)) (Logged.log_stopJob h) ?_ hP
  funext a n
  rw [placedOn_dropPlacement]
  rfl

end Told

end Leader

end Hop.Lead
