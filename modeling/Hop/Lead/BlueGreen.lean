import Hop.Lead.Preempt

/-!
# A blue-green update that fails

A blue-green update places everything new beside the old and only then stops the old; if an
instance does not fit it is to fail with the old deployment intact. It does stop nothing, but the
instances that were placed before the one that failed stay, and stay booked, and no reconcile
trims them: the counts are what they were exactly if no agent accepted an instance
(`blueGreen_failed_intact_iff`), however often the update is tried.
-/

namespace Hop.Lead

open Hop.Types (Agent Job Map Task)

variable {name : String} {job : Job} {c : Call}

/-- Whether the call stops something. -/
def Call.isStop : Call → Bool
  | .stopJob _ _ _ => true
  | .stopTask _ _ => true
  | .deleteJob _ _ => true
  | _ => false

namespace Leader

open Counts

variable {N : Type}

/-! ### Calls that only add -/

/-- The call asks an agent to run an instance of `name` beside what it runs, or for its tasks. -/
def Grows (name : String) : Call → Prop
  | .run _ j false _ => j.name = name
  | .tasks _ _ => True
  | _ => False

theorem Grows.cases (h : Grows name c) (k : Counts) :
    k.after name c = k ∧ (∀ agent j b, c ≠ .run agent j b .accepted) ∨
      ∃ agent j, c = .run agent j false .accepted ∧ j.name = name := by
  rcases c with ⟨agent, j, _ | _, r⟩ | _ | _ | _ | _ | _
  · rcases r with _ | _ | _ | _ | _
    · exact .inr ⟨agent, j, rfl, h⟩
    all_goals exact .inl ⟨rfl, by simp⟩
  · exact h.elim
  · exact h.elim
  · exact h.elim
  · exact h.elim
  · exact .inl ⟨rfl, by simp⟩
  · exact h.elim

theorem Grows.isStop (h : Grows name c) : c.isStop = false := by
  rcases c with _ | _ | _ | _ | _ | _
  · rfl
  · exact h.elim
  · exact h.elim
  · exact h.elim
  · rfl
  · rfl

/-- What only adds does not take, and keeps a count within its type. -/
theorem Grows.le_after (h : Grows name c) {k : Counts} {a : String} (hk : k a name ≤ u32Max) :
    k a name ≤ k.after name c a name ∧ k.after name c a name ≤ u32Max := by
  rcases h.cases k with ⟨heq, -⟩ | ⟨agent, j, rfl, rfl⟩
  · rw [heq]
    exact ⟨le_refl _, hk⟩
  · by_cases ha : agent.id = a
    · subst ha
      have hsame : k.after j.name (.run agent j false .accepted) agent.id j.name =
          satAdd u32Max (k agent.id j.name) 1 := if_pos ⟨rfl, rfl⟩
      rw [hsame, satAdd]
      omega
    · have hother : k.after j.name (.run agent j false .accepted) a j.name = k a j.name :=
        if_neg fun h => ha h.1
      rw [hother]
      exact ⟨le_refl _, hk⟩

theorem afterAll_grows {k : Counts} {cs : List Call} {a : String} (hk : k a name ≤ u32Max)
    (h : ∀ c ∈ cs, Grows name c) :
    k a name ≤ afterAll name k cs a name := by
  induction cs generalizing k with
  | nil => exact le_refl _
  | cons c cs ih =>
    obtain ⟨hc, hcs⟩ := List.forall_mem_cons.mp h
    obtain ⟨hle, hbound⟩ := hc.le_after hk
    exact hle.trans (ih hbound hcs)

/-- An accepted `run` adds one on its agent, below the largest count. -/
theorem after_accepted (k : Counts) (agent : Agent) (j : Job) :
    (k agent.id j.name ≤ u32Max →
      (k.after j.name (.run agent j false .accepted) agent.id j.name = k agent.id j.name ↔
        k agent.id j.name = u32Max)) ∧
      ∀ a, a ≠ agent.id → k.after j.name (.run agent j false .accepted) a j.name = k a j.name := by
  have hsame : k.after j.name (.run agent j false .accepted) agent.id j.name =
      satAdd u32Max (k agent.id j.name) 1 := if_pos ⟨rfl, rfl⟩
  refine ⟨fun hk => ?_, fun a ha => if_neg fun h => ha h.1.symm⟩
  rw [hsame, satAdd]
  omega

/-- Calls that only add leave the counts exactly if what was accepted could not be counted. -/
theorem afterAll_eq_iff {k : Counts} {cs : List Call} (hk : ∀ a, k a name ≤ u32Max)
    (h : ∀ c ∈ cs, Grows name c) : (∀ a, afterAll name k cs a name = k a name) ↔
      ∀ agent j b, .run agent j b .accepted ∈ cs → k agent.id name = u32Max := by
  induction cs generalizing k with
  | nil => exact ⟨fun _ _ _ _ hmem => absurd hmem List.not_mem_nil, fun _ _ => rfl⟩
  | cons c cs ih =>
    obtain ⟨hc, hcs⟩ := List.forall_mem_cons.mp h
    rcases hc.cases k with ⟨heq, hno⟩ | ⟨agent, j, rfl, hj⟩
    · rw [afterAll, List.foldl_cons, heq]
      refine (ih hk hcs).trans (forall₃_congr fun agent j b => ?_)
      rw [List.mem_cons, or_iff_right (hno agent j b).symm]
    · subst hj
      obtain ⟨hfull, hother⟩ := after_accepted k agent j
      have hbound := fun a => (hc.le_after (hk a)).2
      have hrest := ih hbound hcs
      constructor
      · intro hall
        -- the counts cannot have come back once they had grown
        have hsame : ∀ a, k.after j.name (.run agent j false .accepted) a j.name = k a j.name :=
          fun a => le_antisymm ((afterAll_grows (hbound a) hcs).trans (hall a).le)
            (hc.le_after (hk a)).1
        intro agent' j' b hmem
        rcases List.mem_cons.mp hmem with heq | hmem
        · cases heq
          exact (hfull (hk agent.id)).mp (hsame agent.id)
        · rw [← hsame]
          exact hrest.mp (fun a => (hall a).trans (hsame a).symm) agent' j' b hmem
      · intro hall
        have hsame : ∀ a, k.after j.name (.run agent j false .accepted) a j.name = k a j.name := by
          intro a
          by_cases ha : a = agent.id
          · subst ha
            exact (hfull (hk agent.id)).mpr (hall agent j false List.mem_cons_self)
          · exact hother a ha
        refine fun a => (hrest.mpr (fun agent' j' b hmem => ?_) a).trans (hsame a)
        rw [hsame]
        exact hall agent' j' b (List.mem_cons_of_mem _ hmem)

/-! ### The update -/

variable [Transport N]

theorem tally_jobStatusLoop (l : Leader) (name n : String) (agents : List Agent) (k : Counts)
    (net : Logged N) : Tally n (fun k' c => c.isTasks = true ∧ k' = k) k net k
      (l.jobStatusLoop name agents net).2 := by
  induction agents generalizing net with
  | nil => exact .refl k net
  | cons a rest ih =>
    rw [jobStatusLoop]
    by_cases hzero : l.placedOn a.id name = 0
    · rw [if_pos hzero]
      exact ih net
    · rw [if_neg hzero]
      split
      · rename_i net' h
        exact (Tally.one (log_tasks h) rfl ⟨rfl, rfl⟩).trans (ih net')
      · rename_i tasks net' h
        exact (Tally.one (log_tasks h) rfl ⟨rfl, rfl⟩).trans (ih net')

theorem tally_snapshotJobTasks (l : Leader) (net : Logged N) (name n : String) (k : Counts) :
    Tally n (fun k' c => c.isTasks = true ∧ k' = k) k net k (l.snapshotJobTasks net name).2 := by
  rw [snapshotJobTasks, jobStatus]
  rcases l.store.get name with _ | j
  · exact .refl k net
  · exact tally_jobStatusLoop l name n l.agents k net

theorem told_blueGreenLoop (name : String) (job : Job) (count k i : ℕ) (l : Leader)
    (net : Logged N) : Told name (fun _ => Asks job) l net (blueGreenLoop job count k i l net).2.1
      (blueGreenLoop job count k i l net).2.2 := by
  obtain ⟨_, -, h, -⟩ := Tries.blueGreenLoop (I := fun _ => Told name (fun _ => Asks job) l net)
    (fun _ => told_tries name job l net) count k i 0 (.refl l net)
  exact h

theorem placedOn_storePut {l l' : Leader} (h : l.storePut job = .ok l') :
    l'.placedOn = l.placedOn := by
  rw [storePut] at h
  split at h
  · cases h
    rfl
  · cases h

theorem Asks.grows (h : Asks job c) : Grows job.name c := by
  rcases c with ⟨agent, j, _ | _, r⟩ | _ | _ | _ | _ | _
  · exact congrArg Job.name h
  all_goals exact h.elim

theorem isTasks_grows (h : c.isTasks = true) : Grows name c := by
  rcases c with _ | _ | _ | _ | _ | _
  all_goals trivial

/-- A blue-green update that does not succeed only adds. -/
theorem tally_updateBlueGreen {l : Leader} {net : Logged N}
    (hfail : (l.updateBlueGreen net job).1 ≠ .ok ()) :
    Tally job.name (fun _ => Grows job.name) l.placedOn net (l.updateBlueGreen net job).2.1.placedOn
      (l.updateBlueGreen net job).2.2 := by
  have hsnap := (tally_snapshotJobTasks l net job.name job.name l.placedOn).mono
    (Q := fun _ => Grows job.name) fun _ _ _ h => isTasks_grows h.1
  rw [updateBlueGreen] at hfail ⊢
  generalize l.snapshotJobTasks net job.name = snap at hsnap hfail ⊢
  obtain ⟨olds, net₁⟩ := snap
  dsimp only at hsnap hfail ⊢
  rcases hput : l.storePut job with e | l₁
  · exact hsnap
  · rw [← placedOn_storePut hput] at hsnap ⊢
    have hloop := (told_blueGreenLoop job.name job job.desired job.desired 0 l₁ net₁).tally.mono
      (Q := fun _ => Grows job.name) fun _ _ _ => Asks.grows
    simp only [hput] at hfail ⊢
    generalize blueGreenLoop job job.desired job.desired 0 l₁ net₁ = r at hloop hfail ⊢
    obtain ⟨e | _, l₂, net₂⟩ := r
    · exact hsnap.trans hloop
    · exact absurd rfl hfail

/-- The update failed because an instance could not be placed. -/
def BlueGreenFailed (r : Except Error Unit) : Prop :=
  ∃ name inst count why, r = .error (.blueGreen name inst count why)

theorem policy_updated (old job : Job) : (updated old job).policy = job.policy := rfl

theorem tally_updateJob {l : Leader} {net : Logged N} (hpolicy : job.policy = .blueGreen)
    (hfail : BlueGreenFailed (l.updateJob net job).1) :
    Tally job.name (fun _ => Grows job.name) l.placedOn net (l.updateJob net job).2.1.placedOn
      (l.updateJob net job).2.2 := by
  obtain ⟨name, inst, count, why, hfail⟩ := hfail
  rcases hget : l.store.get job.name with _ | old
  · rw [updateJob, hget]
    exact .refl _ net
  · rcases hroll : job.checkRollable with e | ⟨⟩
    · rw [updateJob, hget]
      simp only [hroll]
      exact .refl _ net
    · rw [updateJob_eq net hget hroll] at hfail ⊢
      have hrollout : l.rollout net (updated old job) =
          l.updateBlueGreen net (updated old job) := by
        rw [rollout, policy_updated, hpolicy]
      simp only [hrollout] at hfail ⊢
      have hne : (l.updateBlueGreen net (updated old job)).1 ≠ .ok () := by
        rw [hfail]
        simp
      have htally := tally_updateBlueGreen hne
      rw [placedOn_congr (renumbers_normalizePriorities _).books.1, hfail]
      exact htally

/-- The update is tried `n` times. -/
def tries (job : Job) : ℕ → Leader → Logged N → Leader × Logged N
  | 0, l, net => (l, net)
  | n + 1, l, net => tries job n (l.updateJob net job).2.1 (l.updateJob net job).2.2

/-- Each of `n` tries fails because an instance could not be placed. -/
def AllFail (job : Job) : ℕ → Leader → Logged N → Prop
  | 0, _, _ => True
  | n + 1, l, net => BlueGreenFailed (l.updateJob net job).1 ∧
      AllFail job n (l.updateJob net job).2.1 (l.updateJob net job).2.2

theorem tally_tries {l : Leader} {net : Logged N} {n : ℕ} (hpolicy : job.policy = .blueGreen)
    (hfail : AllFail job n l net) :
    Tally job.name (fun _ => Grows job.name) l.placedOn net (tries job n l net).1.placedOn
      (tries job n l net).2 := by
  induction n generalizing l net with
  | zero => exact .refl _ net
  | succ n ih => exact (tally_updateJob hpolicy hfail.1).trans (ih hfail.2)

/-- **A failed blue-green update, tried any number of times, leaves the deployment as it was
exactly if no agent accepted one of the new instances.** No stop is sent either way. (An agent
whose count is the largest number there is cannot be booked one more.) -/
theorem blueGreen_failed_intact_iff (l : Leader) (net : Logged N) (job : Job) (n : ℕ)
    (hpolicy : job.policy = .blueGreen) (hcounts : ∀ a, l.placedOn a job.name ≤ u32Max)
    (hfail : AllFail job n l net) :
    (∀ c ∈ (tries job n l net).2.since net, c.isStop = false) ∧
    (((∀ c ∈ (tries job n l net).2.since net, c.isStop = false) ∧
        ∀ a, (tries job n l net).1.placedOn a job.name = l.placedOn a job.name) ↔
      ∀ agent j b, .run agent j b .accepted ∈ (tries job n l net).2.since net →
        l.placedOn agent.id job.name = u32Max) := by
  have htally := tally_tries hpolicy hfail
  have hgrows := htally.forall_calls
  have hstop : ∀ c ∈ (tries job n l net).2.since net, c.isStop = false := fun c hc =>
    (hgrows c hc).isStop
  refine ⟨hstop, (and_iff_right hstop).trans ?_⟩
  rw [htally.counts]
  exact afterAll_eq_iff hcounts hgrows

/-- Agents with room for a number of instances. -/
structure Room where
  free : ℕ

instance : Transport Room where
  run n _ _ _ := if n.free = 0 then (.noCapacity, n) else (.accepted, ⟨n.free - 1⟩)
  stopJob n _ _ := (true, n)
  stopTask n _ _ := n
  deleteJob n _ _ := n
  tasks n _ := (some [{ id := "web-1", jobName := "web" }], n)
  pause n _ := n

theorem nodup_oneWeb : (List.map Job.name [{ name := "web" }]).Nodup := by decide

theorem length_oneWeb : [({ name := "web" } : Job)].length ≤ maxJobs := by decide

/-- One agent with one instance of `web`. -/
def oneWeb : Leader :=
  { Leader.new "a" ⟨[{ name := "web" }], 0, nodup_oneWeb, length_oneWeb⟩ with
    agents := [{ id := "a" }]
    placed := SortedMap.empty.insert "a" (SortedMap.empty.insert "web" 1)
    agentsSorted := sorted_oneAgent }

/-- `web` with two instances, to be rolled out blue-green. -/
def blueGreenWeb : Job := { name := "web", count := 2, updatePolicy := some .blueGreen }

theorem placedOn_oneWeb (a : String) : oneWeb.placedOn a "web" ≤ u32Max := by
  rw [placedOn, oneWeb]
  dsimp only
  rw [SortedMap.get?_insert]
  split_ifs <;> simp [u32Max]

def noRoom : Logged Room := ⟨⟨0⟩, []⟩

/-- Where no agent has room, the update fails, and the books are as they were. -/
theorem blueGreen_failed_intact_full :
    AllFail blueGreenWeb 1 oneWeb noRoom ∧
      ∀ a, (tries blueGreenWeb 1 oneWeb noRoom).1.placedOn a blueGreenWeb.name =
        oneWeb.placedOn a blueGreenWeb.name := by
  have hone : (oneWeb.updateJob noRoom blueGreenWeb).1 =
      .error (.blueGreen (.new "web") 1 2 (.full 1)) := by decide
  have hfail : AllFail blueGreenWeb 1 oneWeb noRoom := ⟨⟨_, _, _, _, hone⟩, trivial⟩
  have hnone : ∀ c ∈ (tries blueGreenWeb 1 oneWeb noRoom).2.since noRoom,
      c.accepts = true → c.isRun = false := by decide
  have hiff := blueGreen_failed_intact_iff oneWeb noRoom blueGreenWeb 1 rfl placedOn_oneWeb hfail
  refine ⟨hfail, (hiff.2.mpr fun agent j b hmem => ?_).2⟩
  have hrun : Call.isRun (.run agent j b .accepted) = false :=
    hnone _ hmem (by simp [Call.accepts])
  cases hrun

/-- With room for one instance more but not for two, the update fails, and what it placed stays
booked beside the old. -/
theorem blueGreen_failed_one_more :
    blueGreenWeb.policy = .blueGreen ∧
      BlueGreenFailed (oneWeb.updateJob (⟨⟨1⟩, []⟩ : Logged Room) blueGreenWeb).1 ∧
      oneWeb.placedOn "a" "web" = 1 ∧
      (oneWeb.updateJob (⟨⟨1⟩, []⟩ : Logged Room) blueGreenWeb).2.1.placedOn "a" "web" = 2 :=
  ⟨rfl, ⟨.new "web", 2, 2, .full 1, by decide⟩, by decide, by decide⟩

end Leader

end Hop.Lead
