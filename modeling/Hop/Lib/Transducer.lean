import Mathlib

/-!
# Transducers

A transducer reads one item at a time and gives on what it makes of it. A program reads its input
in chunks and hands each result to a callback, which is an action of some monad. A reader that
works item by item does not see the chunks (`foldlM_flatten`), and what the callback gets is the
output of the transducer (`give_run_cons`).
-/

namespace Hop

variable {σ α β : Type} {m : Type → Type} [Monad m]

/-- Chunks change nothing for a reader that works item by item. -/
theorem foldlM_flatten [LawfulMonad m] (step : σ → α → m σ) (chunks : List (List α)) (s : σ) :
    chunks.foldlM (fun s c => c.foldlM step s) s = chunks.flatten.foldlM step s := by
  induction chunks generalizing s with
  | nil => rfl
  | cons c chunks ih =>
    rw [List.foldlM_cons, List.flatten_cons, List.foldlM_append]
    exact congrArg _ (funext ih)

theorem lift_bind [LawfulMonad m] {ε γ δ : Type} (x : m γ) (f : γ → m δ) :
    (ExceptT.lift (x >>= f) : ExceptT ε m δ) =
      ExceptT.lift x >>= fun c => ExceptT.lift (f c) := by
  apply ExceptT.ext
  rw [ExceptT.run_bind_lift, ExceptT.run_lift, map_bind]
  rfl

/-- What an item makes of the state, and what is given on. -/
structure Transducer (σ α β : Type) where
  next : σ → α → List β × σ

namespace Transducer

variable (T : Transducer σ α β)

/-- What is given on for a whole input, and the state behind it. -/
def run : σ → List α → List β × σ
  | s, [] => ([], s)
  | s, a :: as =>
    ((T.next s a).1 ++ (run (T.next s a).2 as).1, (run (T.next s a).2 as).2)

theorem run_append (s : σ) (as bs : List α) :
    T.run s (as ++ bs) =
      ((T.run s as).1 ++ (T.run (T.run s as).2 bs).1, (T.run (T.run s as).2 bs).2) := by
  induction as generalizing s with
  | nil => rfl
  | cons a as ih =>
    rw [List.cons_append, run, ih, run]
    dsimp only
    rw [List.append_assoc]

/-- Hand on the output, and keep the state. -/
def give (sink : β → m Unit) (r : List β × σ) : m σ := do
  forM r.1 sink
  pure r.2

variable [LawfulMonad m] (sink : β → m Unit)

theorem give_nil (s : σ) : give sink ([], s) = pure s := by
  rw [give, List.forM_nil, pure_bind]

theorem give_cons (b : β) (bs : List β) (s : σ) :
    give sink (b :: bs, s) = (sink b >>= fun _ => give sink (bs, s)) := by
  rw [give, List.forM_cons, bind_assoc]
  rfl

theorem give_bind (r : List β × σ) (f : σ → List β × σ) :
    (give sink r >>= fun s => give sink (f s)) = give sink (r.1 ++ (f r.2).1, (f r.2).2) := by
  simp only [give, bind_assoc, pure_bind, List.forM_append]

theorem give_map {γ τ : Type} (f : β → γ) (g : σ → τ) (sink : γ → m Unit) (r : List β × σ) :
    give sink (r.1.map f, g r.2) = (give (fun b => sink (f b)) r >>= fun s => pure (g s)) := by
  rw [give, give, List.forM_map, bind_assoc]
  simp only [pure_bind]

theorem give_run_cons (s : σ) (a : α) (as : List α) :
    give sink (T.run s (a :: as)) =
      (give sink (T.next s a) >>= fun s => give sink (T.run s as)) := by
  rw [give_bind, run]

end Transducer

end Hop
