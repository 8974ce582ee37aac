import Mathlib
import FlowGraph.Fault

/-! Total correctness of actions. `Ensures x s Q` says that `x` does not break off when it starts
in the state `s`, and that `Q` holds of what it returns and of the state it leaves. There is one
rule for each way to put actions together; a loop over a list carries an invariant that speaks
of the elements still to come. -/

namespace FlowGraph

variable {σ α β : Type}

/-- The second action starts where the first ends, unless the first breaks off. -/
theorem run_bind {ε : Type} (x : ExceptT ε (StateM σ) α) (f : α → ExceptT ε (StateM σ) β) (s : σ) :
    (x >>= f).run s = match x.run s with
      | (.ok a, t) => (f a).run t
      | (.error e, t) => (.error e, t) := by
  rw [ExceptT.run_bind]
  change StateT.bind x.run _ s = _
  rw [StateT.bind]
  rcases x.run s with ⟨e | a, t⟩ <;> rfl

/-- What a first action leaves for the second is all that matters of it. -/
theorem run_bind_of_run_eq {ε : Type} {x y : ExceptT ε (StateM σ) α} {s : σ}
    (h : x.run s = y.run s) (f : α → ExceptT ε (StateM σ) β) :
    (x >>= f).run s = (y >>= f).run s := by
  rw [run_bind, run_bind, h]

def Ensures (x : Action σ α) (s : σ) (Q : α → σ → Prop) : Prop :=
  ∃ a t, x.run s = (.ok a, t) ∧ Q a t

namespace Ensures

theorem mono {x : Action σ α} {s : σ} {Q R : α → σ → Prop} (h : Ensures x s Q)
    (hq : ∀ a t, Q a t → R a t) : Ensures x s R := by
  obtain ⟨a, t, hx, ha⟩ := h
  exact ⟨a, t, hx, hq a t ha⟩

/-- There is one way to end. -/
theorem of_run {x : Action σ α} {s t : σ} {a : α} {Q : α → σ → Prop} (h : Ensures x s Q)
    (hrun : x.run s = (.ok a, t)) : Q a t := by
  obtain ⟨a', t', hrun', hq⟩ := h
  cases hrun.symm.trans hrun'
  exact hq

theorem all {ι : Type} [h₀ : Nonempty ι] {x : Action σ α} {s : σ} {Q : ι → α → σ → Prop}
    (h : ∀ i, Ensures x s (Q i)) : Ensures x s fun a t => ∀ i, Q i a t := by
  obtain ⟨i₀⟩ := h₀
  obtain ⟨a, t, hx, -⟩ := h i₀
  exact ⟨a, t, hx, fun i => (h i).of_run hx⟩

protected theorem pure {a : α} {s : σ} {Q : α → σ → Prop} (h : Q a s) :
    Ensures (pure a : Action σ α) s Q := ⟨a, s, rfl, h⟩

protected theorem get {s : σ} {Q : σ → σ → Prop} (h : Q s s) :
    Ensures (get : Action σ σ) s Q := ⟨s, s, rfl, h⟩

protected theorem modify {f : σ → σ} {s : σ} {Q : Unit → σ → Prop} (h : Q () (f s)) :
    Ensures (modify f : Action σ Unit) s Q := ⟨(), f s, rfl, h⟩

/-- A computation without state that succeeds. -/
theorem ok {e : Except Fault α} {a : α} {s : σ} {Q : α → σ → Prop} (he : e = .ok a)
    (h : Q a s) : Ensures (liftM e : Action σ α) s Q := by
  subst he
  exact ⟨a, s, rfl, h⟩

protected theorem bind {x : Action σ α} {f : α → Action σ β} {s : σ} {R : β → σ → Prop}
    (h : Ensures x s fun a t => Ensures (f a) t R) : Ensures (x >>= f) s R := by
  obtain ⟨a, t, hx, b, u, hf, hr⟩ := h
  refine ⟨b, u, ?_, hr⟩
  rw [run_bind, hx]
  exact hf

theorem forM {f : α → Action σ Unit} {I : List α → σ → Prop}
    (step : ∀ x rest t, I (x :: rest) t → Ensures (f x) t fun _ u => I rest u)
    {xs : List α} {s : σ} (h : I xs s) : Ensures (xs.forM f) s fun _ t => I [] t := by
  induction xs generalizing s with
  | nil => exact .pure h
  | cons x xs ih => exact .bind ((step x xs s h).mono fun _ _ ht => ih ht)

/-- The invariant of a loop that collects results also speaks of the results so far. -/
theorem mapM {f : α → Action σ β} {I : List α → List β → σ → Prop}
    (step : ∀ x rest done t, I (x :: rest) done t →
      Ensures (f x) t fun b u => I rest (done ++ [b]) u)
    {xs : List α} {s : σ} (h : I xs [] s) : Ensures (xs.mapM f) s fun bs t => I [] bs t := by
  have gathered : ∀ (xs : List α) (done : List β) (s : σ), I xs done s →
      Ensures (xs.mapM f) s fun bs t => I [] (done ++ bs) t := by
    intro xs
    induction xs with
    | nil => intro done s h; exact .pure (by simpa using h)
    | cons x xs ih =>
      intro done s h
      rw [List.mapM_cons]
      refine .bind ((step x xs done s h).mono fun b t hb => ?_)
      refine .bind ((ih _ t hb).mono fun bs u hu => ?_)
      exact .pure (by simpa using hu)
  simpa using gathered xs [] s h

end Ensures

end FlowGraph
