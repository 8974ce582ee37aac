import Mathlib
import FlowGraph.Proofs.Ensures
import FlowGraph.Proofs.Threading.Parametric

/-! The threading of references under the eyes of a watcher, who sees every state that the pass
goes through, every short cut over eliminated blocks and every reference that is handed out. It is
the same pass in another monad: `simplify_shows` says that it leaves the same state and breaks off
alike. What is shown of all events therefore holds at every moment of a pass. -/

namespace FlowGraph

namespace Threading

inductive Event where
  /-- A change led to this state. -/
  | state (s : Threading)
  /-- In this state the eliminated block `b` leads to `dest`. -/
  | resolved (s : Threading) (b dest : BlockRef)
  /-- In this state `dest` takes the place of a reference to `b`. -/
  | threaded (s : Threading) (b dest : BlockRef)

/-- The graph at the moment of the event. -/
def Event.graph : Event → Func
  | state s | resolved s _ _ | threaded s _ _ => s.fn

structure Watched where
  state : Threading
  seen : List Event := []

namespace Watched

abbrev M := Action Watched

def note (e : Threading → Event) : M Unit :=
  modifyThe Watched fun w => { w with seen := w.seen ++ [e w.state] }

/-- Every change is seen. -/
instance : MonadStateOf Threading M where
  get := return (← getThe Watched).state
  set s := modifyThe Watched fun w => ⟨s, w.seen ++ [.state s]⟩
  modifyGet f := modifyGetThe Watched fun w =>
    let (a, s) := f w.state
    (a, ⟨s, w.seen ++ [.state s]⟩)

instance : Listener M where
  resolved b dest := note fun s => .resolved s b dest
  threaded b dest := note fun s => .threaded s b dest

def simplify (o : OpRef) (bb : Option BlockRef) : M Unit := simplifyIn M o bb

def visitor : Visitor Watched := visitorIn M

def run : M Unit := do
  Visitor.walk (·.state.fn) [visitor] (← getThe Threading).fn.entry

/-- All graphs that a watched action goes through, the one that it starts with first. -/
def moments (x : M Unit) (s : Threading) : List Func :=
  s.fn :: (x.run { state := s }).2.seen.map Event.graph

/-! ## The watcher changes nothing -/

/-- The watched action `y` does to the state what `x` does, and returns or breaks off as `x`. -/
def Shows {α : Type} (x : Threading.M α) (y : M α) : Prop :=
  ∀ w, ((y.run w).1, (y.run w).2.state) = x.run w.state

namespace Shows

variable {α β : Type}

protected theorem pure (a : α) : Shows (pure a) (pure a) := fun _ => rfl

protected theorem throw (e : Fault) : Shows (throw e : Threading.M α) (throw e) := fun _ => rfl

protected theorem get : Shows get (getThe Threading) := fun _ => rfl

protected theorem bind {x : Threading.M α} {y : M α} {f : α → Threading.M β} {g : α → M β}
    (h : Shows x y) (h' : ∀ a, Shows (f a) (g a)) : Shows (x >>= f) (y >>= g) := by
  intro w
  rw [run_bind, run_bind, ← h w]
  rcases hy : y.run w with ⟨e | a, w'⟩
  · rfl
  · exact h' a w'

theorem get_bind {f : Threading → Threading.M β} {g : Watched → M β}
    (h : ∀ w : Watched, Shows (f w.state) (g w)) : Shows (get >>= f) (getThe Watched >>= g) :=
  fun w => h w w

theorem respectsChanges : RespectsChanges fun α => Shows (α := α) where
  pure := .pure
  bind := .bind
  get := .get
  threaded _ _ _ := rfl
  modify _ _ := rfl
  throw := .throw
  lift e := by
    intro w
    cases e <;> rfl
  resolved _ _ _ := rfl

theorem ensures {x : Threading.M α} {y : M α} (h : Shows x y) {w : Watched}
    {Q : α → Threading → Prop} (hy : Ensures y w fun a w' => Q a w'.state) :
    Ensures x w.state Q := by
  obtain ⟨a, w', hrun, hq⟩ := hy
  have hw := h w
  rw [hrun] at hw
  exact ⟨a, w'.state, hw.symm, hq⟩

end Shows

theorem simplify_shows (o : OpRef) (bb : Option BlockRef) :
    Shows (Threading.simplify o bb) (simplify o bb) :=
  Shows.respectsChanges.parts.simplifyIn o bb

theorem visitOps_shows (b : BlockRef) : ∀ os : List OpRef,
    Shows (Visitor.visitOps (fun s : Threading => s.fn) [Threading.visitor] b os)
      (Visitor.visitOps (fun w : Watched => w.state.fn) [visitor] b os)
  | [] => .pure []
  | o :: os => by
    refine .bind (.bind (simplify_shows o (some b)) fun _ => .pure ()) fun _ => ?_
    exact .get_bind fun w => .bind (visitOps_shows b os) fun _ => .pure _

theorem visitBlock_shows (b : BlockRef) :
    Shows (Visitor.visitBlock (fun s : Threading => s.fn) [Threading.visitor] b)
      (Visitor.visitBlock (fun w : Watched => w.state.fn) [visitor] b) := by
  refine .bind (.bind (.pure ()) fun _ => .pure ()) fun _ => .get_bind fun w => ?_
  exact .bind (visitOps_shows b _) fun _ => .bind (.bind (.pure ()) fun _ => .pure ()) fun _ =>
    .pure _

theorem walkFrom_shows (unvisited stack : List BlockRef) :
    Shows (Visitor.walkFrom (fun s : Threading => s.fn) [Threading.visitor] unvisited stack)
      (Visitor.walkFrom (fun w : Watched => w.state.fn) [visitor] unvisited stack) := by
  induction unvisited, stack using Visitor.walkFrom.induct with
  | case1 unvisited =>
    unfold Visitor.walkFrom
    exact .pure ()
  | case2 unvisited b rest hb ih =>
    unfold Visitor.walkFrom
    rw [dif_pos hb, dif_pos hb]
    exact .bind (visitBlock_shows b) fun next => ih next
  | case3 unvisited b rest hb ih =>
    unfold Visitor.walkFrom
    rw [dif_neg hb, dif_neg hb]
    exact ih

theorem run_shows : Shows Threading.run run := by
  refine .bind .get fun s => ?_
  cases s.fn.entry with
  | none => exact .bind (.bind (.pure ()) fun _ => .pure ()) fun _ => .throw _
  | some b => exact .get_bind fun w => walkFrom_shows _ _

end Watched

end Threading

end FlowGraph
