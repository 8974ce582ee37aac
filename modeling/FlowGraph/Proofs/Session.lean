import Mathlib
import FlowGraph.Proofs.Outcome

/-! Sessions: any calls of the library on one function, one after the other. A call that breaks off
leaves the state as it is at that moment, and the next call starts from there. -/

namespace FlowGraph

variable {α ε τ : Type}

/-- A function at work, and the blocks that each simplifier has eliminated so far. -/
structure Session extends Work where
  removedBy : Text → List BlockRef := fun _ => []

namespace Session

abbrev M := ExceptT RunError (StateM Session)

/-- A session on a new function. -/
def start (name : Text) : Session where
  fn := { name }

def modifyFn (f : Func → Func) : M Unit := modify fun s => { s with fn := f s.fn }

def need : Option BlockRef → M BlockRef
  | some b => pure b
  | none => throw (.fault .missingBlock)

/-- Works on a view of the session and puts back what comes of it, also after an error. -/
def within (view : Session → τ) (put : Session → τ → Session) (error : ε → RunError)
    (x : ExceptT ε (StateM τ) α) : M α := fun s =>
  let (r, t) := x.run (view s)
  (r.mapError error, put s t)

end Session

/-- A call of the library. Blocks and values may be missing, operations and phi nodes shared. -/
inductive Call where
  | newBlock
  | newValue (name : Text)
  | newOp (op : Op)
  | append (b : Option BlockRef) (os : List OpRef)
  | setOps (b : Option BlockRef) (os : List OpRef)
  | store (o : OpRef) (i : Nat) (tt : List Target)
  | addParent (b p : Option BlockRef)
  | removeParent (b p : Option BlockRef)
  | newPhi (result : Option ValueRef) (operands : List (Option ValueRef))
  | addPhi (b : Option BlockRef) (ps : List PhiRef)
  | clearPhi (b : Option BlockRef)
  | addOperand (p : PhiRef) (v : Option ValueRef)
  | removeOperand (p : PhiRef) (v : Option ValueRef)
  /-- One operation of a block, by a simplifier that remembers what it eliminated. -/
  | simplify (simplifier : Text) (o : OpRef) (b : Option BlockRef)
  | threadJumps
  | optimize (o : Options) (out : Outputs)

namespace Call

open Session

def run : Call → Session.M Unit
  | newBlock => modifyFn Func.newBlock
  | newValue name => modifyFn fun fn => (fn.newValue name).1
  | newOp op => modifyFn fun fn => (fn.newOp op).1
  | append b os => do
    if os.isEmpty then return
    let b ← need b
    modifyFn fun fn => fn.append b os
  | setOps b os => do
    let b ← need b
    modifyFn fun fn => fn.modifyBlock b fun bb => { bb with ops := os }
  | store o i tt => do
    let (fn, fault) := (← get).fn.store o i tt
    modifyFn fun _ => fn
    match fault with
    | some f => throw (.fault f)
    | none => pure ()
  | addParent b p => do
    let b ← need b
    modifyFn fun fn => fn.addParent b p
  | removeParent b p => do
    let b ← need b
    modifyFn fun fn => fn.removeParent b p
  | newPhi result operands => modifyFn fun fn => (fn.newPhi (Phi.make result operands)).1
  | addPhi b ps => do
    let b ← need b
    modifyFn fun fn => fn.modifyBlock b fun bb => { bb with phis := bb.phis ++ ps }
  | clearPhi b => do
    let b ← need b
    modifyFn fun fn => fn.modifyBlock b fun bb => { bb with phis := [] }
  | addOperand p v => modifyFn fun fn => fn.modifyPhi p (·.addOperand v)
  | removeOperand p v => modifyFn fun fn => fn.modifyPhi p (·.removeOperand v)
  | simplify simplifier o b =>
    within (fun s => { s.toWork with removed := s.removedBy simplifier })
      (fun s t => ⟨t.toWork, fun k => if k = simplifier then t.removed else s.removedBy k⟩) .fault
      (Threading.simplify o b)
  | threadJumps => within (·.toWork) (fun s w => { s with toWork := w }) .fault FlowGraph.threadJumps
  | optimize o out =>
    within (fun s => { s.toWork with out }) (fun s t => { s with toWork := t.toWork }) id
      (Run.optimize o)

end Call

namespace Session

variable {s : Session}

/-- The state after the calls, whatever became of each of them. -/
def after (calls : List Call) (s : Session) : Session :=
  calls.foldl (fun s c => (c.run.run s).2) s

/-- What each call keeps is kept by all of them. -/
theorem after_keeps {I : Session → Prop} {calls : List Call}
    (step : ∀ c ∈ calls, ∀ s, I s → I (c.run.run s).2) (h : I s) : I (s.after calls) := by
  induction calls generalizing s with
  | nil => exact h
  | cons c calls ih =>
    have hc := step c List.mem_cons_self s h
    exact ih (fun d hd => step d (List.mem_cons_of_mem c hd)) hc

variable {Q : α → Session → Prop} {E : RunError → Session → Prop}

theorem within_outcome {view : Session → τ} {put : Session → τ → Session} {error : ε → RunError}
    {x : ExceptT ε (StateM τ) α}
    (h : Outcome x (view s) (fun a t => Q a (put s t)) fun e t => E (error e) (put s t)) :
    Outcome (within view put error x) s Q E := by
  have hrun : (within view put error x).run s =
    ((x.run (view s)).1.mapError error, put s (x.run (view s)).2) := rfl
  unfold Outcome at h ⊢
  rw [hrun]
  rcases hx : x.run (view s) with ⟨e | a, t⟩
  · rw [hx] at h
    exact ⟨nofun, fun e' he => by cases he; exact h.2 e rfl⟩
  · rw [hx] at h
    exact ⟨fun b hb => by cases hb; exact h.1 a rfl, nofun⟩

end Session

end FlowGraph
