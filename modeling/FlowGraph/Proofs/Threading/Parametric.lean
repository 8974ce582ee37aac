import Mathlib
import FlowGraph.Threading

/-! A pass does the same in every monad that it can run in. Let a relation between the actions of
two monads respect returning and sequencing, and the few things that a pass does to its state. Then
the pass in the one is related to the pass in the other. The recursion is followed in two stages,
because a relation may hold of the parts that change the state only as a whole. -/

namespace FlowGraph

namespace Threading

variable {m n : Type → Type} [Monad m] [MonadStateOf Threading m] [Listener m]
  [Monad n] [MonadStateOf Threading n] [Listener n]

/-- The relation respects how actions are put together. -/
structure Respects (R : ∀ α : Type, m α → n α → Prop) : Prop where
  pure : ∀ {α : Type} (a : α), R α (pure a) (pure a)
  bind : ∀ {α β : Type} {x : m α} {y : n α} {f : α → m β} {g : α → n β}, R α x y →
    (∀ a, R β (f a) (g a)) → R β (x >>= f) (y >>= g)
  get : R Threading get get
  threaded : ∀ b dest, R Unit (Listener.threaded b dest) (Listener.threaded b dest)

namespace Respects

variable {α β : Type} {R : ∀ α : Type, m α → n α → Prop}

theorem forM (h : Respects R) {f : α → m Unit} {g : α → n Unit} (hf : ∀ a, R Unit (f a) (g a)) :
    ∀ xs : List α, R Unit (xs.forM f) (xs.forM g)
  | [] => h.pure ()
  | x :: xs => h.bind (hf x) fun _ => forM h hf xs

theorem mapM [LawfulMonad m] [LawfulMonad n] (h : Respects R) {f : α → m β} {g : α → n β}
    (hf : ∀ a, R β (f a) (g a)) : ∀ xs : List α, R (List β) (xs.mapM f) (xs.mapM g)
  | [] => h.pure []
  | x :: xs => by
    rw [List.mapM_cons, List.mapM_cons]
    exact h.bind (hf x) fun y => h.bind (mapM h hf xs) fun ys => h.pure (y :: ys)

end Respects

variable [MonadExceptOf Fault m] [MonadLiftT (Except Fault) m] [MonadExceptOf Fault n]
  [MonadLiftT (Except Fault) n]

/-- The relation holds of everything that changes the state. -/
structure RespectsChanges (R : ∀ α : Type, m α → n α → Prop) : Prop extends Respects R where
  modify : ∀ f : Threading → Threading, R Unit (modify f) (modify f)
  throw : ∀ {α : Type} (e : Fault), R α (throw e) (throw e)
  lift : ∀ {α : Type} (e : Except Fault α), R α (liftM e) (liftM e)
  resolved : ∀ b dest, R Unit (Listener.resolved b dest) (Listener.resolved b dest)

/-- The relation holds of the parts of a pass that change the state. -/
structure RespectsParts (R : ∀ α : Type, m α → n α → Prop) : Prop extends Respects R where
  bypass : ∀ bb b jmp, R BlockRef (bypass bb b jmp) (bypass bb b jmp)
  shortCircuit : ∀ bb b jmp, R BlockRef (shortCircuit bb b jmp) (shortCircuit bb b jmp)
  writeBack : ∀ o i tt, R Unit (writeBack o i tt) (writeBack o i tt)

variable {R : ∀ α : Type, m α → n α → Prop}

namespace RespectsChanges

theorem eliminate (h : RespectsChanges R) (b : BlockRef) :
    R Unit (eliminate b) (eliminate b) := by
  refine h.bind h.get fun s => ?_
  split
  · exact h.pure ()
  · exact h.bind (h.modify _) fun _ => h.bind (h.modify _) fun _ => h.modify _

theorem bypass (h : RespectsChanges R) (bb : Option BlockRef) (b : BlockRef) (jmp : OpRef) :
    R BlockRef (bypass bb b jmp) (bypass bb b jmp) := by
  refine h.bind h.get fun s => h.bind (h.lift _) fun dest => ?_
  split
  · exact h.bind (h.modify _) fun _ => h.pure b
  · cases mergePhis s.fn b dest with
    | none => exact h.bind (h.modify _) fun _ => h.pure b
    | some fn =>
      refine h.bind (h.modify _) fun _ => h.bind (h.modify _) fun _ => ?_
      exact h.bind (h.eliminate b) fun _ => h.bind (h.modify _) fun _ => h.pure dest

theorem shortCircuit (h : RespectsChanges R) (bb : Option BlockRef) (b : BlockRef)
    (jmp : OpRef) : R BlockRef (shortCircuit bb b jmp) (shortCircuit bb b jmp) := by
  refine h.bind h.get fun s => h.bind (h.lift _) fun dest => h.bind (h.resolved b dest) fun _ => ?_
  exact h.bind (h.modify _) fun _ => h.bind (h.modify _) fun _ => h.pure dest

theorem writeBack (h : RespectsChanges R) (o : OpRef) (i : Nat) (tt : List Target) :
    R Unit (writeBack o i tt) (writeBack o i tt) := by
  refine h.bind h.get fun s => h.bind (h.modify _) fun _ => ?_
  split
  · exact h.throw _
  · exact h.pure ()

theorem parts (h : RespectsChanges R) : RespectsParts R where
  toRespects := h.toRespects
  bypass := h.bypass
  shortCircuit := h.shortCircuit
  writeBack := h.writeBack

end RespectsChanges

namespace RespectsParts

section

variable {follow : OpRef → BlockRef → m Unit} {follow' : OpRef → BlockRef → n Unit}

theorem threadBlock (h : RespectsParts R) (hf : ∀ jmp b, R Unit (follow jmp b) (follow' jmp b))
    (bb : Option BlockRef) (b : BlockRef) :
    R BlockRef (threadBlock follow bb b) (threadBlock follow' bb b) := by
  refine h.bind h.get fun s => ?_
  cases s.fn.leadingJump b with
  | none => exact h.pure b
  | some jmp =>
    dsimp only
    split
    · exact h.shortCircuit bb b jmp
    · exact h.bind (hf jmp b) fun _ => h.bypass bb b jmp

theorem thread (h : RespectsParts R) (hf : ∀ jmp b, R Unit (follow jmp b) (follow' jmp b))
    (bb : Option BlockRef) :
    ∀ t, R (Option BlockRef) (thread follow bb t) (thread follow' bb t)
  | none => h.pure none
  | some b => h.bind (h.threadBlock hf bb b) fun dest => h.bind (h.threaded b dest) fun _ =>
    h.pure (some dest)

variable [LawfulMonad m] [LawfulMonad n]

theorem threadAttribute (h : RespectsParts R)
    (hf : ∀ jmp b, R Unit (follow jmp b) (follow' jmp b)) (o : OpRef) (bb : Option BlockRef)
    (i : Nat) : R Unit (threadAttribute follow o bb i) (threadAttribute follow' o bb i) := by
  refine h.bind h.get fun s => ?_
  cases (s.fn.op o).attributes[i]? with
  | none => exact h.pure ()
  | some a =>
    refine h.bind (h.mapM (fun t => ?_) _) fun tt => h.writeBack o i tt
    exact h.bind (h.thread hf bb t.block) fun _ => h.pure _

theorem threadOp (h : RespectsParts R) (hf : ∀ jmp b, R Unit (follow jmp b) (follow' jmp b))
    (o : OpRef) (bb : Option BlockRef) :
    R Unit (threadOp follow o bb) (threadOp follow' o bb) :=
  h.bind h.get fun _ => h.forM (h.threadAttribute hf o bb) _

end

variable [LawfulMonad m] [LawfulMonad n]

theorem simplifyIdle (h : RespectsParts R) (idle : List OpRef) :
    ∀ o bb, R Unit (simplifyIdle idle o bb) (simplifyIdle idle o bb) := by
  induction hn : idle.length generalizing idle with
  | zero =>
    intro o bb
    obtain rfl : idle = [] := List.length_eq_zero_iff.mp hn
    unfold Threading.simplifyIdle
    exact h.pure ()
  | succ k ih =>
    intro o bb
    unfold Threading.simplifyIdle
    by_cases ho : o ∈ idle
    · rw [dif_pos ho, dif_pos ho]
      have hlen : (idle.erase o).length = k := by
        rw [List.length_erase_of_mem ho, hn]
        rfl
      exact h.threadOp (fun jmp b => ih (idle.erase o) hlen jmp (some b)) o bb
    · rw [dif_neg ho, dif_neg ho]
      exact h.pure ()

theorem simplifyIn (h : RespectsParts R) (o : OpRef) (bb : Option BlockRef) :
    R Unit (simplifyIn m o bb) (simplifyIn n o bb) :=
  h.bind h.get fun _ => h.simplifyIdle _ o bb

end RespectsParts

end Threading

end FlowGraph
