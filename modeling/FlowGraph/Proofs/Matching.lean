import Mathlib
import FlowGraph.Proofs.BreadthFirst
import FlowGraph.Proofs.Contents

/-! Functions that agree up to the numbers of their blocks and values. `B` relates the blocks of one
to those of the other and `V` the values. Operations match if they are of the same kind and hold
related blocks and values at the same places. -/

namespace FlowGraph

open Relator

variable {B : BlockRef → BlockRef → Prop} {V : ValueRef → ValueRef → Prop}

/-- Slots of the same shape with related blocks. -/
inductive Slot.Matches (B : BlockRef → BlockRef → Prop) : Slot → Slot → Prop
  | single {b b' : Option BlockRef} : Option.Rel B b b' → Matches B (.single b) (.single b')
  | list {bs bs' : List (Option BlockRef)} : List.Forall₂ (Option.Rel B) bs bs' →
      Matches B (.list bs) (.list bs')
  | keyed {m m' : Option (KeyMap (Option BlockRef))} :
      List.Forall₂ (fun e e' => e'.1 = e.1 ∧ Option.Rel B e.2 e'.2) (m.getD .empty).entries
        (m'.getD .empty).entries →
      Matches B (.keyed m) (.keyed m')

structure Attribute.Matches (B : BlockRef → BlockRef → Prop) (a a' : Attribute) : Prop where
  name : a'.name = a.name
  slot : a.slot.Matches B a'.slot

structure Target.Matches (B : BlockRef → BlockRef → Prop) (t t' : Target) : Prop where
  key : t'.key = t.key
  block : Option.Rel B t.block t'.block

/-- Operations of the same kind with related blocks and values. -/
inductive Op.Matches (B : BlockRef → BlockRef → Prop) (V : ValueRef → ValueRef → Prop) :
    Op → Op → Prop
  | jump {t t' : Option BlockRef} : Option.Rel B t t' → Matches B V (.jump t) (.jump t')
  | branch {c c' : Option ValueRef} {t t' f f' : Option BlockRef} : Option.Rel V c c' →
      Option.Rel B t t' → Option.Rel B f f' → Matches B V (.branch c t f) (.branch c' t' f')
  | switch {c c' : Option ValueRef} {m m' : Option (KeyMap (Option BlockRef))}
      {d d' : Option BlockRef} : Option.Rel V c c' →
      List.Forall₂ (fun e e' => e'.1 = e.1 ∧ Option.Rel B e.2 e'.2) (m.getD .empty).entries
        (m'.getD .empty).entries →
      Option.Rel B d d' → Matches B V (.switch c m d) (.switch c' m' d')
  | region {b b' l l' : Option BlockRef} {hs hs' : List (Option BlockRef)} : Option.Rel B b b' →
      List.Forall₂ (Option.Rel B) hs hs' → Option.Rel B l l' →
      Matches B V (.region b hs l) (.region b' hs' l')
  | expr {name : Text} {r r' : Option ValueRef} {args args' : List (Option ValueRef)} :
      Option.Rel V r r' → List.Forall₂ (Option.Rel V) args args' →
      Matches B V (.expr name r args) (.expr name r' args')
  | ret {v v' : Option ValueRef} : Option.Rel V v v' → Matches B V (.ret v) (.ret v')

structure Phi.Matches (V : ValueRef → ValueRef → Prop) (p p' : Phi) : Prop where
  result : Option.Rel V p.result p'.result
  operands : List.Forall₂ (Option.Rel V) p.operands p'.operands

/-- Related blocks have matching phi nodes and operations, and related values the same name. -/
structure Func.Matches (B : BlockRef → BlockRef → Prop) (V : ValueRef → ValueRef → Prop)
    (fn fn' : Func) : Prop where
  bound : ∀ b b', B b b' → b < fn.blocks.length ∧ b' < fn'.blocks.length
  names : ∀ v v', V v v' → fn'.valueName (some v') = fn.valueName (some v)
  phis : ∀ b b', B b b' → List.Forall₂ (Phi.Matches V) (fn.phisAt b) (fn'.phisAt b')
  ops : ∀ b b', B b b' → List.Forall₂ (Op.Matches B V) (fn.opsAt b) (fn'.opsAt b')

/-! ## Targets -/

theorem forall₂_zipIdx {α β : Type} {R : α → β → Prop} {l : List α} {l' : List β}
    (h : List.Forall₂ R l l') (i : Nat) :
    List.Forall₂ (fun x y => y.2 = x.2 ∧ R x.1 y.1) (l.zipIdx i) (l'.zipIdx i) := by
  induction h generalizing i with
  | nil => exact .nil
  | cons hx _ ih => exact .cons ⟨rfl, hx⟩ (ih (i + 1))

theorem Slot.Matches.targets {s s' : Slot} (h : s.Matches B s') :
    List.Forall₂ (Target.Matches B) s.targets s'.targets := by
  cases h with
  | single hb => exact .cons ⟨rfl, hb⟩ .nil
  | list hbs =>
    refine List.rel_map (fun x y hxy => ?_) (forall₂_zipIdx hbs 0)
    exact ⟨congrArg Int.ofNat hxy.1, hxy.2⟩
  | keyed hm =>
    refine List.rel_map (fun e e' he => ?_) hm
    exact ⟨congrArg Int64.toInt he.1, he.2⟩

theorem Slot.Matches.isCollection {s s' : Slot} (h : s.Matches B s') :
    s'.isCollection = s.isCollection := by
  cases h <;> rfl

namespace Op.Matches

variable {op op' : Op}

theorem attributes (h : op.Matches B V op') :
    List.Forall₂ (Attribute.Matches B) op.attributes op'.attributes := by
  cases h with
  | jump ht => exact .cons ⟨rfl, .single ht⟩ .nil
  | branch _ ht hf => exact .cons ⟨rfl, .single ht⟩ (.cons ⟨rfl, .single hf⟩ .nil)
  | switch _ hm hd => exact .cons ⟨rfl, .keyed hm⟩ (.cons ⟨rfl, .single hd⟩ .nil)
  | region hb hhs hl =>
    exact .cons ⟨rfl, .single hb⟩ (.cons ⟨rfl, .list hhs⟩ (.cons ⟨rfl, .single hl⟩ .nil))
  | expr => exact .nil
  | ret => exact .nil

theorem targets (h : op.Matches B V op') :
    List.Forall₂ (Target.Matches B) op.targets op'.targets :=
  List.rel_flatMap h.attributes fun _ _ ha => ha.slot.targets

end Op.Matches

namespace Func.Matches

variable {fn fn' : Func} {b b' entry entry' : BlockRef}

theorem targets (h : fn.Matches B V fn') (hb : B b b') :
    List.Forall₂ (Target.Matches B) (fn.targetsOf b) (fn'.targetsOf b') := by
  rw [targetsOf_eq, targetsOf_eq]
  exact List.rel_flatMap (h.ops b b' hb) fun _ _ hop => hop.targets

theorem successors (h : fn.Matches B V fn') (hB : BiUnique B) (hb : B b b') :
    List.Forall₂ B (fn.successors b) (fn'.successors b') :=
  rel_firsts hB (List.rel_filterMap (fun _ _ ht => ht.block) (h.targets hb))

/-- Where no successor is eliminated, the blocks are reached in the same order. -/
theorem reachable (h : fn.Matches B V fn') (hB : BiUnique B)
    (hlive : ∀ b b', B b b' → fn.liveSuccessors b = fn.successors b)
    (hlive' : ∀ b b', B b b' → fn'.liveSuccessors b' = fn'.successors b')
    (hentry : B entry entry') : List.Forall₂ B (fn.reachable entry) (fn'.reachable entry') := by
  refine rel_reachable hB h.bound (fun b b' hb => ?_) hentry
  rw [hlive b b' hb, hlive' b b' hb]
  exact h.successors hB hb

end Func.Matches

end FlowGraph
