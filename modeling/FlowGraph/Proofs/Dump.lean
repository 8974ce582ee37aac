import Mathlib
import FlowGraph.Func.Dump
import FlowGraph.Proofs.Matching
import FlowGraph.Proofs.Names

/-! What the text dump of a function depends on. Each block is shown with the places of its parents
in the order of the dump, and with contents that are the same for matching functions. The places can
be read off the text. -/

namespace FlowGraph

open Relator

variable {B : BlockRef → BlockRef → Prop} {V : ValueRef → ValueRef → Prop} {fn fn' : Func}
  {order order' : List BlockRef} {b b' : BlockRef}

/-! ## Names and contents -/

theorem idxOf?_eq_of_forall₂ (hB : BiUnique B) (horder : List.Forall₂ B order order')
    (hb : B b b') : order'.idxOf? b' = order.idxOf? b := by
  induction horder with
  | nil => rfl
  | @cons x x' _ _ hx _ ih =>
    have hiff : (x' == b') = (x == b) := by
      rw [Bool.eq_iff_iff, beq_iff_eq, beq_iff_eq]
      exact (rel_eq hB hx hb).symm
    rw [List.idxOf?_cons, List.idxOf?_cons, hiff, ih]

namespace Func

theorem dumpName_of_idxOf? {i : Nat} (h : order.idxOf? b = some i) :
    fn.dumpName order b = "Block#" ++ Text.ofNat (i + 1) := by
  rw [dumpName, h]

/-- Counterparts have the same number. -/
theorem dumpName_eq_of_rel (hB : BiUnique B) (horder : List.Forall₂ B order order') (hb : B b b')
    (hmem : b ∈ order) : fn'.dumpName order' b' = fn.dumpName order b := by
  obtain ⟨i, hi⟩ := Option.isSome_iff_exists.mp (List.isSome_idxOf?.mpr hmem)
  rw [dumpName_of_idxOf? hi, dumpName_of_idxOf? ((idxOf?_eq_of_forall₂ hB horder hb).trans hi)]

theorem valueName_eq_of_rel (h : fn.Matches B V fn') {v v' : Option ValueRef}
    (hv : Option.Rel V v v') : fn'.valueName v' = fn.valueName v := by
  cases hv with
  | none => rfl
  | some hv => exact h.names _ _ hv

theorem phiText_eq_of_matches (h : fn.Matches B V fn') {p p' : Phi} (hp : p.Matches V p') :
    fn'.phiText p' = fn.phiText p := by
  rw [phiText, phiText, valueName_eq_of_rel h hp.result,
    map_eq_of_forall₂ (fun _ _ hv => valueName_eq_of_rel h hv) hp.operands]

theorem opText_eq_of_matches (h : fn.Matches B V fn') {op op' : Op} (hop : op.Matches B V op') :
    fn'.opText op' = fn.opText op := by
  cases hop with
  | jump => rfl
  | branch hc => simp only [opText, valueName_eq_of_rel h hc]
  | switch hc => simp only [opText, valueName_eq_of_rel h hc]
  | region => rfl
  | expr hr hargs =>
    have hargs := map_eq_of_forall₂ (fun _ _ hv => valueName_eq_of_rel h hv) hargs
    cases hr with
    | none => simp only [opText, hargs]
    | some hr => simp only [opText, hargs, h.names _ _ hr]
  | ret hv =>
    cases hv with
    | none => rfl
    | some hv => simp only [opText, h.names _ _ hv]

section

variable (hname : ∀ b b', B b b' → fn'.dumpName order' b' = fn.dumpName order b)

include hname

theorem dumpTarget_eq_of_matches {a a' : Attribute} (ha : a.Matches B a') {t t' : Target}
    (ht : t.Matches B t') : fn'.dumpTarget order' a' t' = fn.dumpTarget order a t := by
  obtain ⟨key, block⟩ := t
  obtain ⟨key', block'⟩ := t'
  obtain ⟨rfl, hblock⟩ := ht
  cases hblock with
  | none => rfl
  | some hb => simp only [dumpTarget, ha.slot.isCollection, ha.name, hname _ _ hb]

/-- An operation is shown by its text and its attributes. -/
theorem dumpOp_eq_of_matches {op op' : Op} (htext : fn'.opText op' = fn.opText op)
    (hattributes : List.Forall₂ (Attribute.Matches B) op.attributes op'.attributes) :
    fn'.dumpOp order' op' = fn.dumpOp order op := by
  have htargets : ∀ a a' : Attribute, a.Matches B a' →
      a'.slot.targets.flatMap (fn'.dumpTarget order' a') =
        a.slot.targets.flatMap (fn.dumpTarget order a) := fun a a' ha =>
    flatMap_eq_of_forall₂ (fun _ _ ht => dumpTarget_eq_of_matches hname ha ht) ha.slot.targets
  rw [dumpOp, dumpOp, htext, flatMap_eq_of_forall₂ htargets hattributes]

end

/-- The phi nodes and operations of a block as the dump shows them. -/
def dumpContents (fn : Func) (order : List BlockRef) (b : BlockRef) : Text :=
  ((fn.phisAt b).flatMap fun p => ("    " : Text) ++ fn.phiText p ++ ("\n" : Text)) ++
    (fn.opsAt b).flatMap (fn.dumpOp order)

theorem dumpContents_eq_of_matches (h : fn.Matches B V fn')
    (hname : ∀ b b', B b b' → fn'.dumpName order' b' = fn.dumpName order b) (hb : B b b') :
    fn'.dumpContents order' b' = fn.dumpContents order b := by
  have hphi : ∀ p p', Phi.Matches V p p' → ("    " : Text) ++ fn'.phiText p' ++ ("\n" : Text) =
      ("    " : Text) ++ fn.phiText p ++ ("\n" : Text) := by
    intro p p' hp
    rw [phiText_eq_of_matches h hp]
  have hop : ∀ op op', Op.Matches B V op op' → fn'.dumpOp order' op' = fn.dumpOp order op :=
    fun op op' hop => dumpOp_eq_of_matches hname (opText_eq_of_matches h hop) hop.attributes
  rw [dumpContents, dumpContents, flatMap_eq_of_forall₂ hphi (h.phis b b' hb),
    flatMap_eq_of_forall₂ hop (h.ops b b' hb)]

/-! ## Parents -/

/-- The places of the parents of a block in the order of the dump, in the order in which the block
lists them. -/
def parentPlaces (fn : Func) (order : List BlockRef) (b : BlockRef) : List Nat :=
  (fn.block b).parents.filterMap fun p => p.bind order.idxOf?

def parentLine (i : Nat) : Text :=
  "    Parent: " ++ (("Block#" : Text) ++ Text.ofNat (i + 1)) ++ "\n"

theorem dumpParent_eq (fn : Func) (order : List BlockRef) (p : Option BlockRef) :
    fn.dumpParent order p = (p.bind order.idxOf?).toList.flatMap parentLine := by
  cases p with
  | none => rfl
  | some q =>
    rw [Option.bind_some]
    cases hq : order.idxOf? q with
    | none => simp [dumpParent, List.idxOf?_eq_none_iff.mp hq]
    | some i =>
      have hmem : q ∈ order := List.isSome_idxOf?.mp (Option.isSome_of_eq_some hq)
      simp [dumpParent, hmem, dumpName_of_idxOf? hq, parentLine]

theorem dumpParents_eq (fn : Func) (order : List BlockRef) (b : BlockRef) :
    (fn.block b).parents.flatMap (fn.dumpParent order) =
      (fn.parentPlaces order b).flatMap parentLine := by
  rw [parentPlaces, List.filterMap_eq_flatMap_toList, List.flatMap_assoc]
  exact List.flatMap_congr fun p _ => fn.dumpParent_eq order p

/-- A block is shown by its number, the places of its parents and its contents. -/
theorem dumpBlock_eq (fn : Func) (order : List BlockRef) (b : BlockRef) :
    fn.dumpBlock order b = fn.dumpName order b ++ ("\n" : Text) ++
      (fn.parentPlaces order b).flatMap parentLine ++ fn.dumpContents order b := by
  rw [dumpBlock, dumpParents_eq, dumpContents, phisAt, opsAt, List.flatMap_map, List.flatMap_map]
  simp only [List.append_assoc]

/-! ## Reading the places off the text -/

/-- What ends at the first `a` can be read off. -/
theorem eq_of_append_cons {a : UInt8} {xs ys r r' : Text} (hx : a ∉ xs) (hy : a ∉ ys)
    (h : xs ++ a :: r = ys ++ a :: r') : xs = ys ∧ r = r' := by
  induction xs generalizing ys with
  | nil =>
    cases ys with
    | nil => exact ⟨rfl, (List.cons.inj h).2⟩
    | cons y ys => exact absurd ((List.cons.inj h).1 ▸ List.mem_cons_self) hy
  | cons x xs ih =>
    cases ys with
    | nil => exact absurd ((List.cons.inj h).1 ▸ List.mem_cons_self) hx
    | cons y ys =>
      obtain ⟨hxy, htail⟩ := List.cons.inj h
      obtain ⟨hxs, hr⟩ := ih (fun hm => hx (List.mem_cons_of_mem x hm))
        (fun hm => hy (List.mem_cons_of_mem y hm)) htail
      exact ⟨congrArg₂ _ hxy hxs, hr⟩

theorem flatMap_parentLine_inj {is js : List Nat}
    (h : is.flatMap parentLine = js.flatMap parentLine) : is = js := by
  have hend : ∀ n, (10 : UInt8) ∉ Text.ofNat n := fun n hn =>
    absurd ((Text.ofNat_spec n).2 10 hn) (by decide)
  induction is generalizing js with
  | nil =>
    cases js with
    | nil => rfl
    | cons j js => simp [parentLine, Text.ofString] at h
  | cons i is ih =>
    cases js with
    | nil => simp [parentLine, Text.ofString] at h
    | cons j js =>
      simp only [List.flatMap_cons, parentLine, List.append_assoc, List.append_cancel_left_eq] at h
      obtain ⟨hnumber, hrest⟩ := eq_of_append_cons (hend (i + 1)) (hend (j + 1)) h
      rw [Nat.succ_inj.mp (Text.ofNat_inj.mp hnumber), ih hrest]

/-- Texts of the same lengths can be told apart when joined. -/
theorem join_eq_iff {sep : Text} {xs ys : List Text}
    (h : List.Forall₂ (fun x y => y.length = x.length) xs ys) :
    Text.join sep ys = Text.join sep xs ↔ ys = xs := by
  refine ⟨fun hjoin => ?_, congrArg _⟩
  induction h with
  | nil => rfl
  | cons hlen hrest ih =>
    cases hrest with
    | nil => exact congrArg (fun x => [x]) hjoin
    | cons hlen' hrest =>
      rw [Text.join, Text.join, List.append_assoc, List.append_assoc] at hjoin
      obtain ⟨hhead, htail⟩ := List.append_inj hjoin hlen
      exact congrArg₂ _ hhead (ih (List.append_cancel_left htail))

/-- Matching functions have the same dump exactly if their parents come in the same places. -/
theorem dump_eq_iff (h : fn.Matches B V fn') (hB : BiUnique B)
    (horder : List.Forall₂ B order order') (hmem : ∀ b b', B b b' → b ∈ order)
    (hperm : ∀ b b', B b b' → (fn'.parentPlaces order' b').Perm (fn.parentPlaces order b)) :
    Text.join "\n" (order'.map (fn'.dumpBlock order')) =
        Text.join "\n" (order.map (fn.dumpBlock order)) ↔
      List.Forall₂ (fun b b' => fn'.parentPlaces order' b' = fn.parentPlaces order b)
        order order' := by
  have hname : ∀ b b', B b b' → fn'.dumpName order' b' = fn.dumpName order b := fun b b' hb =>
    dumpName_eq_of_rel hB horder hb (hmem b b' hb)
  have hblock : ∀ b b', B b b' → (fn.dumpBlock order b = fn'.dumpBlock order' b' ↔
      fn'.parentPlaces order' b' = fn.parentPlaces order b) := by
    intro b b' hb
    rw [dumpBlock_eq, dumpBlock_eq, hname b b' hb, dumpContents_eq_of_matches h hname hb,
      List.append_cancel_right_eq, List.append_cancel_left_eq, eq_comm]
    exact ⟨flatMap_parentLine_inj, congrArg _⟩
  -- lines in another order take the same room, so the blocks stay apart in the joined text
  have hlength : ∀ b b', B b b' →
      (fn'.dumpBlock order' b').length = (fn.dumpBlock order b).length := by
    intro b b' hb
    have hlines := ((hperm b b' hb).flatMap_right parentLine).length_eq
    simp only [dumpBlock_eq, hname b b' hb, dumpContents_eq_of_matches h hname hb,
      List.length_append, hlines]
  have hlengths : List.Forall₂ (fun x y => y.length = x.length) (order.map (fn.dumpBlock order))
      (order'.map (fn'.dumpBlock order')) := by
    rw [List.forall₂_map_left_iff, List.forall₂_map_right_iff]
    exact horder.imp hlength
  rw [join_eq_iff hlengths, eq_comm, ← List.forall₂_eq_eq_eq, List.forall₂_map_left_iff,
    List.forall₂_map_right_iff]
  constructor
  · exact horder.mp fun b b' hb => (hblock b b' hb).mp
  · exact horder.mp fun b b' hb => (hblock b b' hb).mpr

end Func

end FlowGraph
