import Mathlib
import FlowGraph.Proofs.Dump

/-! The text dump shows the structure of a graph and nothing else. Where the reachable blocks of two
functions correspond one to one, with the same texts at the same places, the searches take the same
course and number corresponding blocks alike. Numbers, the order of allocation, blocks that are not
reachable and whether the entry is eliminated leave no trace. -/

namespace FlowGraph

open Relator

/-- Operations with the same text, whose attributes have the same names and shapes and hold related
blocks under the same keys. -/
structure Op.ShownAlike (B : BlockRef → BlockRef → Prop) (fn fn' : Func) (op op' : Op) : Prop where
  text : fn'.opText op' = fn.opText op
  attributes : List.Forall₂ (Attribute.Matches B) op.attributes op'.attributes

namespace Func

variable {fn fn' : Func} {entry entry' b b' : BlockRef} {φ : BlockRef → BlockRef}

/-- The parents of a block that are reachable, in the order in which the block lists them. -/
def reachableParents (fn : Func) (entry b : BlockRef) : List BlockRef :=
  ((fn.block b).parents.filterMap id).filter (· ∈ fn.reachable entry)

/-- A block that is reachable from the entry, and its counterpart. -/
def Counterpart (fn : Func) (entry : BlockRef) (φ : BlockRef → BlockRef) (b b' : BlockRef) : Prop :=
  b ∈ fn.reachable entry ∧ b' = φ b

/-- The reachable blocks of two functions correspond by `φ`: counterparts have phi nodes and
operations with the same texts in the same order, refer to counterparts at the same places and to no
other blocks, and list counterparts as their reachable parents, in the same order. -/
structure SameStructure (φ : BlockRef → BlockRef) (fn fn' : Func) (entry entry' : BlockRef) :
    Prop where
  start : fn.entry = some entry
  start' : fn'.entry = some entry'
  maps : φ entry = entry'
  bij : Set.BijOn φ {b | b ∈ fn.reachable entry} {b | b ∈ fn'.reachable entry'}
  phis : ∀ b ∈ fn.reachable entry,
    (fn'.phisAt (φ b)).map fn'.phiText = (fn.phisAt b).map fn.phiText
  ops : ∀ b ∈ fn.reachable entry, List.Forall₂ (Op.ShownAlike (fn.Counterpart entry φ) fn fn')
    (fn.opsAt b) (fn'.opsAt (φ b))
  parents : ∀ b ∈ fn.reachable entry,
    fn'.reachableParents entry' (φ b) = (fn.reachableParents entry b).map φ

/-- Parents that are not reachable have no place in the dump. -/
theorem parentPlaces_reachable (fn : Func) (entry b : BlockRef) :
    fn.parentPlaces (fn.reachable entry) b =
      (fn.reachableParents entry b).filterMap (fn.reachable entry).idxOf? := by
  rw [parentPlaces, reachableParents, List.filterMap_filter, List.filterMap_filterMap]
  refine List.filterMap_congr fun p _ => ?_
  cases p with
  | none => rfl
  | some p =>
    by_cases hp : p ∈ fn.reachable entry
    · simp [hp]
    · simp [hp]

namespace SameStructure

variable (h : SameStructure φ fn fn' entry entry')
include h

theorem biUnique : BiUnique (fn.Counterpart entry φ) := by
  refine ⟨fun a c b ha hc => ?_, fun a b c hb hc => hb.2.trans hc.2.symm⟩
  exact h.bij.injOn ha.1 hc.1 (ha.2.symm.trans hc.2)

theorem counterpart_entry : fn.Counterpart entry φ entry entry' :=
  ⟨entry_mem_reachable fn entry, h.maps.symm⟩

theorem mem_reachable (hb : fn.Counterpart entry φ b b') : b' ∈ fn'.reachable entry' :=
  hb.2 ▸ h.bij.mapsTo hb.1

theorem successors (hb : fn.Counterpart entry φ b b') :
    List.Forall₂ (fn.Counterpart entry φ) (fn.successors b) (fn'.successors b') := by
  obtain ⟨hmem, rfl⟩ := hb
  have htargets : List.Forall₂ (Target.Matches (fn.Counterpart entry φ)) (fn.targetsOf b)
      (fn'.targetsOf (φ b)) := by
    rw [targetsOf_eq, targetsOf_eq]
    exact List.rel_flatMap (h.ops b hmem) fun _ _ hop =>
      List.rel_flatMap hop.attributes fun _ _ ha => ha.slot.targets
  exact rel_firsts h.biUnique (List.rel_filterMap (fun _ _ ht => ht.block) htargets)

/-- The searches come to counterparts at the same time. -/
theorem order :
    List.Forall₂ (fn.Counterpart entry φ) (fn.reachable entry) (fn'.reachable entry') := by
  have hunseen : ∀ c c', fn.Counterpart entry φ c c' →
      (c ∈ (List.range fn.blocks.length).filter (· ≠ entry) ↔
        c' ∈ (List.range fn'.blocks.length).filter (· ≠ entry')) := fun c c' hc => by
    rw [mem_unseen_iff hc.1, mem_unseen_iff (h.mem_reachable hc)]
    exact not_congr (rel_eq h.biUnique hc h.counterpart_entry)
  rw [reachable, reachable, ← bfs_filter fn.liveSuccessors (List.Subset.refl _),
    ← bfs_filter fn'.liveSuccessors (List.Subset.refl _)]
  refine rel_bfs h.biUnique (fun b b' hb => ?_) _ _ _ _ (fun c c' hc => ?_)
    (.cons h.counterpart_entry .nil)
  · rw [liveSuccessors, liveSuccessors, List.filter_filter, List.filter_filter]
    refine List.rel_filter (fun c c' hc => ?_) (h.successors hb)
    have hlive := fun hu => isLive_of_mem_reachable hc.1 ((mem_unseen_iff hc.1).mp hu)
    have hmem' := h.mem_reachable hc
    have hlive' := fun hu => isLive_of_mem_reachable hmem' ((mem_unseen_iff hmem').mp hu)
    simp only [Bool.and_eq_true, decide_eq_true_eq, and_iff_left_of_imp hlive,
      and_iff_left_of_imp hlive']
    exact hunseen c c' hc
  · exact hunseen c c' hc

theorem parentPlaces_eq (hb : fn.Counterpart entry φ b b') :
    fn'.parentPlaces (fn'.reachable entry') b' = fn.parentPlaces (fn.reachable entry) b := by
  obtain ⟨hmem, rfl⟩ := hb
  rw [parentPlaces_reachable, parentPlaces_reachable, h.parents b hmem, List.filterMap_map]
  refine List.filterMap_congr fun p hp => ?_
  have hp : p ∈ fn.reachable entry := by simpa using (List.mem_filter.mp hp).2
  exact idxOf?_eq_of_forall₂ h.biUnique h.order ⟨hp, rfl⟩

theorem dumpBlock_eq (hb : fn.Counterpart entry φ b b') :
    fn'.dumpBlock (fn'.reachable entry') b' = fn.dumpBlock (fn.reachable entry) b := by
  have hname : ∀ c c', fn.Counterpart entry φ c c' →
      fn'.dumpName (fn'.reachable entry') c' = fn.dumpName (fn.reachable entry) c :=
    fun c c' hc => dumpName_eq_of_rel h.biUnique h.order hc hc.1
  have hplaces := h.parentPlaces_eq hb
  obtain ⟨hmem, rfl⟩ := hb
  have hops := flatMap_eq_of_forall₂
    (fun _ _ hop => dumpOp_eq_of_matches hname hop.text hop.attributes) (h.ops b hmem)
  have hphis :=
    congrArg (List.flatMap fun t => ("    " : Text) ++ t ++ ("\n" : Text)) (h.phis b hmem)
  simp only [List.flatMap_map] at hphis
  rw [Func.dumpBlock_eq, Func.dumpBlock_eq, hplaces, hname b (φ b) ⟨hmem, rfl⟩, dumpContents,
    dumpContents, hphis, hops]

end SameStructure

/-- The dump depends on the structure alone. -/
theorem dump_of_same_structure (h : SameStructure φ fn fn' entry entry') :
    fn'.reachable entry' = (fn.reachable entry).map φ ∧
      ∃ text, fn.dump = .ok text ∧ fn'.dump = .ok text := by
  have horder : fn'.reachable entry' = (fn.reachable entry).map φ := by
    rw [← map_eq_of_forall₂ (g := id) (fun _ _ hb => hb.2) h.order, List.map_id]
  refine ⟨horder, fn.dumpFrom entry, by rw [dump, h.start], ?_⟩
  rw [dump, h.start']
  have hblocks := map_eq_of_forall₂ (fun _ _ hb => h.dumpBlock_eq hb) h.order
  simp only [dumpFrom, hblocks]

/-- Three blocks in the order of their allocation. -/
def orderly : Func where
  name := "f"
  entry := some 0
  blocks := [{ id := 1, ops := [0], parents := [some 2] },
    { id := 2, ops := [1], phis := [0], parents := [some 0, some 2] },
    { id := 3, ops := [2], parents := [some 1, some 2] }]
  ops := [.branch (some 0) (some 1) none, .jump (some 2), .region (some 0) [some 2, none] (some 1)]
  phis := [⟨some 1, [some 0, none]⟩]
  values := ["x", "y"]

/-- The same structure with an eliminated entry, blocks that are not reachable, one of them
eliminated and a parent, and other numbers throughout. -/
def shuffled : Func where
  name := "g"
  entry := some 3
  blocks := [{ id := 7, ops := [2], phis := [1], parents := [some 3, some 4, some 2] },
    { id := 7, ops := [2], parents := [none] },
    { id := -1, ops := [1], parents := [some 0, some 2] },
    { id := 0, ops := [0], dead := true, parents := [some 1, some 2] },
    { id := 5, ops := [2], dead := true }]
  ops := [.branch (some 1) (some 0) none, .region (some 3) [some 2, none] (some 0),
    .foreign "goto" "Jump" [⟨"target", .single (some 2)⟩]]
  phis := [⟨none, []⟩, ⟨some 0, [some 2, none]⟩]
  values := ["y", "x", "x"]

def shuffle (b : BlockRef) : BlockRef := if b = 0 then 3 else if b = 1 then 0 else b

theorem orderly_shuffled_alike : SameStructure shuffle orderly shuffled 0 3 ∧
    shuffled.reachable 3 = [3, 0, 2] ∧
    orderly.dump = .ok ("Block#1\n    Parent: Block#3\n    JumpIf x\n        if: Block#2\n\n" ++
      "Block#2\n    Parent: Block#1\n    Parent: Block#3\n    y = φ(x, <nil>)\n    Jump\n" ++
      "        target: Block#3\n\nBlock#3\n    Parent: Block#2\n    Parent: Block#3\n" ++
      "    Try\n        body: Block#1\n        catch[0]: Block#3\n        finally: Block#2\n") ∧
    shuffled.dump = orderly.dump := by
  have hreach : orderly.reachable 0 = [0, 1, 2] := by cbv
  have hreach' : shuffled.reachable 3 = [3, 0, 2] := by cbv
  have hmem : ∀ b ∈ [0, 1, 2], orderly.Counterpart 0 shuffle b (shuffle b) := fun b hb =>
    ⟨hreach ▸ hb, rfl⟩
  have hzero := hmem 0 (by decide)
  have hone := hmem 1 (by decide)
  have htwo := hmem 2 (by decide)
  have h : SameStructure shuffle orderly shuffled 0 3 := by
    refine ⟨rfl, rfl, rfl, ?_, ?_, ?_, ?_⟩
    · rw [hreach, hreach']
      have hmaps : ∀ b ∈ [0, 1, 2], shuffle b ∈ [3, 0, 2] := by decide
      have hinj : ∀ b ∈ [0, 1, 2], ∀ c ∈ [0, 1, 2], shuffle b = shuffle c → b = c := by decide
      have hsurj : ∀ b' ∈ [3, 0, 2], ∃ b ∈ [0, 1, 2], shuffle b = b' := by decide
      exact ⟨hmaps, fun b hb c hc => hinj b hb c hc, hsurj⟩
    · rw [hreach]
      decide
    · simp only [hreach, List.forall_mem_cons]
      refine ⟨.cons ⟨by decide, ?_⟩ .nil, .cons ⟨by decide, ?_⟩ .nil, .cons ⟨by decide, ?_⟩ .nil,
        List.forall_mem_nil _⟩
      · exact .cons ⟨rfl, .single (.some hone)⟩ (.cons ⟨rfl, .single .none⟩ .nil)
      · exact .cons ⟨rfl, .single (.some htwo)⟩ .nil
      · exact .cons ⟨rfl, .single (.some hzero)⟩
          (.cons ⟨rfl, .list (.cons (.some htwo) (.cons .none .nil))⟩
            (.cons ⟨rfl, .single (.some hone)⟩ .nil))
    · simp only [reachableParents, hreach, hreach']
      decide
  obtain ⟨-, text, htext, htext'⟩ := dump_of_same_structure h
  exact ⟨h, hreach', by cbv, htext'.trans htext.symm⟩

end Func

end FlowGraph
