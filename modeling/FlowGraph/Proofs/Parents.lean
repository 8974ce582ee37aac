import Mathlib
import FlowGraph.Proofs.Consistency
import FlowGraph.Proofs.Lookup

/-! The edges and parents of a function as its description has them. There is an edge where an
operation names the label of a block, and the parents of a block are the sources of its edges, each
once and in the order of the description. -/

namespace FlowGraph

theorem exists_mem_iff_of_forall₂ {α β : Type} {R : α → β → Prop} {P : α → Prop} {Q : β → Prop}
    {xs : List α} {ys : List β} (hR : ∀ x y, R x y → (P x ↔ Q y)) (h : List.Forall₂ R xs ys) :
    (∃ x ∈ xs, P x) ↔ ∃ y ∈ ys, Q y := by
  induction h with
  | nil => simp
  | cons hxy _ ih => simp only [List.mem_cons, exists_eq_or_imp, hR _ _ hxy, ih]

/-- An operation refers to a block exactly if its description holds the label of the block. -/
theorem OpDoc.mem_blocks_iff {s : Scope} {o : OpDoc} {op : Op} {b : BlockRef}
    (hs : s.labels.Nodup) (h : o.build s = .ok op) :
    b ∈ op.blocks ↔ ∃ l ∈ o.labels, l ≠ [] ∧ s.labels[b]? = some l := by
  have hlabel : ∀ l t, s.block l = .ok t → ((l ≠ [] ∧ s.labels[b]? = some l) ↔ t = some b) := by
    intro l t hl
    rw [← Scope.block_eq_some_iff hs, hl, Except.ok.injEq]
  rw [exists_mem_iff_of_forall₂ hlabel (OpDoc.build_targets h), Op.blocks, List.mem_filterMap]
  simp only [List.mem_map, exists_exists_and_eq_and]

namespace FuncDoc

variable {f : FuncDoc} {fn : Func} {p b : BlockRef}

/-- An operation of block `p` holds the label of block `b`. -/
def Names (f : FuncDoc) (p b : BlockRef) : Prop :=
  ∃ pd bd, f.blocks[p]? = some pd ∧ f.blocks[b]? = some bd ∧ ∃ o ∈ pd.ops, bd.label ∈ o.labels

theorem targets_iff_names (h : f.build = .ok fn) :
    fn.targets p (some b) = true ↔ f.Names p b := by
  have hdesc := build_describes h
  have hwf : f.WellFormed := exists_build_ok.mp ⟨fn, h⟩
  -- labels are distinct and none is empty, so a label that is held names one block
  have hmem : ∀ o op, OpDoc.build f.scope o = .ok op →
      ((∃ bd, f.blocks[b]? = some bd ∧ bd.label ∈ o.labels) ↔ b ∈ op.blocks) := by
    intro o op ho
    rw [OpDoc.mem_blocks_iff hwf.distinct ho]
    constructor
    · intro hbd
      obtain ⟨bd, hbd, hl⟩ := hbd
      exact ⟨bd.label, hl, hwf.labelled bd (List.mem_of_getElem? hbd), by simp [scope, hbd]⟩
    · intro hl
      obtain ⟨l, hl, -, hb⟩ := hl
      obtain ⟨bd, hbd, rfl⟩ := Option.map_eq_some_iff.mp ((List.getElem?_map ..).symm.trans hb)
      exact ⟨bd, hbd, hl⟩
  rw [Func.targets_eq_true_iff]
  cases hpd : f.blocks[p]? with
  | none =>
    have hempty := (hdesc.empty p (List.getElem?_eq_none_iff.mp hpd)).2
    simp [Names, hpd, hempty]
  | some pd =>
    have hops := mapM_eq_ok_iff.mp (hdesc.ops p pd hpd (List.getElem?_eq_some_iff.mp hpd).1)
    rw [← exists_mem_iff_of_forall₂ hmem hops]
    simp only [Names, hpd, Option.some.injEq]
    grind

/-- The graph of a function against its description: block `b` stands for the description with that
number, and its parents are the blocks that name its label, once each and in order. -/
structure Wires (f : FuncDoc) (fn : Func) : Prop where
  blocks : fn.blocks.length = f.blocks.length
  edges : ∀ p b, fn.targets p (some b) = true ↔ f.Names p b
  parents : ∀ b < fn.blocks.length, (fn.block b).parents =
    ((List.range fn.blocks.length).filter fun p => fn.targets p (some b)).map some
  consistent : fn.verify = .ok none

theorem build_wires (h : f.build = .ok fn) : f.Wires fn where
  blocks := (build_describes h).length
  edges _ _ := targets_iff_names h
  parents := (build_describes h).canonical
  consistent := (build_loaded h).verify_eq_none

end FuncDoc

/-- Every function that is built has the edges and parents of its description and is consistent. -/
theorem built_parents_canonical {path : Text} {d : Document} {st : Stats} {fns : List Func}
    (hbuild : ((d.build path).run st).1 = .ok fns) : List.Forall₂ FuncDoc.Wires d.functions fns :=
  (Document.built_of_ok hbuild).imp fun _ _ => FuncDoc.build_wires

/-- Block `b` refers to itself and twice to `c`, nothing leads to `d`, and some references are
missing. -/
def tangled : Document where
  functions := [
    { name := "f", entry := "c", blocks := [
      { label := "a", ops := [{ kind := "try", body := "b", handlers := ["", "c"], last := "" }] },
      { label := "b", ops := [
        { kind := "jumpif", cond := "x", onTrue := "c", onFalse := "b" },
        { kind := "jump", target := "c" }] },
      { label := "c", ops := [{ kind := "jump", target := "b" }] },
      { label := "d", ops := [{ kind := "jump", target := "b" }] }] }]

def tangledFunc : Func where
  name := "f"
  entry := some 2
  blocks := [
    { id := 1, ops := [0] },
    { id := 2, ops := [1, 2], parents := [some 0, some 1, some 2, some 3] },
    { id := 3, ops := [3], parents := [some 0, some 1] },
    { id := 4, ops := [4] }]
  ops := [.region (some 1) [none, some 2] none, .branch (some 0) (some 2) (some 1), .jump (some 2),
    .jump (some 1), .jump (some 1)]
  values := ["x"]

theorem tangled_parents : ((tangled.build "f.yaml").run {}).1 = .ok [tangledFunc] ∧
    List.Forall₂ FuncDoc.Wires tangled.functions [tangledFunc] := by
  have hbuild : ((tangled.build "f.yaml").run {}).1 = .ok [tangledFunc] := by decide +kernel
  exact ⟨hbuild, built_parents_canonical hbuild⟩

end FlowGraph
