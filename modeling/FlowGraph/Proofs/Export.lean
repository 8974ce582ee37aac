import Mathlib
import FlowGraph.Document.OfFunc
import FlowGraph.Proofs.BreadthFirst
import FlowGraph.Proofs.Matching
import FlowGraph.Proofs.Names
import FlowGraph.Proofs.Portable

/-! Descriptions of functions. The description of a function lists the reachable blocks in
breadth-first order, each under its own name, and a function that can be described in full has a
description that can be built. -/

namespace FlowGraph

variable {fn fn' : Func} {entry b : BlockRef}

/-! ## Operations -/

namespace OpDoc

variable {op op' : Op} {o : OpDoc} {n : Nat}

theorem exists_ofOp_ok (fn : Func) (h : op.Portable n) : ∃ o, ofOp fn op = .ok o := by
  cases op with
  | foreign kind text attributes => exact absurd rfl (h.known kind text attributes)
  | _ => exact ⟨_, rfl⟩

theorem labels_ofOp (h : ofOp fn op = .ok o) :
    o.labels = (op.targets.map Target.block).map fn.label := by
  cases op with
  | foreign => cases h
  | switch c m d =>
    cases h
    show ((m.getD .empty).map fn.label).entries.map Prod.snd ++ [fn.label d] = _
    simp [Op.targets, Op.attributes, KeyMap.map, Function.comp_def]
  | region b hs l =>
    cases h
    show fn.label b :: hs.map fn.label ++ [fn.label l] = _
    simp [Op.targets, Op.attributes]
  | _ => cases h; rfl

theorem valueNames_ofOp (h : ofOp fn op = .ok o) : o.valueNames = op.values.map fn.docName := by
  cases op with
  | foreign => cases h
  | _ => cases h; rfl

/-- The parts that the kind asks for are there, if the labels of all targets are known. -/
theorem wellFormed_ofOp {known : List Text} (hop : op.Portable n) (h : ofOp fn op = .ok o)
    (hknown : ∀ b ∈ op.blocks, (fn.block b).name ∈ known) : o.WellFormed known := by
  refine ⟨?_, fun hk => ?_, fun hk => ?_, fun l hl hne => ?_⟩
  · cases op with
    | foreign => cases h
    | _ => cases h; simp [kinds]
  · cases op with
    | jump t =>
      cases h
      obtain ⟨b, ht⟩ := hop.jump rfl
      cases ht
      exact blockName_ne_nil _
    | foreign => cases h
    | _ => cases h; cases hk
  · cases op with
    | expr name r args =>
      cases h
      exact hop.named name r args rfl
    | foreign => cases h
    | _ => cases h; cases hk
  · rw [labels_ofOp h] at hl
    obtain ⟨t, ht, rfl⟩ := List.mem_map.mp hl
    cases t with
    | none => exact absurd rfl hne
    | some b =>
      obtain ⟨x, hx, hb⟩ := List.mem_map.mp ht
      exact hknown b (List.mem_filterMap.mpr ⟨x, hx, hb⟩)

end OpDoc

/-! ## Blocks and functions -/

/-- A block and its description. -/
structure BlockDoc.Shows (fn : Func) (b : BlockRef) (d : BlockDoc) : Prop where
  label : d.label = (fn.block b).name
  phis : d.phis = (fn.phisAt b).map (PhiDoc.ofPhi fn)
  ops : List.Forall₂ (fun op o => OpDoc.ofOp fn op = .ok o) (fn.opsAt b) d.ops

theorem BlockDoc.ofBlock_eq (fn : Func) (b : BlockRef) : ofBlock fn b = (do
    let ops ← (fn.opsAt b).mapM (OpDoc.ofOp fn)
    return {
      label := (fn.block b).name
      phis := (fn.phisAt b).map (PhiDoc.ofPhi fn)
      ops }) := by
  simp only [ofBlock, Func.opsAt, Func.phisAt, List.map_map, List.mapM_map]
  rfl

theorem BlockDoc.ofBlock_shows (h : ∀ op ∈ fn.opsAt b, ∃ o, OpDoc.ofOp fn op = .ok o) :
    ∃ d, ofBlock fn b = .ok d ∧ d.Shows fn b := by
  obtain ⟨os, hos⟩ := exists_mapM_ok.mpr h
  let d : BlockDoc :=
    { label := (fn.block b).name, phis := (fn.phisAt b).map (PhiDoc.ofPhi fn), ops := os }
  refine ⟨d, ?_, rfl, rfl, mapM_eq_ok_iff.mp hos⟩
  rw [ofBlock_eq]
  exact bind_eq_ok.mpr ⟨os, hos, rfl⟩

/-- A block is described with the names of all its values. -/
theorem BlockDoc.Shows.valueNames {d : BlockDoc} (h : d.Shows fn b) : d.valueNames =
    (fn.phisAt b).flatMap (fun p => (p.result :: p.operands).map fn.docName) ++
      (fn.opsAt b).flatMap fun op => op.values.map fn.docName := by
  rw [BlockDoc.valueNames, h.phis, List.flatMap_map,
    flatMap_eq_of_forall₂ (fun _ _ ho => OpDoc.valueNames_ofOp ho) h.ops]
  rfl

/-- A function and its description. -/
structure FuncDoc.Shows (fn : Func) (entry : BlockRef) (f : FuncDoc) : Prop where
  name : f.name = fn.name
  start : f.entry = []
  blocks : List.Forall₂ (BlockDoc.Shows fn) (fn.reachable entry) f.blocks

theorem FuncDoc.ofFunc_eq (hentry : fn.entry = some entry) : ofFunc fn = (do
    let blocks ← (fn.reachable entry).mapM (BlockDoc.ofBlock fn)
    return { name := fn.name, blocks }) := by
  rw [ofFunc, hentry]
  rfl

namespace Func.Whole

variable {c : BlockRef}

theorem name_eq (h : fn.Whole entry) (hb : b ∈ fn.reachable entry) :
    (fn.block b).name = blockName (b + 1) :=
  congrArg blockName (h.id b (lt_of_mem_reachable h.bound hb))

theorem mem_of_target (h : fn.Whole entry) (hb : b ∈ fn.reachable entry) {op : Op}
    (hop : op ∈ fn.opsAt b) (hc : c ∈ op.blocks) : c ∈ fn.reachable entry := by
  have hrefers : fn.Refers b c := targets_iff.mp (targets_eq_true_iff.mpr ⟨op, hop, hc⟩)
  exact reachable_closed hb hrefers (h.live b hb c hrefers)

theorem name_ne_nil (h : fn.Whole entry) {v : ValueRef} (hv : v < fn.values.length) :
    fn.docName (some v) ≠ [] := by
  have hget : fn.docName (some v) = fn.values[v] := by simp [docName, valueName, hv]
  rw [hget]
  exact h.named _ (List.getElem_mem hv)

/-- A function that can be described in full has a description. -/
theorem exists_shows (h : fn.Whole entry) : ∃ f, FuncDoc.ofFunc fn = .ok f ∧ f.Shows fn entry := by
  have hblock : ∀ b, ∃ d, BlockDoc.ofBlock fn b = .ok d ∧ d.Shows fn b :=
    fun b => BlockDoc.ofBlock_shows fun op hop => OpDoc.exists_ofOp_ok fn (h.ops b op hop)
  obtain ⟨bs, hbs⟩ : ∃ bs, (fn.reachable entry).mapM (BlockDoc.ofBlock fn) = .ok bs :=
    exists_mapM_ok.mpr fun b _ => (hblock b).imp fun _ hd => hd.1
  refine ⟨{ name := fn.name, blocks := bs }, ?_, rfl, rfl, ?_⟩
  · rw [FuncDoc.ofFunc_eq h.start]
    exact bind_eq_ok.mpr ⟨bs, hbs, rfl⟩
  · refine (mapM_eq_ok_iff.mp hbs).imp fun b d hd => ?_
    obtain ⟨d', hd', hshows⟩ := hblock b
    cases hd.symm.trans hd'
    exact hshows

end Func.Whole

namespace FuncDoc.Shows

variable {f : FuncDoc}

theorem labels (hs : f.Shows fn entry) :
    f.blocks.map BlockDoc.label = (fn.reachable entry).map fun b => (fn.block b).name :=
  map_eq_of_forall₂ (fun _ _ hd => hd.label) hs.blocks

theorem wellFormed (hs : f.Shows fn entry) (h : fn.Whole entry) : f.WellFormed := by
  have hblock : ∀ d ∈ f.blocks, ∃ b ∈ fn.reachable entry, d.Shows fn b :=
    fun d hd => forall₂_mem_right hs.blocks hd
  refine ⟨?_, fun d hd => ?_, ?_, .inl hs.start, fun d hd p hp => ?_, fun d hd o ho => ?_⟩
  · intro hnil
    have hempty := hs.blocks
    rw [hnil, List.forall₂_nil_right_iff] at hempty
    have hentry := fn.entry_mem_reachable entry
    rw [hempty] at hentry
    cases hentry
  · obtain ⟨b, -, hshows⟩ := hblock d hd
    rw [hshows.label]
    exact blockName_ne_nil _
  · rw [hs.labels]
    refine List.Nodup.map_on (fun b hb c hc hbc => ?_) (fn.nodup_reachable entry)
    rw [h.name_eq hb, h.name_eq hc] at hbc
    exact blockName_inj.mp hbc
  · obtain ⟨b, -, hshows⟩ := hblock d hd
    rw [hshows.phis] at hp
    obtain ⟨phi, hphi, rfl⟩ := List.mem_map.mp hp
    obtain ⟨v, hv, hlt⟩ := (h.phis b phi hphi).result
    rw [PhiDoc.ofPhi, hv]
    exact h.name_ne_nil hlt
  · obtain ⟨b, hb, hshows⟩ := hblock d hd
    obtain ⟨op, hop, ho⟩ := forall₂_mem_right hshows.ops ho
    refine OpDoc.wellFormed_ofOp (h.ops b op hop) ho fun c hc => ?_
    rw [hs.labels]
    exact List.mem_map_of_mem (h.mem_of_target hb hop hc)

end FuncDoc.Shows

end FlowGraph
