import Mathlib
import FlowGraph.Proofs.Acceptance

/-! How names are looked up. Where names are distinct, a lookup and its answer determine each other:
block `b` is found under a label exactly if the label is its own, and likewise for values. So an
operation refers to the blocks whose labels its description holds, in the same order. -/

namespace FlowGraph

namespace KeyMap

variable {α : Type}

theorem insertEntry_last {k : Int64} {v : α} {l : List (Int64 × α)} (h : ∀ e ∈ l, e.1 < k) :
    insertEntry k v l = l ++ [(k, v)] := by
  induction l with
  | nil => rfl
  | cons x l ih =>
    have hx : x.1 < k := h x List.mem_cons_self
    have hge : ¬k < x.1 := Int64.not_lt.mpr (Int64.le_of_lt hx)
    have hne : k ≠ x.1 := fun he => Int64.lt_irrefl (he ▸ hx)
    simp [insertEntry, hge, hne, ih fun e he => h e (List.mem_cons_of_mem x he)]

/-- Entries that come in rising order are kept as they are. -/
theorem entries_ofList {es : List (Int64 × α)} (h : es.Pairwise fun a b => a.1 < b.1) :
    (ofList es).entries = es := by
  suffices hfrom : ∀ (es : List (Int64 × α)) (m : KeyMap α),
      (m.entries ++ es).Pairwise (fun a b => a.1 < b.1) →
        (es.foldl (fun m e => m.insert e.1 e.2) m).entries = m.entries ++ es from
    hfrom es .empty h
  intro es
  induction es with
  | nil => simp
  | cons e es ih =>
    intro m hm
    have hlast : (m.insert e.1 e.2).entries = m.entries ++ [e] := by
      refine insertEntry_last fun x hx => ?_
      exact (List.pairwise_append.mp hm).2.2 x hx e List.mem_cons_self
    rw [List.foldl_cons, ih _ (by simpa [hlast] using hm), hlast]
    simp

end KeyMap

theorem nodup_eraseDups {α : Type} [BEq α] [LawfulBEq α] (l : List α) : l.eraseDups.Nodup := by
  induction hn : l.length using Nat.strongRecOn generalizing l with
  | ind n ih =>
    cases l with
    | nil => simp
    | cons a l =>
      rw [List.eraseDups_cons, List.nodup_cons]
      refine ⟨by simp [List.mem_eraseDups], ih _ ?_ _ rfl⟩
      rw [← hn]
      exact Nat.lt_succ_of_le (List.length_filter_le ..)

theorem idxOf?_eq_some_iff_of_nodup {α : Type} [BEq α] [LawfulBEq α] {l : List α} (h : l.Nodup)
    {a : α} {i : Nat} : l.idxOf? a = some i ↔ l[i]? = some a := by
  rw [List.idxOf?_eq_some_iff, List.getElem?_eq_some_iff]
  constructor
  · intro hi
    obtain ⟨hlt, hget, -⟩ := hi
    exact ⟨hlt, hget⟩
  · intro hi
    obtain ⟨hlt, hget⟩ := hi
    refine ⟨hlt, hget, fun j hj hget' => ?_⟩
    exact List.pairwise_iff_getElem.mp h j i _ hlt hj (hget'.trans hget.symm)

namespace Scope

variable {s : Scope} {l name : Text} {b : BlockRef} {v : ValueRef}

theorem block_eq_some_iff (h : s.labels.Nodup) :
    s.block l = .ok (some b) ↔ l ≠ [] ∧ s.labels[b]? = some l := by
  unfold block
  by_cases hl : l = []
  · simp [hl]
  · simp only [List.isEmpty_iff, hl, if_false, ne_eq, not_false_eq_true, true_and,
      ← idxOf?_eq_some_iff_of_nodup h]
    split <;> simp [*]

theorem value_eq_some_iff (h : s.values.Nodup) :
    s.value name = some v ↔ name ≠ [] ∧ s.values[v]? = some name := by
  unfold value
  by_cases hn : name = []
  · simp [hn]
  · simp only [List.isEmpty_iff, hn, if_false, ne_eq, not_false_eq_true, true_and,
      idxOf?_eq_some_iff_of_nodup h]

theorem value_eq_none_iff (h : name ∈ s.values ∨ name = []) : s.value name = none ↔ name = [] := by
  unfold value
  by_cases hn : name = []
  · simp [hn]
  · simp [hn, h.resolve_right hn]

/-- Every case keeps its key and goes to the block that its label names. -/
theorem cases_eq_ok_iff {m : KeyMap Text} {m' : KeyMap (Option BlockRef)} :
    s.cases m = .ok m' ↔
      List.Forall₂ (fun e e' => e'.1 = e.1 ∧ s.block e.2 = .ok e'.2) m.entries m'.entries := by
  have hentry : ∀ (e : Int64 × Text) (e' : Int64 × Option BlockRef),
      (do return (e.1, ← s.block e.2) : Except Flaw (Int64 × Option BlockRef)) = .ok e' ↔
        e'.1 = e.1 ∧ s.block e.2 = .ok e'.2 := by
    intro e e'
    rw [bind_eq_ok]
    constructor
    · intro h
      obtain ⟨b, hb, h⟩ := h
      cases h
      exact ⟨rfl, hb⟩
    · intro h
      exact ⟨e'.2, h.2, by rw [← h.1]; rfl⟩
  unfold cases
  rw [bind_eq_ok]
  simp only [mapM_eq_ok_iff, hentry]
  constructor
  · intro h
    obtain ⟨es, hes, h⟩ := h
    cases h
    have hsorted : (es.map Prod.fst).Pairwise (· < ·) :=
      map_eq_of_forall₂ (fun _ _ h => h.1) hes ▸ List.pairwise_map.mpr m.sorted
    rw [KeyMap.entries_ofList (List.pairwise_map.mp hsorted)]
    exact hes
  · intro h
    refine ⟨m'.entries, h, ?_⟩
    exact congrArg Except.ok (KeyMap.ext (KeyMap.entries_ofList m'.sorted))

end Scope

theorem FuncDoc.nodup_values (f : FuncDoc) : f.scope.values.Nodup := nodup_eraseDups _

theorem FuncDoc.mem_values {f : FuncDoc} {name : Text} : name ∈ f.scope.values ↔
    name ≠ [] ∧ ∃ b ∈ f.blocks, name ∈ b.valueNames := by
  simp [FuncDoc.scope, List.mem_eraseDups, and_comm]

namespace Slot

@[simp] theorem blocks_single (b : Option BlockRef) :
    (single b).targets.map Target.block = [b] := rfl

@[simp] theorem blocks_list (bs : List (Option BlockRef)) :
    (list bs).targets.map Target.block = bs := by
  simp [targets, Function.comp_def]

@[simp] theorem blocks_keyed (m : Option (KeyMap (Option BlockRef))) :
    (keyed m).targets.map Target.block = (m.getD .empty).entries.map Prod.snd := by
  simp [targets, Function.comp_def]

end Slot

namespace OpDoc

variable {s : Scope} {o : OpDoc} {op : Op}

/-- An operation refers to the blocks that the labels of its description name, in their order. -/
theorem build_targets (h : o.build s = .ok op) :
    List.Forall₂ (fun l t => s.block l = .ok t) o.labels (op.targets.map Target.block) := by
  unfold labels
  cases builds_of_build_eq_ok h with
  | jump hk _ ht =>
    rw [hk]
    exact .cons ht .nil
  | branch hk ht hf =>
    rw [hk]
    exact .cons ht (.cons hf .nil)
  | @switch m d hk hm hd =>
    have hblocks : (Op.switch (s.value o.cond) m.made? d).targets.map Target.block =
        m.entries.map Prod.snd ++ [d] := by
      simp [Op.targets, Op.attributes]
    rw [hk, hblocks]
    refine List.rel_append ?_ (.cons hd .nil)
    exact List.rel_map (fun _ _ he => he.2) (Scope.cases_eq_ok_iff.mp hm)
  | @region b l hs hk hb hhs hl =>
    have hblocks : (Op.region b hs l).targets.map Target.block = b :: (hs ++ [l]) := by
      simp [Op.targets, Op.attributes]
    rw [hk, hblocks]
    exact .cons hb (List.rel_append (mapM_eq_ok_iff.mp hhs) (.cons hl .nil))
  | expr hk =>
    rw [hk]
    exact .nil
  | ret hk =>
    rw [hk]
    exact .nil

end OpDoc

end FlowGraph
