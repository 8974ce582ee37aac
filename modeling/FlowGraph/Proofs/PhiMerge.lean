import Mathlib
import FlowGraph.Proofs.Threading.Merge

/-! The merge of the phi nodes of a trampoline into those of its destination is all or nothing. If
one of them has no consumer there, nothing changes. Otherwise the consumers, chosen before anything
changes, take them up one after the other, and what comes of it is what taking them up all at once
would give: the results go, and the operands come. -/

namespace FlowGraph

namespace Func

variable {fn : Func} {b : BlockRef} {v : Option ValueRef} {q : PhiRef}

/-- The first phi node of a block that has the value as an operand. -/
def FirstUser (fn : Func) (b : BlockRef) (v : Option ValueRef) (q : PhiRef) : Prop :=
  ∃ before after, (fn.block b).phis = before ++ q :: after ∧ v ∈ (fn.phi q).operands ∧
    ∀ p ∈ before, v ∉ (fn.phi p).operands

theorem findPhiUsing_eq_some_iff : fn.findPhiUsing b v = some q ↔ fn.FirstUser b v q := by
  simp only [findPhiUsing, List.find?_eq_some_iff_append, Phi.hasOperand, FirstUser]
  constructor
  · rintro ⟨hv, before, after, hlist, hbefore⟩
    exact ⟨before, after, hlist, by simpa using hv, by simpa using hbefore⟩
  · rintro ⟨before, after, hlist, hv, hbefore⟩
    exact ⟨by simpa using hv, before, after, hlist, by simpa using hbefore⟩

theorem FirstUser.mem (h : fn.FirstUser b v q) : q ∈ (fn.block b).phis := by
  obtain ⟨before, after, hlist, -, -⟩ := h
  rw [hlist]
  simp

theorem findPhiUsing_eq_none_iff :
    fn.findPhiUsing b v = none ↔ ∀ q ∈ (fn.block b).phis, v ∉ (fn.phi q).operands := by
  simp [findPhiUsing, Phi.hasOperand]

end Func

namespace Threading

variable {s t : Threading} {fn fn' : Func} {b dest : BlockRef} {q : PhiRef}

theorem mapM_eq_none_iff {α β : Type} {f : α → Option β} {xs : List α} :
    xs.mapM f = none ↔ ∃ x ∈ xs, f x = none := by
  induction xs with
  | nil => simp
  | cons x xs ih =>
    rw [List.mapM_cons]
    cases hx : f x with
    | none => simp [hx]
    | some y =>
      cases hxs : xs.mapM f with
      | none => simpa [hx, hxs] using ih.mp hxs
      | some ys =>
        have hnone : ¬∃ x ∈ xs, f x = none := fun h => by simp [ih.mpr h] at hxs
        simpa [hx] using hnone

theorem mergePhis_eq_none_iff : mergePhis fn b dest = none ↔ ∃ p ∈ (fn.block b).phis,
    ∀ q ∈ (fn.block dest).phis, (fn.phi p).result ∉ (fn.phi q).operands := by
  simp only [← Func.findPhiUsing_eq_none_iff]
  rw [← mapM_eq_none_iff (f := fun p => fn.findPhiUsing dest (fn.phi p).result)]
  unfold mergePhis
  cases hcs : (fn.block b).phis.mapM fun p => fn.findPhiUsing dest (fn.phi p).result with
  | none => simp [hcs]
  | some cs => simp [hcs]

/-- Merges the phi nodes of a trampoline, counts them, and answers whether it could. -/
def foldPhis (b dest : BlockRef) : M Bool := do
  let s ← get
  match mergePhis s.fn b dest with
  | none => return false
  | some fn =>
    modifyFn fun _ => fn
    count fun c => { c with phiMerges := c.phiMerges + (s.fn.block b).phis.length }
    return true

theorem run_foldPhis (b dest : BlockRef) (s : Threading) : (foldPhis b dest).run s =
    match mergePhis s.fn b dest with
    | none => (.ok false, s)
    | some fn => (.ok true, { s with
        fn
        stats := { s.stats with
          phiMerges := s.stats.phiMerges + (s.fn.block b).phis.length } }) := by
  change (match mergePhis s.fn b dest with | none => _ | some fn => _ : M Bool).run s = _
  cases mergePhis s.fn b dest <;> rfl

/-- A trampoline is passed over exactly if its phi nodes can be merged. -/
theorem bypass_eq (bb : Option BlockRef) (b : BlockRef) (jmp : OpRef) :
    (bypass bb b jmp : M BlockRef) = (do
    let dest ← target (← get).fn b jmp
    if dest = b then
      count fun c => { c with selfLoops := c.selfLoops + 1 }
      return b
    if ← foldPhis b dest then
      eliminate b
      modifyFn fun fn => (fn.removeParent dest (some b)).addParent dest bb
      return dest
    count fun c => { c with phiRejects := c.phiRejects + 1 }
    return b) := by
  refine ExceptT.ext (funext fun s => ?_)
  change ((liftM (target s.fn b jmp) : M BlockRef) >>= _).run s =
    ((liftM (target s.fn b jmp) : M BlockRef) >>= _).run s
  cases target s.fn b jmp with
  | error e => rfl
  | ok dest =>
    rw [run_bind, run_bind]
    change (if dest = b then _ else _ : M BlockRef).run s =
      (if dest = b then _ else _ : M BlockRef).run s
    split
    · rfl
    · rw [run_bind, run_foldPhis]
      cases mergePhis s.fn b dest <;> rfl

/-! ## What a merge does -/

/-- No phi node of the block has the result of another one as an operand. -/
def Independent (fn : Func) (b : BlockRef) : Prop :=
  ∀ p ∈ (fn.block b).phis, ∀ p' ∈ (fn.block b).phis, p ≠ p' →
    (fn.phi p').result ∉ (fn.phi p).operands

/-- The phi node `p` of `b` goes to the phi node `q` of `dest`. -/
def GoesTo (fn : Func) (b dest : BlockRef) (p q : PhiRef) : Prop :=
  p ∈ (fn.block b).phis ∧ fn.FirstUser dest (fn.phi p).result q

theorem mem_takenBy_iff {p : PhiRef} : p ∈ takenBy fn b dest q ↔ GoesTo fn b dest p q := by
  rw [mem_takenBy, Func.findPhiUsing_eq_some_iff, GoesTo]

/-- From `s` to `t` all phi nodes of `b` were merged into phi nodes of `dest`. -/
structure Folded (b dest : BlockRef) (s t : Threading) : Prop where
  stats : t.stats = { s.stats with
    phiMerges := s.stats.phiMerges + (s.fn.block b).phis.length }
  removed : t.removed = s.removed
  /-- Beside phi nodes only the list of the trampoline changes. -/
  func : ∃ phis, t.fn = ({ s.fn with phis } : Func).modifyBlock b fun bb => { bb with phis := [] }
  emptied : (t.fn.block b).phis = []
  others : ∀ c, c ≠ b → t.fn.block c = s.fn.block c
  result : ∀ q, (t.fn.phi q).result = (s.fn.phi q).result
  unused : ∀ q, (∀ p, ¬GoesTo s.fn b dest p q) → t.fn.phi q = s.fn.phi q
  elsewhere : ∀ q, q ∉ (s.fn.block dest).phis → t.fn.phi q = s.fn.phi q
  /-- For lists of operands that hold no value twice, as all do that the library makes. -/
  operands : Independent s.fn b → ∀ q ∈ (s.fn.block dest).phis, (s.fn.phi q).operands.Nodup →
    (t.fn.phi q).operands.Nodup ∧ ∀ v, v ∈ (t.fn.phi q).operands ↔
      (v ∈ (s.fn.phi q).operands ∧ ∀ p, GoesTo s.fn b dest p q → v ≠ (s.fn.phi p).result) ∨
        ∃ p, GoesTo s.fn b dest p q ∧ v ∈ (s.fn.phi p).operands

theorem folded_of_mergePhis (hne : dest ≠ b)
    (hshare : ∀ p ∈ (s.fn.block b).phis, p ∉ (s.fn.block dest).phis)
    (hm : mergePhis s.fn b dest = some fn) : Folded b dest s { s with
      fn
      stats := { s.stats with phiMerges := s.stats.phiMerges + (s.fn.block b).phis.length } } := by
  have hhanded := mergePhis_handed hne hshare hm
  have hunused : ∀ q, (∀ p, ¬GoesTo s.fn b dest p q) → fn.phi q = s.fn.phi q := by
    intro q hq
    have hnone : takenBy s.fn b dest q = [] :=
      List.eq_nil_iff_forall_not_mem.mpr fun p hp => hq p (mem_takenBy_iff.mp hp)
    rw [hhanded.phi, hnone]
    rfl
  obtain ⟨phis, hfn⟩ := mergePhis_eq_some hm
  refine ⟨rfl, rfl, ⟨phis, hfn⟩, ?_, fun c hc => ?_, hhanded.result, hunused, fun q hq => ?_,
    fun hapart q _ hnodup => ⟨?_, fun v => ?_⟩⟩
  · simp [hhanded.lists]
  · change fn.block c = s.fn.block c
    rw [hfn, Func.block_modifyBlock_ne _ (Ne.symm hc)]
    rfl
  · exact hunused q fun p hp => hq hp.2.mem
  · rw [hhanded.phi]
    exact Phi.nodup_foldl_absorb hnodup _
  · rw [hhanded.mem_operands_iff hnodup hapart]
    simp only [mem_takenBy_iff]

/-- Merging phi nodes is all or nothing, and gives the exact operands. It fails if and only if one
of the phi nodes has no consumer in the destination, and then it changes nothing. -/
theorem merge_all_or_nothing (s : Threading) {b dest : BlockRef} (hne : b ≠ dest)
    (hshare : ∀ p ∈ (s.fn.block b).phis, p ∉ (s.fn.block dest).phis) :
    ∃ merged t, (foldPhis b dest).run s = (.ok merged, t) ∧
      (merged = false ↔ ∃ p ∈ (s.fn.block b).phis, ∀ q ∈ (s.fn.block dest).phis,
        (s.fn.phi p).result ∉ (s.fn.phi q).operands) ∧
      (merged = false → t = s) ∧ (merged = true → Folded b dest s t) := by
  rw [run_foldPhis, ← mergePhis_eq_none_iff]
  cases hm : mergePhis s.fn b dest with
  | none => exact ⟨false, s, rfl, by simp, fun _ => rfl, nofun⟩
  | some fn =>
    exact ⟨true, _, rfl, by simp, nofun, fun _ => folded_of_mergePhis (Ne.symm hne) hshare hm⟩

/-- Two phi nodes that go to the same consumer. The first uses its own result, their operands
overlap, and one operand is missing. -/
def sharedConsumer : Threading where
  fn := {
    name := "f"
    entry := some 0
    blocks := [
      { id := 1, ops := [0], phis := [0, 1] },
      { id := 2, ops := [1], phis := [2, 3], parents := [some 0] }]
    ops := [.jump (some 1), .ret none]
    phis := [⟨some 0, [some 0, some 2]⟩, ⟨some 1, [some 2, none]⟩,
      ⟨some 3, [some 1, some 4, some 0]⟩, ⟨some 5, [some 1]⟩]
    values := ["r", "s", "x", "t", "y", "u"] }

theorem sharedConsumer_merged :
    ∃ t, (foldPhis 0 1).run sharedConsumer = (.ok true, t) ∧ Folded 0 1 sharedConsumer t ∧
      Independent sharedConsumer.fn 0 ∧ GoesTo sharedConsumer.fn 0 1 0 2 ∧
      GoesTo sharedConsumer.fn 0 1 1 2 ∧
      (t.fn.phi 2).operands = [some 4, some 0, some 2, none] := by
  obtain ⟨merged, t, hrun, -, -, hfolded⟩ :=
    merge_all_or_nothing sharedConsumer (show (0 : BlockRef) ≠ 1 by decide) (by decide)
  have hvalue : (foldPhis 0 1).run sharedConsumer = (.ok true, { sharedConsumer with
      fn := { sharedConsumer.fn with
        blocks := [
          { id := 1, ops := [0] },
          { id := 2, ops := [1], phis := [2, 3], parents := [some 0] }]
        phis := [⟨some 0, [some 0, some 2]⟩, ⟨some 1, [some 2, none]⟩,
          ⟨some 3, [some 4, some 0, some 2, none]⟩, ⟨some 5, [some 1]⟩] }
      stats := { phiMerges := 2 } }) := rfl
  rw [hvalue] at hrun
  cases hrun
  refine ⟨_, hvalue, hfolded rfl, ?_, ?_, ?_, rfl⟩
  · unfold Independent
    decide
  · exact ⟨by decide, Func.findPhiUsing_eq_some_iff.mp (by decide)⟩
  · exact ⟨by decide, Func.findPhiUsing_eq_some_iff.mp (by decide)⟩

end Threading

end FlowGraph
