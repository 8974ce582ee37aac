import Mathlib
import FlowGraph.Proofs.Loaded

/-! The phi nodes of a function and how one takes up another. In a function of a document each phi
node stands at the head of one block, and its operands form a set. -/

namespace FlowGraph

namespace Phi

variable {p f : Phi} {v : Option ValueRef} {vs : List (Option ValueRef)}

@[simp] theorem addOperand_result (f : Phi) (v : Option ValueRef) :
    (f.addOperand v).result = f.result := by
  unfold addOperand
  split <;> rfl

theorem mem_addOperand {u : Option ValueRef} :
    u ∈ (f.addOperand v).operands ↔ u ∈ f.operands ∨ u = v := by
  unfold addOperand
  split
  · grind
  · simp

theorem nodup_addOperand (h : f.operands.Nodup) (v : Option ValueRef) :
    (f.addOperand v).operands.Nodup := by
  unfold addOperand
  split
  · exact h
  · rename_i hv
    rw [List.nodup_append]
    refine ⟨h, by simp, fun u hu w hw heq => hv ?_⟩
    rw [← List.mem_singleton.mp hw, ← heq]
    exact hu

@[simp] theorem addOperands_result (f : Phi) (vs : List (Option ValueRef)) :
    (f.addOperands vs).result = f.result := by
  unfold addOperands
  induction vs generalizing f with
  | nil => rfl
  | cons v vs ih => simp [ih]

theorem mem_addOperands {u : Option ValueRef} :
    u ∈ (f.addOperands vs).operands ↔ u ∈ f.operands ∨ u ∈ vs := by
  unfold addOperands
  induction vs generalizing f with
  | nil => simp
  | cons v vs ih => simp [ih, mem_addOperand, or_assoc]

theorem nodup_addOperands (h : f.operands.Nodup) (vs : List (Option ValueRef)) :
    (f.addOperands vs).operands.Nodup := by
  unfold addOperands
  induction vs generalizing f with
  | nil => exact h
  | cons v vs ih => exact ih (nodup_addOperand h v)

/-- The operands of `p` take the place of its result in `f`. -/
def absorb (f p : Phi) : Phi := (f.removeOperand p.result).addOperands p.operands

@[simp] theorem absorb_result (f p : Phi) : (f.absorb p).result = f.result := by
  simp [absorb, removeOperand]

theorem mem_absorb (h : f.operands.Nodup) :
    v ∈ (f.absorb p).operands ↔ (v ∈ f.operands ∧ v ≠ p.result) ∨ v ∈ p.operands := by
  unfold absorb
  rw [mem_addOperands]
  simp [removeOperand, h.mem_erase_iff, and_comm]

theorem nodup_absorb (h : f.operands.Nodup) (p : Phi) : (f.absorb p).operands.Nodup :=
  nodup_addOperands (h.erase p.result) p.operands

/-! Several phi nodes taken up one after the other. -/

variable {ps : List Phi}

@[simp] theorem foldl_absorb_result (f : Phi) (ps : List Phi) :
    (ps.foldl absorb f).result = f.result := by
  induction ps generalizing f with
  | nil => rfl
  | cons p ps ih => simp [ih]

theorem nodup_foldl_absorb (h : f.operands.Nodup) (ps : List Phi) :
    (ps.foldl absorb f).operands.Nodup := by
  induction ps generalizing f with
  | nil => exact h
  | cons p ps ih => exact ih (nodup_absorb h p)

theorem mem_of_mem_foldl_absorb (h : f.operands.Nodup) (hv : v ∈ (ps.foldl absorb f).operands) :
    (v ∈ f.operands ∧ ∀ p ∈ ps, v ≠ p.result) ∨ ∃ p ∈ ps, v ∈ p.operands := by
  induction ps generalizing f with
  | nil => exact .inl ⟨hv, by simp⟩
  | cons p ps ih =>
    rcases ih (nodup_absorb h p) hv with ⟨hf, hps⟩ | ⟨q, hq, hvq⟩
    · rcases (mem_absorb h).mp hf with ⟨hf, hp⟩ | hp
      · exact .inl ⟨hf, by simpa [hp] using hps⟩
      · exact .inr ⟨p, List.mem_cons_self, hp⟩
    · exact .inr ⟨q, List.mem_cons_of_mem p hq, hvq⟩

/-- Nothing that was taken up is lost again, if each phi node whose result an earlier one brings in
brings it in as well. -/
theorem mem_foldl_absorb (h : f.operands.Nodup)
    (hps : ps.Pairwise fun p q => q.result ∈ p.operands → q.result ∈ q.operands) :
    v ∈ (ps.foldl absorb f).operands ↔
      (v ∈ f.operands ∧ ∀ p ∈ ps, v ≠ p.result) ∨ ∃ p ∈ ps, v ∈ p.operands := by
  refine ⟨mem_of_mem_foldl_absorb h, fun hv => ?_⟩
  induction ps generalizing f with
  | nil => simpa using hv
  | cons p ps ih =>
    obtain ⟨hp, hps⟩ := List.pairwise_cons.mp hps
    refine ih (nodup_absorb h p) hps ?_
    rw [mem_absorb h]
    rcases hv with ⟨hf, hne⟩ | ⟨q, hq, hvq⟩
    · exact .inl ⟨.inl ⟨hf, hne p List.mem_cons_self⟩,
        fun q hq => hne q (List.mem_cons_of_mem p hq)⟩
    · rcases List.mem_cons.mp hq with rfl | hq
      · by_cases hlater : ∃ r ∈ ps, v = r.result
        · obtain ⟨r, hr, rfl⟩ := hlater
          exact .inr ⟨r, hr, hp r hr hvq⟩
        · exact .inl ⟨.inr hvq, fun r hr heq => hlater ⟨r, hr, heq⟩⟩
      · exact .inr ⟨q, hq, hvq⟩

end Phi

namespace Func

variable {fn fn' fn'' : Func} {b : BlockRef} {p : PhiRef}

theorem phi_modifyPhi (fn : Func) (p q : PhiRef) (f : Phi → Phi) :
    (fn.modifyPhi p f).phi q = if p = q ∧ q < fn.phis.length then f (fn.phi q) else fn.phi q := by
  simp only [phi, modifyPhi, List.getD_eq_getElem?_getD, List.getElem?_modify]
  by_cases hp : p = q
  · subst hp
    by_cases hlt : p < fn.phis.length <;> simp [hlt]
  · simp [hp]

/-- A phi node with an operand is one of the table. -/
theorem lt_of_mem_operands {v : Option ValueRef} (h : v ∈ (fn.phi p).operands) :
    p < fn.phis.length := by
  apply Classical.byContradiction
  intro hp
  have hdefault : fn.phi p = default := by simp [phi, hp]
  rw [hdefault] at h
  exact nomatch h

/-! ## Where phi nodes stand -/

/-- The phi nodes at the heads of all blocks. -/
def attached (fn : Func) : List PhiRef := fn.blocks.flatMap Block.phis

theorem mem_attached : p ∈ fn.attached ↔ ∃ b, p ∈ (fn.block b).phis := by
  unfold attached
  rw [List.mem_flatMap]
  constructor
  · intro h
    obtain ⟨bb, hbb, hp⟩ := h
    obtain ⟨b, hb⟩ := List.mem_iff_getElem?.mp hbb
    exact ⟨b, by simpa [block, hb] using hp⟩
  · intro h
    obtain ⟨b, hp⟩ := h
    by_cases hb : b < fn.blocks.length
    · exact ⟨fn.blocks[b], List.getElem_mem hb, by simpa [block, hb] using hp⟩
    · simp [block, hb] at hp

/-- Both functions have the same phi nodes at the same places. -/
structure SamePhis (fn fn' : Func) : Prop where
  table : fn'.phis = fn.phis
  lists : ∀ b, (fn'.block b).phis = (fn.block b).phis

namespace SamePhis

theorem refl (fn : Func) : SamePhis fn fn := ⟨rfl, fun _ => rfl⟩

theorem trans (h : SamePhis fn fn') (h' : SamePhis fn' fn'') : SamePhis fn fn'' :=
  ⟨h'.table.trans h.table, fun b => (h'.lists b).trans (h.lists b)⟩

theorem phi (h : SamePhis fn fn') (p : PhiRef) : fn'.phi p = fn.phi p := by
  simp only [Func.phi, h.table]

theorem modifyBlock {f : Block → Block} (hf : ∀ bb, (f bb).phis = bb.phis) (fn : Func)
    (b : BlockRef) : SamePhis fn (fn.modifyBlock b f) := by
  refine ⟨rfl, fun c => ?_⟩
  rw [block_modifyBlock]
  split
  · exact hf _
  · rfl

theorem addParent (fn : Func) (b : BlockRef) (p : Option BlockRef) :
    SamePhis fn (fn.addParent b p) :=
  .modifyBlock (fun bb => by unfold Block.addParent; split <;> rfl) fn b

theorem appendOp (fn : Func) (b : BlockRef) (o : OpRef) : SamePhis fn (fn.appendOp b o) := by
  have hparents : ∀ (ts : List BlockRef) (g : Func),
      SamePhis g (ts.foldl (fun fn t => fn.addParent t (some b)) g) := by
    intro ts
    induction ts with
    | nil => exact refl
    | cons t ts ih => intro g; exact (addParent g t (some b)).trans (ih _)
  unfold Func.appendOp
  exact (modifyBlock (f := fun bb => { bb with ops := bb.ops ++ [o] }) (fun _ => rfl) fn b).trans
    (hparents _ _)

end SamePhis

/-- Each phi node stands in one block, and operands are not repeated. -/
structure Placed (fn : Func) : Prop where
  home : ∀ b c p, p ∈ (fn.block b).phis → p ∈ (fn.block c).phis → b = c
  bound : ∀ b, ∀ p ∈ (fn.block b).phis, p < fn.phis.length
  nodup : ∀ p, (fn.phi p).operands.Nodup

namespace Placed

theorem congr (h : fn.Placed) (hsame : SamePhis fn fn') : fn'.Placed where
  home b c p := by
    rw [hsame.lists, hsame.lists]
    exact h.home b c p
  bound b p := by
    rw [hsame.lists, hsame.table]
    exact h.bound b p
  nodup p := by
    rw [hsame.phi]
    exact h.nodup p

theorem empty (hphis : fn.phis = []) (hblocks : ∀ bb ∈ fn.blocks, bb.phis = []) : fn.Placed := by
  have hnone : ∀ b, (fn.block b).phis = [] := by
    intro b
    simp only [block, List.getD_eq_getElem?_getD]
    cases hb : fn.blocks[b]? with
    | none => rfl
    | some bb => exact hblocks bb (List.mem_of_getElem? hb)
  refine ⟨?_, ?_, ?_⟩
  · simp [hnone]
  · simp [hnone]
  · intro p
    simp [phi, hphis, default]

/-- A new phi node at the end of a block stands nowhere else. -/
theorem addPhi {phi : Phi} (h : fn.Placed) (hphi : phi.operands.Nodup) :
    ((fn.newPhi phi).1.modifyBlock b fun bb =>
      { bb with phis := bb.phis ++ [(fn.newPhi phi).2] }).Placed := by
  let fn' := (fn.newPhi phi).1.modifyBlock b fun bb =>
    { bb with phis := bb.phis ++ [(fn.newPhi phi).2] }
  have htable : fn'.phis = fn.phis ++ [phi] := rfl
  have hlists : ∀ c p, p ∈ (fn'.block c).phis →
      p ∈ (fn.block c).phis ∨ (c = b ∧ p = fn.phis.length) := by
    intro c p hp
    simp only [fn', block_modifyBlock] at hp
    split at hp
    · rename_i hc
      rcases List.mem_append.mp hp with hp | hp
      · exact .inl hp
      · exact .inr ⟨hc.1.symm, List.mem_singleton.mp hp⟩
    · exact .inl hp
  have hold : ∀ c, ∀ p ∈ (fn.block c).phis, p ≠ fn.phis.length :=
    fun c p hp => Nat.ne_of_lt (h.bound c p hp)
  refine ⟨?_, ?_, ?_⟩
  · intro c c' p hp hp'
    rcases hlists c p hp with hp | ⟨hc, heq⟩ <;> rcases hlists c' p hp' with hp' | ⟨hc', heq'⟩
    · exact h.home c c' p hp hp'
    · exact absurd heq' (hold c p hp)
    · exact absurd heq (hold c' p hp')
    · exact hc.trans hc'.symm
  · intro c p hp
    show p < fn'.phis.length
    rw [htable, List.length_append]
    rcases hlists c p hp with hp | ⟨-, rfl⟩
    · exact Nat.lt_succ_of_lt (h.bound c p hp)
    · exact Nat.lt_succ_self _
  · intro p
    show (fn'.phi p).operands.Nodup
    simp only [Func.phi, htable, List.getD_eq_getElem?_getD, List.getElem?_append]
    split
    · simpa [Func.phi] using h.nodup p
    · cases hp : [phi][p - fn.phis.length]? with
      | none => simp [default]
      | some f =>
        obtain rfl : f = phi := List.mem_singleton.mp (List.mem_of_getElem? hp)
        exact hphi

end Placed

end Func

/-! ## Functions of documents -/

theorem PhiDoc.build_nodup {s : Scope} {d : PhiDoc} {p : Phi} (h : d.build s = .ok p) :
    p.operands.Nodup := by
  unfold PhiDoc.build at h
  split at h
  · cases h
  · cases h
    exact Phi.nodup_addOperands List.nodup_nil _

theorem BlockDoc.fill_placed {s : Scope} {d : BlockDoc} {b : BlockRef} {fn fn' : Func}
    (h : fn.Placed) (hfill : d.fill s fn b = .ok fn') : fn'.Placed := by
  obtain ⟨fn₁, hphis, hops⟩ := bind_eq_ok.mp hfill
  have h₁ : fn₁.Placed := by
    refine foldlM_keeps (P := Func.Placed) (fun p _ g g' hg hstep => ?_) h hphis
    obtain ⟨phi, hphi, hstep⟩ := bind_eq_ok.mp hstep
    cases hstep
    exact hg.addPhi (PhiDoc.build_nodup (mapError_eq_ok.mp hphi))
  refine foldlM_keeps (P := Func.Placed) (fun o _ g g' hg hstep => ?_) h₁ hops
  obtain ⟨op, -, hstep⟩ := bind_eq_ok.mp hstep
  cases hstep
  have hnew : Func.SamePhis g (g.newOp op).1 := ⟨rfl, fun _ => rfl⟩
  exact hg.congr (hnew.trans (.appendOp _ b _))

theorem FuncDoc.build_placed {f : FuncDoc} {fn : Func} (h : f.build = .ok fn) : fn.Placed := by
  obtain ⟨-, -, e, -, h⟩ := build_eq_ok_iff.mp h
  refine foldlM_keeps (P := Func.Placed) (fun x _ g g' hg hfill => ?_) ?_ h
  · exact BlockDoc.fill_placed hg hfill
  · exact .empty (by rw [start_eq]) (by simp [start_eq])

theorem Document.placed_of_ok {path : Text} {d : Document} {fns : List Func} {st : Stats}
    (h : ((d.build path).run st).1 = .ok fns) {fn : Func} (hfn : fn ∈ fns) : fn.Placed := by
  obtain ⟨f, -, hf⟩ := forall₂_mem_right (built_of_ok h) hfn
  exact FuncDoc.build_placed hf

end FlowGraph
