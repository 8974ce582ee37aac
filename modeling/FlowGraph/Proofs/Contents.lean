import Mathlib
import FlowGraph.Proofs.Phis

/-! What stands in the blocks of a function that a document describes. References into the tables
of a function stay good while the tables grow, so the phi nodes and operations of a block are seen
best as lists of contents: filling a block appends to its contents and leaves all other blocks
alone. The parents of a block come out in the order in which the blocks are filled. -/

namespace FlowGraph

namespace Block

variable (bb : Block) (p : Option BlockRef)

@[simp] theorem addParent_id : (bb.addParent p).id = bb.id := by
  unfold addParent
  split <;> rfl

@[simp] theorem addParent_phis : (bb.addParent p).phis = bb.phis := by
  unfold addParent
  split <;> rfl

@[simp] theorem addParent_ops : (bb.addParent p).ops = bb.ops := by
  unfold addParent
  split <;> rfl

/-- Making a block a parent twice is the same as once. -/
theorem addParent_addParent : (bb.addParent p).addParent p = bb.addParent p := by
  have hp : p ∈ (bb.addParent p).parents := by
    unfold addParent
    split
    · assumption
    · simp
  rw [addParent, if_pos hp]

end Block

namespace Func

variable {fn fn' fn'' : Func} {b c : BlockRef} {op : Op} {phi : Phi} {ps ps' : List Phi}
  {os os' : List Op}

/-- The phi nodes at the head of a block. -/
def phisAt (fn : Func) (b : BlockRef) : List Phi := (fn.block b).phis.map fn.phi

/-- The operations of a block. -/
def opsAt (fn : Func) (b : BlockRef) : List Op := (fn.block b).ops.map fn.op

theorem targetsOf_eq (fn : Func) (b : BlockRef) :
    fn.targetsOf b = (fn.opsAt b).flatMap Op.targets := by
  rw [targetsOf, opsAt, List.flatMap_map]

theorem targets_eq_true_iff : fn.targets b (some c) = true ↔ ∃ op ∈ fn.opsAt b, c ∈ op.blocks := by
  rw [targets, targetsOf_eq]
  simp only [List.any_flatMap, List.any_eq_true, Op.blocks, List.mem_filterMap, decide_eq_true_eq]

/-! ## One more operation -/

theorem foldl_addParent_eq (ts : List BlockRef) (p : Option BlockRef) (fn : Func) :
    ∃ bs : List Block, bs.length = fn.blocks.length ∧
      ts.foldl (fun fn t => fn.addParent t p) fn = { fn with blocks := bs } := by
  induction ts generalizing fn with
  | nil => exact ⟨fn.blocks, rfl, rfl⟩
  | cons t ts ih =>
    obtain ⟨bs, hlen, hfold⟩ := ih (fn.addParent t p)
    exact ⟨bs, hlen.trans (alike_addParent fn t p).blocks, hfold⟩

theorem block_foldl_addParent (ts : List BlockRef) (p : Option BlockRef) (fn : Func)
    (c : BlockRef) : (ts.foldl (fun fn t => fn.addParent t p) fn).block c =
      if c ∈ ts ∧ c < fn.blocks.length then (fn.block c).addParent p else fn.block c := by
  induction ts generalizing fn with
  | nil => simp
  | cons t ts ih =>
    have hlen : (fn.addParent t p).blocks.length = fn.blocks.length :=
      (alike_addParent fn t p).blocks
    rw [List.foldl_cons, ih, hlen, addParent, block_modifyBlock]
    by_cases hc : c < fn.blocks.length
    · by_cases ht : t = c
      · by_cases hts : c ∈ ts <;> simp [hc, ht, hts, Block.addParent_addParent]
      · simp [hc, ht, Ne.symm ht]
    · simp [hc]

/-- A function with a new operation at the end of block `b`. -/
def pushOp (fn : Func) (b : BlockRef) (op : Op) : Func := (fn.newOp op).1.appendOp b (fn.newOp op).2

theorem pushOp_eq (fn : Func) (b : BlockRef) (op : Op) :
    ∃ bs : List Block, bs.length = fn.blocks.length ∧
      fn.pushOp b op = { fn with blocks := bs, ops := fn.ops ++ [op] } := by
  obtain ⟨bs, hlen, hfold⟩ := foldl_addParent_eq _ (some b)
    ((fn.newOp op).1.modifyBlock b fun bb => { bb with ops := bb.ops ++ [fn.ops.length] })
  exact ⟨bs, by simpa [modifyBlock, newOp] using hlen, hfold⟩

theorem op_pushOp (fn : Func) (b : BlockRef) (op : Op) (o : OpRef) :
    (fn.pushOp b op).op o = if o = fn.ops.length then op else fn.op o := by
  obtain ⟨bs, -, heq⟩ := pushOp_eq fn b op
  rw [heq]
  exact op_newOp fn op o

theorem block_pushOp (hb : b < fn.blocks.length) (op : Op) (c : BlockRef) :
    (fn.pushOp b op).block c =
      let bb := { fn.block c with
        ops := (fn.block c).ops ++ if c = b then [fn.ops.length] else [] }
      if c ∈ op.blocks ∧ c < fn.blocks.length then bb.addParent (some b) else bb := by
  let fn₁ := (fn.newOp op).1.modifyBlock b fun bb => { bb with ops := bb.ops ++ [fn.ops.length] }
  have hop : fn₁.op fn.ops.length = op := by
    show (fn.newOp op).1.op fn.ops.length = op
    rw [op_newOp, if_pos rfl]
  have hpush : fn.pushOp b op = op.blocks.foldl (fun fn t => fn.addParent t (some b)) fn₁ := by
    change (fn₁.op fn.ops.length).blocks.foldl _ fn₁ = _
    rw [hop]
  have hlen : fn₁.blocks.length = fn.blocks.length := by simp [fn₁, modifyBlock, newOp]
  have hblock : fn₁.block c =
      if c = b then { fn.block b with ops := (fn.block b).ops ++ [fn.ops.length] }
      else fn.block c := block_modifyBlock_of_lt (fn.newOp op).1 hb _ c
  rw [hpush, block_foldl_addParent, hlen, hblock]
  by_cases hc : c = b
  · subst hc
    simp
  · simp [hc]

/-- The references of blocks lie inside the tables. -/
structure Tabled (fn : Func) : Prop where
  op : ∀ b, ∀ o ∈ (fn.block b).ops, o < fn.ops.length
  phi : ∀ b, ∀ p ∈ (fn.block b).phis, p < fn.phis.length

/-- From `fn` to `fn'` block `b` gained phi nodes and operations, and nothing else is new but
parents. -/
structure Grown (b : BlockRef) (ps : List Phi) (os : List Op) (fn fn' : Func) : Prop where
  name : fn'.name = fn.name
  entry : fn'.entry = fn.entry
  values : fn'.values = fn.values
  length : fn'.blocks.length = fn.blocks.length
  id : ∀ c, (fn'.block c).id = (fn.block c).id
  phis : ∀ c, fn'.phisAt c = fn.phisAt c ++ if c = b then ps else []
  ops : ∀ c, fn'.opsAt c = fn.opsAt c ++ if c = b then os else []
  tabled : fn.Tabled → fn'.Tabled

namespace Grown

theorem refl (b : BlockRef) (fn : Func) : Grown b [] [] fn fn := by
  refine ⟨rfl, rfl, rfl, rfl, fun _ => rfl, fun c => ?_, fun c => ?_, fun h => h⟩ <;> simp

theorem trans (h : Grown b ps os fn fn') (h' : Grown b ps' os' fn' fn'') :
    Grown b (ps ++ ps') (os ++ os') fn fn'' := by
  refine ⟨h'.name.trans h.name, h'.entry.trans h.entry, h'.values.trans h.values,
    h'.length.trans h.length, fun c => (h'.id c).trans (h.id c), fun c => ?_, fun c => ?_,
    fun ht => h'.tabled (h.tabled ht)⟩
  · rw [h'.phis, h.phis]
    split <;> simp
  · rw [h'.ops, h.ops]
    split <;> simp

end Grown

theorem fields_pushOp (hb : b < fn.blocks.length) (op : Op) (c : BlockRef) :
    ((fn.pushOp b op).block c).id = (fn.block c).id ∧
      ((fn.pushOp b op).block c).phis = (fn.block c).phis ∧
      ((fn.pushOp b op).block c).ops =
        (fn.block c).ops ++ if c = b then [fn.ops.length] else [] := by
  rw [block_pushOp hb]
  dsimp only
  split <;> simp

theorem grown_pushOp (ht : fn.Tabled) (hb : b < fn.blocks.length) (op : Op) :
    Grown b [] [op] fn (fn.pushOp b op) := by
  obtain ⟨bs, hlen, heq⟩ := pushOp_eq fn b op
  have hfields := fields_pushOp hb op
  have hphi : ∀ p, (fn.pushOp b op).phi p = fn.phi p := by
    intro p
    rw [heq]
    rfl
  -- an operation that stood in a block is never the new one
  have hold : ∀ c, (fn.block c).ops.map (fn.pushOp b op).op = (fn.block c).ops.map fn.op := by
    intro c
    refine List.map_congr_left fun o ho => ?_
    rw [op_pushOp, if_neg (Nat.ne_of_lt (ht.op c o ho))]
  refine ⟨by rw [heq], by rw [heq], by rw [heq], by rw [heq]; exact hlen, fun c => (hfields c).1,
    fun c => ?_, fun c => ?_, fun _ => ⟨fun c o ho => ?_, fun c p hp => ?_⟩⟩
  · simp [phisAt, (hfields c).2.1, hphi]
  · rw [opsAt, (hfields c).2.2, List.map_append, hold]
    split
    · simp [opsAt, op_pushOp]
    · rfl
  · rw [(hfields c).2.2] at ho
    have hlt : o < fn.ops.length + 1 := by
      rcases List.mem_append.mp ho with ho | ho
      · exact Nat.lt_succ_of_lt (ht.op c o ho)
      · split at ho
        · exact (List.mem_singleton.mp ho) ▸ Nat.lt_succ_self _
        · cases ho
    rw [heq]
    simpa using hlt
  · rw [(hfields c).2.1] at hp
    rw [heq]
    exact ht.phi c p hp

/-! ## One more phi node -/

/-- A function with a new phi node at the head of block `b`, after those that stand there. -/
def pushPhi (fn : Func) (b : BlockRef) (phi : Phi) : Func :=
  (fn.newPhi phi).1.modifyBlock b fun bb => { bb with phis := bb.phis ++ [(fn.newPhi phi).2] }

theorem phi_pushPhi (fn : Func) (b : BlockRef) (phi : Phi) (p : PhiRef) :
    (fn.pushPhi b phi).phi p = if p = fn.phis.length then phi else fn.phi p := by
  show (fn.newPhi phi).1.phi p = _
  simp only [newPhi, Func.phi, List.getD_eq_getElem?_getD, List.getElem?_append]
  rcases Nat.lt_trichotomy p fn.phis.length with hlt | he | hgt
  · simp [hlt, Nat.ne_of_lt hlt]
  · simp [he]
  · have hout : [phi][p - fn.phis.length]? = none :=
      List.getElem?_eq_none (Nat.le_sub_of_add_le' hgt)
    simp [Nat.not_lt.mpr (Nat.le_of_lt hgt), Nat.ne_of_gt hgt, hout]

theorem block_pushPhi (hb : b < fn.blocks.length) (phi : Phi) (c : BlockRef) :
    (fn.pushPhi b phi).block c = { fn.block c with
      phis := (fn.block c).phis ++ if c = b then [fn.phis.length] else [] } := by
  have hblock := block_modifyBlock_of_lt (fn.newPhi phi).1 hb
    (fun bb => { bb with phis := bb.phis ++ [fn.phis.length] }) c
  refine hblock.trans ?_
  by_cases hc : c = b
  · subst hc
    simp [newPhi, block]
  · simp [hc, newPhi, block]

theorem grown_pushPhi (ht : fn.Tabled) (hb : b < fn.blocks.length) (phi : Phi) :
    Grown b [phi] [] fn (fn.pushPhi b phi) := by
  have hold : ∀ c, (fn.block c).phis.map (fn.pushPhi b phi).phi = (fn.block c).phis.map fn.phi := by
    intro c
    refine List.map_congr_left fun p hp => ?_
    rw [phi_pushPhi, if_neg (Nat.ne_of_lt (ht.phi c p hp))]
  refine ⟨rfl, rfl, rfl, by simp [pushPhi, modifyBlock, newPhi], fun c => ?_, fun c => ?_,
    fun c => ?_, fun _ => ⟨fun c o ho => ?_, fun c p hp => ?_⟩⟩
  · rw [block_pushPhi hb]
  · rw [phisAt, block_pushPhi hb, List.map_append, hold]
    split
    · simp [phisAt, phi_pushPhi]
    · rfl
  · simp only [opsAt, block_pushPhi hb]
    simp [pushPhi, Func.op, modifyBlock, newPhi]
  · rw [block_pushPhi hb] at ho
    exact ht.op c o ho
  · rw [block_pushPhi hb] at hp
    have hlt : p < fn.phis.length + 1 := by
      rcases List.mem_append.mp hp with hp | hp
      · exact Nat.lt_succ_of_lt (ht.phi c p hp)
      · split at hp
        · exact (List.mem_singleton.mp hp) ▸ Nat.lt_succ_self _
        · cases hp
    simpa [pushPhi, modifyBlock, newPhi] using hlt

/-! ## Parents in order -/

/-- The parents of a block are the blocks that refer to it, in the order of the function. -/
def Canonical (fn : Func) : Prop := ∀ c < fn.blocks.length, (fn.block c).parents =
  ((List.range fn.blocks.length).filter fun p => fn.targets p (some c)).map some

/-- The last element that passes a filter stands at the end of what passes. -/
theorem filter_range_insert {n b : Nat} {p q : Nat → Bool} (hb : b < n)
    (hlater : ∀ x, b < x → p x = false) (hpb : p b = false)
    (hq : ∀ x, q x = true ↔ p x = true ∨ x = b) :
    (List.range n).filter q = (List.range n).filter p ++ [b] := by
  obtain ⟨m, rfl⟩ : ∃ m, n = b + 1 + m := ⟨n - (b + 1), by omega⟩
  have hqb : q b = true := (hq b).mpr (.inr rfl)
  have hbefore : (List.range b).filter q = (List.range b).filter p := by
    refine List.filter_congr fun x hx => ?_
    have hxb : x ≠ b := Nat.ne_of_lt (List.mem_range.mp hx)
    rw [Bool.eq_iff_iff, hq]
    simp [hxb]
  have hafter : ∀ x, b < x → p x = false ∧ q x = false := by
    intro x hx
    refine ⟨hlater x hx, ?_⟩
    rw [Bool.eq_false_iff, ne_eq, hq, hlater x hx]
    simp [Nat.ne_of_gt hx]
  have hrest : ∀ r : Nat → Bool, (∀ x, b < x → r x = false) →
      ((List.range m).map (b + 1 + ·)).filter r = [] := by
    intro r hr
    rw [List.filter_eq_nil_iff]
    intro x hx
    obtain ⟨i, -, rfl⟩ := List.mem_map.mp hx
    simp [hr (b + 1 + i) (by omega)]
  rw [List.range_add, List.range_succ]
  simp only [List.filter_append, hbefore, hrest p fun x hx => (hafter x hx).1,
    hrest q fun x hx => (hafter x hx).2]
  simp [hpb, hqb]

theorem targets_pushOp (ht : fn.Tabled) (hb : b < fn.blocks.length) (op : Op) (p : BlockRef) :
    (fn.pushOp b op).targets p (some c) = true ↔
      fn.targets p (some c) = true ∨ (p = b ∧ c ∈ op.blocks) := by
  simp only [targets_eq_true_iff, (grown_pushOp ht hb op).ops, List.mem_append]
  split
  · rename_i hp
    simp [hp, or_and_right, exists_or]
  · rename_i hp
    simp [hp]

theorem Canonical.pushOp (h : fn.Canonical) (ht : fn.Tabled) (hb : b < fn.blocks.length)
    (hlater : ∀ c, b < c → fn.opsAt c = []) (op : Op) : (fn.pushOp b op).Canonical := by
  have hgrown := grown_pushOp ht hb op
  intro c hc
  rw [hgrown.length] at hc ⊢
  have hsame : ∀ (hnew : ∀ p, p = b ∧ c ∈ op.blocks → fn.targets p (some c) = true),
      ((List.range fn.blocks.length).filter fun p => (fn.pushOp b op).targets p (some c)) =
        (List.range fn.blocks.length).filter fun p => fn.targets p (some c) := by
    intro hnew
    refine List.filter_congr fun p _ => ?_
    rw [Bool.eq_iff_iff, targets_pushOp ht hb]
    exact ⟨fun h => h.elim id (hnew p), .inl⟩
  rw [block_pushOp hb]
  by_cases hop : c ∈ op.blocks
  · simp only [hop, hc, and_self, if_true, Block.addParent]
    have hmem : some b ∈ (fn.block c).parents ↔ fn.targets b (some c) = true := by
      rw [h c hc]
      simp [hb]
    by_cases hold : fn.targets b (some c) = true
    · rw [if_pos (hmem.mpr hold), hsame fun p hp => hp.1 ▸ hold]
      exact h c hc
    · rw [if_neg (mt hmem.mp hold)]
      have hinsert := filter_range_insert (n := fn.blocks.length)
        (p := fun p => fn.targets p (some c)) (q := fun p => (fn.pushOp b op).targets p (some c))
        hb (fun x hx => ?_) (by simpa using hold) fun x => ?_
      · simp [hinsert, h c hc]
      · simp [targets, targetsOf_eq, hlater x hx]
      · simp [targets_pushOp ht hb, hop]
  · rw [hsame fun p hp => absurd hp.2 hop]
    simpa [hop] using h c hc

theorem Canonical.pushPhi (h : fn.Canonical) (ht : fn.Tabled) (hb : b < fn.blocks.length)
    (phi : Phi) : (fn.pushPhi b phi).Canonical := by
  have hgrown := grown_pushPhi ht hb phi
  have htargets : ∀ p t, (fn.pushPhi b phi).targets p t = fn.targets p t := by
    intro p t
    simp [targets, targetsOf_eq, hgrown.ops]
  intro c hc
  rw [hgrown.length] at hc ⊢
  rw [block_pushPhi hb]
  simpa only [htargets] using h c hc

/-! ## Filling a block -/

/-- A function whose block `b` is being filled, while the blocks after it are still empty. -/
structure Filling (b : BlockRef) (fn : Func) : Prop where
  lt : b < fn.blocks.length
  tabled : fn.Tabled
  canonical : fn.Canonical
  later : ∀ c, b < c → fn.opsAt c = []

theorem Filling.pushOp (h : Filling b fn) (op : Op) : Filling b (fn.pushOp b op) := by
  have hgrown := grown_pushOp h.tabled h.lt op
  refine ⟨hgrown.length ▸ h.lt, hgrown.tabled h.tabled,
    h.canonical.pushOp h.tabled h.lt h.later op, fun c hc => ?_⟩
  rw [hgrown.ops, h.later c hc, if_neg (Nat.ne_of_gt hc)]
  rfl

theorem Filling.pushPhi (h : Filling b fn) (phi : Phi) : Filling b (fn.pushPhi b phi) := by
  have hgrown := grown_pushPhi h.tabled h.lt phi
  refine ⟨hgrown.length ▸ h.lt, hgrown.tabled h.tabled, h.canonical.pushPhi h.tabled h.lt phi,
    fun c hc => ?_⟩
  rw [hgrown.ops, h.later c hc]
  simp

end Func

theorem BlockDoc.fill_grown {s : Scope} {d : BlockDoc} {b : BlockRef} {fn fn' : Func}
    (h : fn.Filling b) (hfill : d.fill s fn b = .ok fn') : ∃ ps os,
      d.phis.mapM (PhiDoc.build s) = .ok ps ∧ d.ops.mapM (OpDoc.build s) = .ok os ∧
        Func.Grown b ps os fn fn' ∧ fn'.Filling b := by
  obtain ⟨fn₁, hphis, hops⟩ := bind_eq_ok.mp hfill
  have hphi : ∀ g p g', g.Filling b → addPhi s b g p = .ok g' →
      ∃ phi, p.build s = .ok phi ∧ Func.Grown b [phi] [] g g' ∧ g'.Filling b := by
    intro g p g' hg hstep
    obtain ⟨phi, hphi, hstep⟩ := bind_eq_ok.mp hstep
    cases hstep
    exact ⟨phi, mapError_eq_ok.mp hphi, Func.grown_pushPhi hg.tabled hg.lt phi, hg.pushPhi phi⟩
  have hop : ∀ g o g', g.Filling b → addOp s b g o = .ok g' →
      ∃ op, o.build s = .ok op ∧ Func.Grown b [] [op] g g' ∧ g'.Filling b := by
    intro g o g' hg hstep
    obtain ⟨op, hop, hstep⟩ := bind_eq_ok.mp hstep
    cases hstep
    exact ⟨op, mapError_eq_ok.mp hop, Func.grown_pushOp hg.tabled hg.lt op, hg.pushOp op⟩
  obtain ⟨ps, hps, hgrown, h⟩ := foldlM_gathers (R := fun ps => Func.Grown b ps [])
    (Func.Grown.refl b) Func.Grown.trans hphi h hphis
  obtain ⟨os, hos, hgrown', h⟩ := foldlM_gathers (R := fun os => Func.Grown b [] os)
    (Func.Grown.refl b) Func.Grown.trans hop h hops
  exact ⟨ps, os, hps, hos, by simpa using hgrown.trans hgrown', h⟩

/-! ## The function of a document -/

/-- The function that a document describes, as far as the first `k` blocks are filled. -/
structure FuncDoc.Describes (f : FuncDoc) (k : Nat) (fn : Func) : Prop where
  name : fn.name = f.name
  entry : ∃ e, f.entryBlock = .ok e ∧ fn.entry = some e
  values : fn.values = f.scope.values
  length : fn.blocks.length = f.blocks.length
  id : ∀ b < f.blocks.length, (fn.block b).id = b + 1
  tabled : fn.Tabled
  canonical : fn.Canonical
  phis : ∀ b d, f.blocks[b]? = some d → b < k →
    d.phis.mapM (PhiDoc.build f.scope) = .ok (fn.phisAt b)
  ops : ∀ b d, f.blocks[b]? = some d → b < k → d.ops.mapM (OpDoc.build f.scope) = .ok (fn.opsAt b)
  empty : ∀ b, k ≤ b → fn.phisAt b = [] ∧ fn.opsAt b = []

namespace FuncDoc

variable {f : FuncDoc} {fn fn' : Func} {k : Nat} {d : BlockDoc}

theorem Describes.fill (h : f.Describes k fn) (hd : f.blocks[k]? = some d)
    (hfill : d.fill f.scope fn k = .ok fn') : f.Describes (k + 1) fn' := by
  have hk : k < fn.blocks.length := by
    rw [h.length]
    exact (List.getElem?_eq_some_iff.mp hd).1
  have hfilling : fn.Filling k :=
    ⟨hk, h.tabled, h.canonical, fun c hc => (h.empty c (Nat.le_of_lt hc)).2⟩
  obtain ⟨ps, os, hps, hos, hgrown, hfilled⟩ := BlockDoc.fill_grown hfilling hfill
  have hphis : ∀ b, fn'.phisAt b = if b = k then ps else fn.phisAt b := by
    intro b
    rw [hgrown.phis]
    split
    · rename_i hb
      simp [(h.empty b (Nat.le_of_eq hb.symm)).1]
    · simp
  have hops : ∀ b, fn'.opsAt b = if b = k then os else fn.opsAt b := by
    intro b
    rw [hgrown.ops]
    split
    · rename_i hb
      simp [(h.empty b (Nat.le_of_eq hb.symm)).2]
    · simp
  refine ⟨hgrown.name.trans h.name, ?_, hgrown.values.trans h.values,
    hgrown.length.trans h.length, fun b hb => (hgrown.id b).trans (h.id b hb), hfilled.tabled,
    hfilled.canonical, fun b d' hd' hb => ?_, fun b d' hd' hb => ?_, fun b hb => ?_⟩
  · rw [hgrown.entry]
    exact h.entry
  · rw [hphis]
    split
    · rename_i hbk
      cases (hbk ▸ hd').symm.trans hd
      exact hps
    · rename_i hbk
      exact h.phis b d' hd' (Nat.lt_of_le_of_ne (Nat.lt_succ_iff.mp hb) hbk)
  · rw [hops]
    split
    · rename_i hbk
      cases (hbk ▸ hd').symm.trans hd
      exact hos
    · rename_i hbk
      exact h.ops b d' hd' (Nat.lt_of_le_of_ne (Nat.lt_succ_iff.mp hb) hbk)
  · have hbk : b ≠ k := Nat.ne_of_gt hb
    rw [hphis, hops, if_neg hbk, if_neg hbk]
    exact h.empty b (Nat.le_of_lt hb)

theorem start_describes {e : BlockRef} (he : f.entryBlock = .ok e) : f.Describes 0 (f.start e) := by
  have hblock : ∀ b, (f.start e).block b =
      if b < f.blocks.length then { id := b + 1 } else {} := by
    intro b
    rw [start_eq]
    by_cases hb : b < f.blocks.length <;> simp [Func.block, hb]
  have hnone : ∀ b, ((f.start e).block b).phis = [] ∧ ((f.start e).block b).ops = [] ∧
      ((f.start e).block b).parents = [] := by
    intro b
    rw [hblock]
    split <;> exact ⟨rfl, rfl, rfl⟩
  refine ⟨by rw [start_eq], ⟨e, he, by rw [start_eq]⟩, by rw [start_eq], by simp [start_eq],
    fun b hb => ?_, ⟨fun b => ?_, fun b => ?_⟩, fun b _ => ?_, by simp, by simp, fun b _ => ?_⟩
  · rw [hblock, if_pos hb]
  · simp [hnone]
  · simp [hnone]
  · simp [hnone, Func.targets, Func.targetsOf]
  · simp [Func.phisAt, Func.opsAt, hnone]

theorem build_describes (h : f.build = .ok fn) : f.Describes f.blocks.length fn := by
  obtain ⟨-, -, e, he, h⟩ := build_eq_ok_iff.mp h
  refine foldlM_zipIdx_keeps (I := f.Describes) (fun k d hd g g' hg hfill => ?_)
    (start_describes he) h
  exact hg.fill hd hfill

end FuncDoc

end FlowGraph
