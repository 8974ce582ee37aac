import Mathlib
import FlowGraph.Proofs.Slots

/-! The edges of a function, the chain of leading jumps, and what of a function no redirection of
edges can touch. -/

namespace FlowGraph

namespace Func

variable {fn fn' fn'' : Func} {b c p : BlockRef} {o : OpRef} {i j : Nat}

theorem block_modifyBlock (fn : Func) (b c : BlockRef) (f : Block → Block) :
    (fn.modifyBlock b f).block c =
      if b = c ∧ c < fn.blocks.length then f (fn.block c) else fn.block c := by
  simp only [block, modifyBlock, List.getD_eq_getElem?_getD, List.getElem?_modify]
  by_cases hb : b = c
  · subst hb
    by_cases hlt : b < fn.blocks.length <;> simp [hlt]
  · simp [hb]

theorem block_modifyBlock_ne (fn : Func) (h : b ≠ c) (f : Block → Block) :
    (fn.modifyBlock b f).block c = fn.block c := by
  simp [block_modifyBlock, h]

theorem block_modifyBlock_self (fn : Func) (h : b < fn.blocks.length) (f : Block → Block) :
    (fn.modifyBlock b f).block b = f (fn.block b) := by
  simp [block_modifyBlock, h]

theorem block_modifyBlock_of_lt (fn : Func) (h : b < fn.blocks.length) (f : Block → Block)
    (c : BlockRef) :
    (fn.modifyBlock b f).block c = if c = b then f (fn.block b) else fn.block c := by
  by_cases hc : c = b
  · subst hc
    rw [if_pos rfl, block_modifyBlock_self fn h]
  · rw [if_neg hc, block_modifyBlock_ne fn (Ne.symm hc)]

theorem op_setOp (fn : Func) (o o' : OpRef) (op : Op) :
    (fn.setOp o op).op o' = if o = o' ∧ o' < fn.ops.length then op else fn.op o' := by
  simp only [Func.op, setOp, List.getD_eq_getElem?_getD, List.getElem?_set]
  by_cases ho : o = o'
  · subst ho
    by_cases hlt : o < fn.ops.length <;> simp [hlt]
  · simp [ho]

theorem op_store (fn : Func) (o : OpRef) (i : Nat) (tt : List Target) (o' : OpRef) :
    (fn.store o i tt).1.op o' = fn.op o' ∨
      (o' = o ∧ (fn.store o i tt).1.op o' = ((fn.op o).store i tt).1) := by
  simp only [store, op_setOp]
  split
  · rename_i h
    exact .inr ⟨h.1.symm, rfl⟩
  · exact .inl rfl

/-- The reference at place `j` of attribute `i` of an operation. -/
def slot? (fn : Func) (o : OpRef) (i j : Nat) : Option Target := (fn.op o).slot? i j

/-- A block refers to another. -/
def Refers (fn : Func) (p b : BlockRef) : Prop :=
  ∃ o ∈ (fn.block p).ops, ∃ i j k, fn.slot? o i j = some ⟨k, some b⟩

theorem targets_iff : fn.targets p (some b) = true ↔ fn.Refers p b := by
  simp only [targets, targetsOf, List.any_flatMap, List.any_eq_true, decide_eq_true_eq, Refers,
    Op.mem_targets_iff, slot?]
  constructor
  · rintro ⟨o, ho, ⟨k, t⟩, ⟨i, j, hs⟩, rfl⟩
    exact ⟨o, ho, i, j, k, hs⟩
  · rintro ⟨o, ho, i, j, k, hs⟩
    exact ⟨o, ho, _, ⟨i, j, hs⟩, rfl⟩

theorem mem_firsts {l : List BlockRef} : b ∈ firsts l ↔ b ∈ l := by
  induction l with
  | nil => simp [firsts]
  | cons x l ih =>
    by_cases h : b = x <;> simp [firsts, ih, h]

theorem mem_successors_iff : b ∈ fn.successors p ↔ fn.Refers p b := by
  rw [successors, mem_firsts, ← targets_iff, targets, List.any_eq_true]
  simp [List.mem_filterMap]

theorem isLive_iff : fn.isLive b = true ↔ b < fn.blocks.length ∧ (fn.block b).dead = false := by
  simp only [isLive, block, List.getD_eq_getElem?_getD]
  by_cases h : b < fn.blocks.length <;> simp [h]

/-- Where the leading jump of a block goes. -/
def next (fn : Func) (b : BlockRef) : Option BlockRef :=
  (fn.leadingJump b).bind fun o => (fn.slot? o 0 0).bind Target.block

theorem leadingJump_eq_some (h : fn.leadingJump b = some o) :
    o ∈ (fn.block b).ops ∧ (fn.op o).isJump = true := by
  unfold leadingJump at h
  cases hops : (fn.block b).ops with
  | nil => simp [hops] at h
  | cons o' rest =>
    by_cases hj : (fn.op o').isJump = true
    · simp only [hops, hj, if_true, Option.some.injEq] at h
      subst h
      exact ⟨by simp, hj⟩
    · simp [hops, hj] at h

theorem lt_of_leadingJump (h : fn.leadingJump b = some o) : b < fn.blocks.length := by
  apply Classical.byContradiction
  intro hb
  have hops := (leadingJump_eq_some h).1
  simp [block, hb] at hops

theorem slot?_jump {t : Option BlockRef} (h : fn.op o = .jump t) :
    fn.slot? o i j = if i = 0 ∧ j = 0 then some ⟨0, t⟩ else none := by
  obtain _ | i := i <;> obtain _ | j := j <;>
    simp [slot?, h, Op.slot?, Op.attributes, Slot.targets]

theorem next_of_leadingJump {t : Option BlockRef} (h : fn.leadingJump b = some o)
    (ho : fn.op o = .jump t) : fn.next b = t := by
  simp [next, h, slot?_jump ho]

theorem isSome_leadingJump_of_next (h : fn.next b = some c) : (fn.leadingJump b).isSome := by
  cases hj : fn.leadingJump b with
  | none => simp [next, hj] at h
  | some o => rfl

theorem next_eq_some (h : fn.next b = some c) :
    ∃ o k, fn.leadingJump b = some o ∧ fn.slot? o 0 0 = some ⟨k, some c⟩ := by
  obtain ⟨o, ho, h⟩ := Option.bind_eq_some_iff.mp h
  obtain ⟨⟨k, _⟩, hs, rfl⟩ := Option.bind_eq_some_iff.mp h
  exact ⟨o, k, ho, hs⟩

theorem lt_of_next (h : fn.next b = some c) : b < fn.blocks.length := by
  obtain ⟨o, -, ho, -⟩ := next_eq_some h
  exact lt_of_leadingJump ho

theorem refers_of_next (h : fn.next b = some c) : fn.Refers b c := by
  obtain ⟨o, k, ho, hs⟩ := next_eq_some h
  exact ⟨o, (leadingJump_eq_some ho).1, 0, 0, k, hs⟩

/-- A jump has one reference, the block where it goes. -/
theorem targets_of_next {a : Attribute} (h : fn.leadingJump b = some o) (hn : fn.next b = some c)
    (ha : (fn.op o).attributes[i]? = some a) : i = 0 ∧ a.slot.targets = [⟨0, some c⟩] := by
  have hjump := (leadingJump_eq_some h).2
  cases hop : fn.op o with
  | jump t =>
    rw [next_of_leadingJump h hop] at hn
    subst hn
    obtain _ | i := i
    · rw [hop] at ha
      cases ha
      exact ⟨rfl, rfl⟩
    · simp [hop, Op.attributes] at ha
  | _ => simp [hop, Op.isJump] at hjump

/-- A trampoline refers to nothing but its destination if no reference follows the jump. -/
theorem next_of_refers (hj : (fn.leadingJump b).isSome)
    (htail : ∀ o ∈ (fn.block b).ops.tail, (fn.op o).blocks = []) (hr : fn.Refers b c) :
    fn.next b = some c := by
  obtain ⟨jmp, hjmp⟩ := Option.isSome_iff_exists.mp hj
  obtain ⟨o, ho, i, j, k, hslot⟩ := hr
  have hc : c ∈ (fn.op o).blocks := Op.mem_blocks_iff.mpr ⟨i, j, k, hslot⟩
  have hfirst : o = jmp := by
    unfold leadingJump at hjmp
    cases hops : (fn.block b).ops with
    | nil => simp [hops] at ho
    | cons x rest =>
      simp only [hops, Option.ite_none_right_eq_some, Option.some.injEq] at hjmp
      rcases List.mem_cons.mp (hops ▸ ho) with hx | hx
      · rw [hx, hjmp.2]
      · simp [htail o (by simp [hops, hx])] at hc
  subst hfirst
  have hjump := (leadingJump_eq_some hjmp).2
  cases hop : fn.op o with
  | jump t =>
    have ht : t = some c := by
      simpa [hop, Op.blocks, Op.targets, Op.attributes, Slot.targets] using hc
    rw [next_of_leadingJump hjmp hop, ht]
  | _ => simp [hop, Op.isJump] at hjump

/-- What two functions share that differ in references, parents, marks and phi nodes alone. -/
structure Alike (fn fn' : Func) : Prop where
  name : fn'.name = fn.name
  entry : fn'.entry = fn.entry
  blocks : fn'.blocks.length = fn.blocks.length
  ops : fn'.ops.length = fn.ops.length
  id : ∀ b, (fn'.block b).id = (fn.block b).id
  blockOps : ∀ b, (fn'.block b).ops = (fn.block b).ops
  blank : ∀ o, (fn'.op o).blank = (fn.op o).blank

namespace Alike

theorem refl (fn : Func) : Alike fn fn := ⟨rfl, rfl, rfl, rfl, fun _ => rfl, fun _ => rfl, fun _ => rfl⟩

theorem trans (h : Alike fn fn') (h' : Alike fn' fn'') : Alike fn fn'' where
  name := h'.name.trans h.name
  entry := h'.entry.trans h.entry
  blocks := h'.blocks.trans h.blocks
  ops := h'.ops.trans h.ops
  id b := (h'.id b).trans (h.id b)
  blockOps b := (h'.blockOps b).trans (h.blockOps b)
  blank o := (h'.blank o).trans (h.blank o)

theorem isJump (h : Alike fn fn') (o : OpRef) : (fn'.op o).isJump = (fn.op o).isJump :=
  Op.isJump_of_blank (h.blank o)

theorem leadingJump (h : Alike fn fn') (b : BlockRef) : fn'.leadingJump b = fn.leadingJump b := by
  simp only [Func.leadingJump, h.blockOps b, h.isJump]

theorem next (h : Alike fn fn') (hop : ∀ o, fn'.op o = fn.op o) (b : BlockRef) :
    fn'.next b = fn.next b := by
  simp only [Func.next, h.leadingJump, Func.slot?, hop]

theorem modifyBlock {f : Block → Block} (hid : ∀ bb, (f bb).id = bb.id)
    (hops : ∀ bb, (f bb).ops = bb.ops) (fn : Func) (b : BlockRef) :
    Alike fn (fn.modifyBlock b f) := by
  refine ⟨rfl, rfl, by simp [Func.modifyBlock], rfl, ?_, ?_, fun _ => rfl⟩ <;> intro c <;>
    rw [block_modifyBlock] <;> split <;> simp [hid, hops]

end Alike

/-- Writing back into attribute `i` of an operation what has the keys of the attribute. -/
theorem store_of_keys {a : Attribute} {tt : List Target} (ha : (fn.op o).attributes[i]? = some a)
    (hk : tt.map Target.key = a.slot.targets.map Target.key) :
    ∃ fn', fn.store o i tt = (fn', none) ∧ fn'.blocks = fn.blocks ∧ fn'.phis = fn.phis ∧
      Alike fn fn' ∧ (∀ o', o' ≠ o → fn'.op o' = fn.op o') ∧
      ∀ i' j, fn'.slot? o i' j = if i' = i then tt[j]? else fn.slot? o i' j := by
  obtain ⟨op', hstore, hblank, hslot⟩ := Op.store_of_keys ha hk
  have ho : o < fn.ops.length := by
    apply Classical.byContradiction
    intro h
    have hout : fn.op o = default := by simp [Func.op, h]
    rw [hout] at ha
    simp [default, Op.attributes] at ha
  have hself : (fn.setOp o op').op o = op' := by simp [op_setOp, ho]
  have hne : ∀ o', o' ≠ o → (fn.setOp o op').op o' = fn.op o' := by
    intro o' h
    simp [op_setOp, Ne.symm h]
  refine ⟨fn.setOp o op', by simp [store, hstore], rfl, rfl, ?_, hne, ?_⟩
  · refine ⟨rfl, rfl, rfl, by simp [setOp], fun _ => rfl, fun _ => rfl, ?_⟩
    intro o'
    by_cases h : o' = o
    · rw [h, hself, hblank]
    · rw [hne o' h]
  · intro i' j
    rw [slot?, hself, hslot]
    rfl

theorem setOp_op (fn : Func) (o : OpRef) : fn.setOp o (fn.op o) = fn := by
  have hset : fn.ops.set o (fn.op o) = fn.ops := by
    by_cases ho : o < fn.ops.length
    · simp [Func.op, ho]
    · exact List.set_eq_of_length_le (Nat.not_lt.mp ho)
  rw [setOp, hset]

theorem store_targets {a : Attribute} (ha : (fn.op o).attributes[i]? = some a) :
    fn.store o i a.slot.targets = (fn, none) := by
  simp [store, Op.store_targets ha, setOp_op]

/-! ## Parents -/

theorem mem_addParent {p q : Option BlockRef} (hb : b < fn.blocks.length) :
    q ∈ ((fn.addParent b p).block c).parents ↔
      q ∈ (fn.block c).parents ∨ (c = b ∧ q = p) := by
  by_cases hc : c = b
  · subst hc
    rw [addParent, block_modifyBlock_self _ hb, Block.addParent]
    split
    · rename_i hp
      exact ⟨.inl, fun h => h.elim id fun h => h.2 ▸ hp⟩
    · simp
  · rw [addParent, block_modifyBlock_ne _ (Ne.symm hc)]
    simp [hc]

theorem nodup_addParent {p : Option BlockRef} (h : (fn.block c).parents.Nodup) :
    ((fn.addParent b p).block c).parents.Nodup := by
  rw [addParent, block_modifyBlock]
  split
  · rw [Block.addParent]
    split
    · exact h
    · rename_i hp
      rw [List.nodup_append]
      refine ⟨h, by simp, ?_⟩
      rintro x hx y hy rfl
      simp only [List.mem_singleton] at hy
      exact hp (hy ▸ hx)
  · exact h

theorem mem_removeParent {p q : Option BlockRef} (hb : b < fn.blocks.length)
    (h : (fn.block b).parents.Nodup) :
    q ∈ ((fn.removeParent b p).block c).parents ↔
      q ∈ (fn.block c).parents ∧ ¬(c = b ∧ q = p) := by
  by_cases hc : c = b
  · subst hc
    rw [removeParent, block_modifyBlock_self _ hb, Block.removeParent, h.mem_erase_iff]
    simp [and_comm]
  · rw [removeParent, block_modifyBlock_ne _ (Ne.symm hc)]
    simp [hc]

theorem nodup_removeParent {p : Option BlockRef} (h : (fn.block c).parents.Nodup) :
    ((fn.removeParent b p).block c).parents.Nodup := by
  rw [removeParent, block_modifyBlock]
  split
  · exact h.erase p
  · exact h

theorem alike_addParent (fn : Func) (b : BlockRef) (p : Option BlockRef) :
    Alike fn (fn.addParent b p) :=
  .modifyBlock (fun bb => by unfold Block.addParent; split <;> rfl)
    (fun bb => by unfold Block.addParent; split <;> rfl) fn b

theorem alike_removeParent (fn : Func) (b : BlockRef) (p : Option BlockRef) :
    Alike fn (fn.removeParent b p) :=
  .modifyBlock (f := (·.removeParent p)) (fun _ => rfl) (fun _ => rfl) fn b

theorem dead_addParent (p : Option BlockRef) :
    ((fn.addParent b p).block c).dead = (fn.block c).dead := by
  rw [addParent, block_modifyBlock, Block.addParent]
  split
  · split <;> rfl
  · rfl

theorem dead_removeParent (p : Option BlockRef) :
    ((fn.removeParent b p).block c).dead = (fn.block c).dead := by
  rw [removeParent, block_modifyBlock]
  split <;> rfl

theorem phis_addParent (p : Option BlockRef) :
    ((fn.addParent b p).block c).phis = (fn.block c).phis := by
  rw [addParent, block_modifyBlock, Block.addParent]
  split
  · split <;> rfl
  · rfl

theorem phis_removeParent (p : Option BlockRef) :
    ((fn.removeParent b p).block c).phis = (fn.block c).phis := by
  rw [removeParent, block_modifyBlock]
  split <;> rfl

end Func

end FlowGraph
