import Mathlib
import FlowGraph.Proofs.Lawful
import FlowGraph.Proofs.Phis
import FlowGraph.Proofs.Session
import FlowGraph.Proofs.Threading.Bypass

/-! Parents and operands are sets. Lists of parents grow by `Block.addParent` only and lists of
operands by `Phi.addOperand` only, and both look before they add. So no call of the library lists
anything twice, whatever it is called with and wherever it breaks off, and a check never finds a
parent that is listed twice. -/

namespace FlowGraph

/-- The last entry of a table is found at its end and nowhere else. -/
theorem getD_concat {α : Type} (l : List α) (x d : α) (i : Nat) :
    (l ++ [x]).getD i d = l.getD i d ∨ (l ++ [x]).getD i d = x := by
  simp only [List.getD_eq_getElem?_getD]
  rcases Nat.lt_trichotomy i l.length with hlt | rfl | hgt
  · rw [List.getElem?_append_left hlt]
    exact .inl rfl
  · rw [List.getElem?_concat_length]
    exact .inr rfl
  · have hlen : (l ++ [x]).length = l.length + 1 := List.length_append
    rw [List.getElem?_eq_none (show (l ++ [x]).length ≤ i by omega),
      List.getElem?_eq_none (show l.length ≤ i by omega)]
    exact .inl rfl

namespace Func

variable {fn : Func} {b c : BlockRef} {p : PhiRef}

/-- Nothing is listed twice. -/
structure Distinct (fn : Func) : Prop where
  parents : ∀ b, (fn.block b).parents.Nodup
  operands : ∀ p, (fn.phi p).operands.Nodup

namespace Distinct

/-- Only blocks and phi nodes count. -/
theorem congr {fn' : Func} (h : fn.Distinct) (hblocks : fn'.blocks = fn.blocks)
    (hphis : fn'.phis = fn.phis) : fn'.Distinct where
  parents b := by
    rw [block, hblocks]
    exact h.parents b
  operands p := by
    rw [phi, hphis]
    exact h.operands p

/-- A change of a block that leaves its parents alone. -/
theorem modifyBlock {f : Block → Block} (h : fn.Distinct) (b : BlockRef)
    (hf : ∀ bb : Block, (f bb).parents = bb.parents) : (fn.modifyBlock b f).Distinct where
  parents c := by
    rw [block_modifyBlock]
    split
    · rw [hf]
      exact h.parents c
    · exact h.parents c
  operands := h.operands

theorem modifyPhi {f : Phi → Phi} (h : fn.Distinct) (p : PhiRef)
    (hf : ∀ q : Phi, q.operands.Nodup → (f q).operands.Nodup) : (fn.modifyPhi p f).Distinct where
  parents := h.parents
  operands q := by
    rw [phi_modifyPhi]
    split
    · exact hf _ (h.operands q)
    · exact h.operands q

theorem addParent (h : fn.Distinct) (b : BlockRef) (p : Option BlockRef) :
    (fn.addParent b p).Distinct where
  parents c := nodup_addParent (h.parents c)
  operands := h.operands

theorem removeParent (h : fn.Distinct) (b : BlockRef) (p : Option BlockRef) :
    (fn.removeParent b p).Distinct where
  parents c := nodup_removeParent (h.parents c)
  operands := h.operands

theorem newBlock (h : fn.Distinct) : fn.newBlock.Distinct where
  parents b := by
    rcases getD_concat fn.blocks { id := fn.blocks.length + 1 } {} b with hb | hb
    · exact (congrArg Block.parents hb) ▸ h.parents b
    · exact (congrArg Block.parents hb) ▸ List.nodup_nil
  operands := h.operands

theorem newPhi {q : Phi} (h : fn.Distinct) (hq : q.operands.Nodup) :
    (fn.newPhi q).1.Distinct where
  parents := h.parents
  operands p := by
    rcases getD_concat fn.phis q default p with hp | hp
    · exact (congrArg Phi.operands hp) ▸ h.operands p
    · exact (congrArg Phi.operands hp) ▸ hq

theorem appendOp (h : fn.Distinct) (b : BlockRef) (o : OpRef) : (fn.appendOp b o).Distinct := by
  unfold Func.appendOp
  refine List.foldlRecOn _ _ ?_ fun g hg t _ => hg.addParent t (some b)
  exact h.modifyBlock b fun _ => rfl

theorem append (h : fn.Distinct) (b : BlockRef) (os : List OpRef) : (fn.append b os).Distinct :=
  List.foldlRecOn _ _ h fun _ hg o _ => hg.appendOp b o

theorem mergeInto (h : fn.Distinct) (p c : PhiRef) : (Threading.mergeInto fn p c).Distinct := by
  unfold Threading.mergeInto
  refine (h.modifyPhi c fun q hq => ?_).modifyPhi c fun q hq => ?_
  · exact hq.erase (fn.phi p).result
  · exact Phi.nodup_addOperands hq _

theorem mergePhis {fn' : Func} (h : fn.Distinct) (hm : Threading.mergePhis fn b c = some fn') :
    fn'.Distinct := by
  unfold Threading.mergePhis at hm
  obtain ⟨consumers, -, hm⟩ := Option.bind_eq_some_iff.mp hm
  cases hm
  refine modifyBlock ?_ b fun _ => rfl
  exact List.foldlRecOn _ _ h fun g hg pc _ => hg.mergeInto pc.1 pc.2

end Distinct

/-- A check never finds a parent that is listed twice. -/
theorem Distinct.verify_ne (h : fn.Distinct) {e : VerifyError} (he : fn.verify = .ok (some e))
    (id : Int) : e.violation ≠ .duplicateParent id := by
  intro hviolation
  cases hentry : fn.entry with
  | none =>
    rw [verify, hentry] at he
    cases he
    cases hviolation
  | some entry =>
    have hverdict := verify_verdict hentry
    rw [he] at hverdict
    cases hverdict with
    | broken b v reached live breaks first =>
      cases hviolation
      obtain ⟨p, -, hdup⟩ := breaks
      exact List.nodup_iff_forall_not_duplicate.mp (h.parents b) _ hdup

end Func

/-! ## The pass -/

namespace Threading

variable {s : Threading} {follow : OpRef → BlockRef → M Unit}

/-- The action lists nothing twice, also if it breaks off. -/
abbrev Separates {α : Type} (x : M α) (s : Threading) : Prop :=
  Outcome x s (fun _ t => t.fn.Distinct) fun _ t => t.fn.Distinct

theorem eliminate_separates (b : BlockRef) (h : s.fn.Distinct) : Separates (eliminate b) s := by
  refine .bind (.get ?_)
  split
  · exact .pure h
  · refine .bind (.modify (.bind (.modify (.modify ?_))))
    exact h.modifyBlock b fun _ => rfl

theorem bypass_separates (bb : Option BlockRef) (b : BlockRef) (jmp : OpRef)
    (h : s.fn.Distinct) : Separates (bypass bb b jmp) s := by
  refine .bind (.get (.bind (.lift (fun dest _ => ?_) fun _ _ => h)))
  split
  · exact .bind (.modify (.pure h))
  · cases hm : mergePhis s.fn b dest with
    | none => exact .bind (.modify (.pure h))
    | some fn =>
      have hfn := h.mergePhis hm
      refine .bind (.modify (.bind (.modify ?_)))
      refine (eliminate_separates b hfn).andThen fun _ t ht => .bind (.modify (.pure ?_))
      exact (ht.removeParent dest (some b)).addParent dest bb

theorem shortCircuit_separates (bb : Option BlockRef) (b : BlockRef) (jmp : OpRef)
    (h : s.fn.Distinct) : Separates (shortCircuit bb b jmp) s := by
  refine .bind (.get (.bind (.lift (fun dest _ => ?_) fun _ _ => h)))
  exact .bind (.pure (.bind (.modify (.bind (.modify (.pure (h.addParent dest bb)))))))

theorem writeBack_separates (o : OpRef) (i : Nat) (tt : List Target) (h : s.fn.Distinct) :
    Separates (writeBack o i tt) s := by
  refine .bind (.get ?_)
  have hstore : (s.fn.store o i tt).1.Distinct := h.congr rfl rfl
  rcases hresult : s.fn.store o i tt with ⟨fn, fault⟩
  rw [hresult] at hstore
  refine .bind (.modify ?_)
  cases fault with
  | none => exact .pure hstore
  | some e => exact .throw hstore

/-- A follower that separates whenever it is called. -/
def FollowSeparates (follow : OpRef → BlockRef → M Unit) : Prop :=
  ∀ jmp b s, s.fn.Distinct → Separates (follow jmp b) s

theorem thread_separates (hfollow : FollowSeparates follow) (bb : Option BlockRef) :
    ∀ (t : Option BlockRef) (s : Threading), s.fn.Distinct → Separates (thread follow bb t) s
  | none, _, h => .pure h
  | some b, s, h => by
    have hblock : Separates (threadBlock follow bb b) s := by
      refine .bind (.get ?_)
      cases s.fn.leadingJump b with
      | none => exact .pure h
      | some jmp =>
        dsimp only
        split
        · exact shortCircuit_separates bb b jmp h
        · exact (hfollow jmp b s h).andThen fun _ t ht => bypass_separates bb b jmp ht
    exact hblock.andThen fun _ _ ht => .bind (.pure (.pure ht))

theorem threadOp_separates (hfollow : FollowSeparates follow) (o : OpRef) (bb : Option BlockRef)
    (h : s.fn.Distinct) : Separates (threadOp follow o bb) s := by
  refine .bind (.get (.forM (I := fun t => t.fn.Distinct) (fun i t ht => ?_) _ s h))
  refine .bind (.get ?_)
  cases (t.fn.op o).attributes[i]? with
  | none => exact .pure ht
  | some a =>
    refine (Outcome.mapM (I := fun t => t.fn.Distinct) (fun x u hu => ?_) _ t ht).andThen
      fun tt u hu => writeBack_separates o i tt hu
    exact (thread_separates hfollow bb x.block u hu).andThen fun _ _ hv => .pure hv

theorem simplifyIdle_separates (idle : List OpRef) (o : OpRef) (bb : Option BlockRef) :
    ∀ s : Threading, s.fn.Distinct → Separates (simplifyIdle idle o bb) s := by
  induction idle, o, bb using simplifyIdle.induct with
  | case1 idle o bb ho ih =>
    intro s h
    unfold simplifyIdle
    rw [dif_pos ho]
    exact threadOp_separates ih o bb h
  | case2 idle o bb ho =>
    intro s h
    unfold simplifyIdle
    rw [dif_neg ho]
    exact .pure h

theorem simplify_separates (o : OpRef) (bb : Option BlockRef) (h : s.fn.Distinct) :
    Separates (simplify o bb) s :=
  .bind (.get (simplifyIdle_separates _ o bb s h))

theorem visitor_keeps : visitor.Keeps (fun s => s.fn.Distinct) fun _ s => s.fn.Distinct where
  enterBlock _ _ h := .pure h
  enterOp o b _ h := simplify_separates o (some b) h
  leaveBlock _ _ h := .pure h

theorem run_separates (h : s.fn.Distinct) : Separates run s := by
  have hvisitors : ∀ v ∈ [visitor], v.Keeps (fun s => s.fn.Distinct) fun _ s => s.fn.Distinct := by
    intro v hv
    rw [List.mem_singleton.mp hv]
    exact visitor_keeps
  exact .bind (.get (Visitor.walk_outcome hvisitors _ (fun _ _ ht => ht) s h))

end Threading

theorem threadJumps_separates {w : Work} (h : w.fn.Distinct) :
    Outcome threadJumps w (fun _ t => t.fn.Distinct) fun _ t => t.fn.Distinct :=
  threadJumps_outcome (Threading.run_separates h)

/-! ## Sessions -/

/-- The error is no complaint about a parent that is listed twice. -/
def RunError.Blameless (e : RunError) : Prop :=
  ∀ m p v id, e = .verify m p v → v.violation ≠ .duplicateParent id

theorem RunError.blameless_fault (f : Fault) : (RunError.fault f).Blameless := nofun

theorem admits_distinct : Run.Admits (fun w => w.fn.Distinct) RunError.Blameless where
  lost _ _ := nofun
  dump _ f _ _ := RunError.blameless_fault f
  check _ f _ _ := RunError.blameless_fault f
  complaint w m p e hw he := by
    intro m' p' v id heq
    cases heq
    exact hw.verify_ne he id

namespace Call

/-- The session lists nothing twice, and an error is no complaint that it does. -/
abbrev Separates {α : Type} (x : Session.M α) (s : Session) (Q : α → Session → Prop) : Prop :=
  Outcome x s Q fun e t => t.fn.Distinct ∧ e.Blameless

theorem need_separates {α : Type} {s : Session} {f : BlockRef → Session.M α}
    {Q : α → Session → Prop} (h : s.fn.Distinct) (hf : ∀ b, Separates (f b) s Q) :
    ∀ b, Separates (Session.need b >>= f) s Q
  | none => .bind (.throw ⟨h, RunError.blameless_fault _⟩)
  | some b => .bind (.pure (hf b))

theorem modifyBlock_separates {s : Session} {f : Block → Block} (h : s.fn.Distinct)
    (b : Option BlockRef) (hf : ∀ bb : Block, (f bb).parents = bb.parents) :
    Separates (Session.need b >>= fun b => Session.modifyFn fun fn => fn.modifyBlock b f) s
      fun _ t => t.fn.Distinct :=
  need_separates h (fun c => .modify (h.modifyBlock c hf)) b

theorem run_separates (c : Call) {s : Session} (h : s.fn.Distinct) :
    Separates c.run s fun _ t => t.fn.Distinct := by
  cases c with
  | newBlock => exact .modify h.newBlock
  | newValue name => exact .modify (h.congr rfl rfl)
  | newOp op => exact .modify (h.congr rfl rfl)
  | append b os =>
    show Separates (if os.isEmpty then pure () else Session.need b >>= fun b =>
      Session.modifyFn fun fn => fn.append b os) s _
    split
    · exact .pure h
    · exact need_separates h (fun b => .modify (h.append b os)) b
  | setOps b os => exact modifyBlock_separates h b fun _ => rfl
  | store o i tt =>
    refine .bind (.get ?_)
    -- what was stored before the fault stays, and no block or phi node is part of it
    have hstore : (s.fn.store o i tt).1.Distinct := h.congr rfl rfl
    rcases hresult : s.fn.store o i tt with ⟨fn, fault⟩
    rw [hresult] at hstore
    refine .bind (.modify ?_)
    cases fault with
    | none => exact .pure hstore
    | some f => exact .throw ⟨hstore, RunError.blameless_fault f⟩
  | addParent b p => exact need_separates h (fun b => .modify (h.addParent b p)) b
  | removeParent b p => exact need_separates h (fun b => .modify (h.removeParent b p)) b
  | newPhi result operands =>
    exact .modify (h.newPhi (Phi.nodup_addOperands List.nodup_nil operands))
  | addPhi b ps => exact modifyBlock_separates h b fun _ => rfl
  | clearPhi b => exact modifyBlock_separates h b fun _ => rfl
  | addOperand p v => exact .modify (h.modifyPhi p fun _ hq => Phi.nodup_addOperand hq v)
  | removeOperand p v => exact .modify (h.modifyPhi p fun _ hq => hq.erase v)
  | simplify simplifier o b =>
    rw [run]
    refine Session.within_outcome ?_
    exact (Threading.simplify_separates o b h).mono (fun _ _ ht => ht)
      fun f _ ht => ⟨ht, RunError.blameless_fault f⟩
  | threadJumps =>
    rw [run]
    refine Session.within_outcome ?_
    exact (threadJumps_separates h).mono (fun _ _ ht => ht)
      fun f _ ht => ⟨ht, RunError.blameless_fault f⟩
  | optimize o out =>
    rw [run]
    refine Session.within_outcome (Run.optimize_stays admits_distinct o h ?_)
    exact (threadJumps_separates h).mono (fun _ _ ht => ht)
      fun f _ ht => ⟨ht, RunError.blameless_fault f⟩

end Call

/-- Whatever is called on a new function, and whichever calls break off: no block lists a parent
twice, no phi node lists an operand twice, and no check complains that a parent is listed twice,
be it called by itself or during an optimisation. -/
theorem parents_and_operands_are_sets (name : Text) (calls : List Call) :
    let s := (Session.start name).after calls
    (∀ b, (s.fn.block b).parents.Nodup) ∧ (∀ p, (s.fn.phi p).operands.Nodup) ∧
      (∀ e id, s.fn.verify = .ok (some e) → e.violation ≠ .duplicateParent id) ∧
      ∀ (c : Call) m p e id, (c.run.run s).1 = .error (.verify m p e) →
        e.violation ≠ .duplicateParent id := by
  have hstart : (Session.start name).fn.Distinct :=
    ⟨fun _ => List.nodup_nil, fun _ => List.nodup_nil⟩
  have hafter : ((Session.start name).after calls).fn.Distinct :=
    Session.after_keeps (I := fun s => s.fn.Distinct) (fun c _ s hs =>
      (c.run_separates hs).state (fun _ _ ht => ht) fun _ _ ht => ht.1) hstart
  refine ⟨hafter.parents, hafter.operands, fun e id he => hafter.verify_ne he id, ?_⟩
  intro c m p e id he
  exact ((c.run_separates hafter).2 _ he).2 m p e id rfl

end FlowGraph
