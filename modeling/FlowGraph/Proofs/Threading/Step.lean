import Mathlib
import FlowGraph.Proofs.Threading.Pass

/-! A pass as a sequence of steps. Whatever graph it starts on, and also if it breaks off, a pass
does one of five things at a time, and only to blocks of a region that references do not lead out
of. What each step keeps is therefore kept by the whole pass, and no proof about the whole needs to
look into the recursion again. -/

namespace FlowGraph

open Relation

namespace Threading

variable {R : BlockRef → Prop} {s t u : Threading} {b c dest : BlockRef} {bb : Option BlockRef}
  {o jmp : OpRef} {α β : Type}

/-- The trampoline `b`, whose phi nodes were merged in `fn`, is eliminated unless it was before,
and its destination gains `bb` as a parent in its place. -/
def bypassed (s : Threading) (fn : Func) (bb : Option BlockRef) (b dest : BlockRef) : Threading :=
  let marked := if b ∈ s.removed then fn
    else fn.modifyBlock b fun bb => { bb with dead := true }
  { fn := (marked.removeParent dest (some b)).addParent dest bb
    removed := if b ∈ s.removed then s.removed else s.removed ++ [b]
    stats := { s.stats with
      phiMerges := s.stats.phiMerges + (s.fn.block b).phis.length
      eliminated := if b ∈ s.removed then s.stats.eliminated else s.stats.eliminated + 1 } }

/-- One change of the state, at blocks of the region `R`. -/
inductive Step (R : BlockRef → Prop) (s : Threading) : Threading → Prop
  /-- A trampoline that jumps to itself stays. -/
  | loop {b : BlockRef} : R b → s.fn.next b = some b →
      Step R s { s with stats := { s.stats with selfLoops := s.stats.selfLoops + 1 } }
  /-- A trampoline stays whose destination does not use its phi nodes. -/
  | reject {b dest : BlockRef} : R b → s.fn.next b = some dest → dest ≠ b →
      mergePhis s.fn b dest = none →
      Step R s { s with stats := { s.stats with phiRejects := s.stats.phiRejects + 1 } }
  /-- A trampoline is passed over. -/
  | bypass {fn : Func} {bb : Option BlockRef} {b dest : BlockRef} : R b →
      s.fn.next b = some dest → dest ≠ b → mergePhis s.fn b dest = some fn →
      Step R s (bypassed s fn bb b dest)
  /-- A reference to an eliminated block goes where that leads. -/
  | shortCircuit {bb : Option BlockRef} {dest : BlockRef} : R dest →
      Step R s { s with
        fn := s.fn.addParent dest bb
        stats := { s.stats with shortCircuits := s.stats.shortCircuits + 1 } }
  /-- References are written back into an attribute of an operation. -/
  | store {bb : BlockRef} {o : OpRef} {i : Nat} {tt : List Target} : R bb →
      o ∈ (s.fn.block bb).ops → (∀ x ∈ tt, ∀ c, x.block = some c → R c) →
      Step R s { s with fn := (s.fn.store o i tt).1 }

abbrev Steps (R : BlockRef → Prop) : Threading → Threading → Prop := ReflTransGen (Step R)

/-! ## What no step touches -/

theorem bypassed_alike (s : Threading) (fn : Func) (bb : Option BlockRef) (b dest : BlockRef) :
    fn.Alike (bypassed s fn bb b dest).fn := by
  refine .trans ?_ ((Func.alike_removeParent _ dest (some b)).trans (Func.alike_addParent _ dest bb))
  split
  · exact .refl fn
  · exact .modifyBlock (f := fun bb => { bb with dead := true }) (fun _ => rfl) (fun _ => rfl) fn b

theorem bypassed_op (s : Threading) (fn : Func) (bb : Option BlockRef) (b dest : BlockRef)
    (o : OpRef) : (bypassed s fn bb b dest).fn.op o = fn.op o := by
  unfold bypassed
  split <;> rfl

/-- A step that writes no references leaves all references alone. -/
theorem Step.cases_op (h : Step R s t) : (s.fn.Alike t.fn ∧ ∀ o, t.fn.op o = s.fn.op o) ∨
    ∃ bb o i tt, R bb ∧ o ∈ (s.fn.block bb).ops ∧ (∀ x ∈ tt, ∀ c, x.block = some c → R c) ∧
      t = { s with fn := (s.fn.store o i tt).1 } := by
  cases h with
  | loop => exact .inl ⟨.refl _, fun _ => rfl⟩
  | reject => exact .inl ⟨.refl _, fun _ => rfl⟩
  | bypass _ hn _ hm =>
    have hmerged := mergePhis_merged hm (Func.lt_of_next hn)
    refine .inl ⟨hmerged.alike.trans (bypassed_alike ..), fun o => ?_⟩
    rw [bypassed_op, hmerged.op]
  | shortCircuit => exact .inl ⟨Func.alike_addParent .., fun _ => rfl⟩
  | store hbb ho htt => exact .inr ⟨_, _, _, _, hbb, ho, htt, rfl⟩

theorem Step.removed (h : Step R s t) : s.removed ⊆ t.removed := by
  cases h with
  | @bypass fn bb b dest =>
    show s.removed ⊆ if b ∈ s.removed then s.removed else s.removed ++ [b]
    split
    · exact List.Subset.refl _
    · exact List.subset_append_left _ _
  | _ => exact List.Subset.refl _

theorem Step.blockOps (h : Step R s t) (b : BlockRef) :
    (t.fn.block b).ops = (s.fn.block b).ops := by
  rcases h.cases_op with ⟨halike, -⟩ | ⟨_, _, _, _, -, -, -, rfl⟩
  · exact halike.blockOps b
  · rfl

theorem Step.isJump (h : Step R s t) (o : OpRef) : (t.fn.op o).isJump = (s.fn.op o).isJump := by
  rcases h.cases_op with ⟨halike, -⟩ | ⟨_, o', i, tt, -, -, -, rfl⟩
  · exact halike.isJump o
  · rcases Func.op_store s.fn o' i tt o with hop | ⟨rfl, hop⟩
    · exact congrArg Op.isJump hop
    · exact (congrArg Op.isJump hop).trans (Op.isJump_store _ _ _)

theorem Step.leadingJump (h : Step R s t) (b : BlockRef) :
    t.fn.leadingJump b = s.fn.leadingJump b := by
  simp only [Func.leadingJump, h.blockOps, h.isJump]

theorem Steps.blockOps (h : Steps R s t) (b : BlockRef) :
    (t.fn.block b).ops = (s.fn.block b).ops := by
  induction h with
  | refl => rfl
  | tail _ hstep ih => exact (hstep.blockOps b).trans ih

theorem Steps.leadingJump (h : Steps R s t) (b : BlockRef) :
    t.fn.leadingJump b = s.fn.leadingJump b := by
  induction h with
  | refl => rfl
  | tail _ hstep ih => exact (hstep.leadingJump b).trans ih

/-- References do not lead out of the region. -/
def Region (R : BlockRef → Prop) (fn : Func) : Prop := ∀ b, R b → ∀ c, fn.Refers b c → R c

theorem Region.blocks {fn : Func} (h : Region R fn) (hb : R b) (ho : o ∈ (fn.block b).ops)
    (hc : c ∈ (fn.op o).blocks) : R c := by
  obtain ⟨i, j, k, hslot⟩ := Op.mem_blocks_iff.mp hc
  exact h b hb c ⟨o, ho, i, j, k, hslot⟩

theorem Step.region (h : Step R s t) (hr : Region R s.fn) : Region R t.fn := by
  intro b hb c ⟨o, ho, i, j, k, hslot⟩
  have ho' : o ∈ (s.fn.block b).ops := h.blockOps b ▸ ho
  have hc : c ∈ (t.fn.op o).blocks := Op.mem_blocks_iff.mpr ⟨i, j, k, hslot⟩
  rcases h.cases_op with ⟨-, hop⟩ | ⟨_, o', i', tt, -, -, htt, rfl⟩
  · exact hr.blocks hb ho' (hop o ▸ hc)
  · rcases Func.op_store s.fn o' i' tt o with hop | ⟨rfl, hop⟩
    · exact hr.blocks hb ho' (hop ▸ hc)
    · change c ∈ ((s.fn.store o i' tt).1.op o).blocks at hc
      rw [hop] at hc
      rcases Op.mem_blocks_store hc with hc | ⟨x, hx, hxc⟩
      · exact hr.blocks hb ho' hc
      · exact htt x hx c hxc

theorem Steps.region (h : Steps R s t) (hr : Region R s.fn) : Region R t.fn := by
  induction h with
  | refl => exact hr
  | tail _ hstep ih => exact hstep.region ih

/-! ## Actions that move by steps -/

/-- The action moves by steps, whether it returns or breaks off, and if it returns then `Q` holds
of its result and the state that it leaves. -/
def Moves (R : BlockRef → Prop) (x : M α) (s : Threading) (Q : α → Threading → Prop) : Prop :=
  Steps R s (x.run s).2 ∧ ∀ a, (x.run s).1 = .ok a → Q a (x.run s).2

namespace Moves

variable {Q : α → Threading → Prop}

theorem mono {x : M α} {Q' : α → Threading → Prop} (h : Moves R x s Q)
    (hq : ∀ a t, Steps R s t → Q a t → Q' a t) : Moves R x s Q' :=
  ⟨h.1, fun a ha => hq a _ h.1 (h.2 a ha)⟩

protected theorem pure {a : α} (h : Q a s) : Moves R (pure a) s Q := by
  refine ⟨.refl, fun a' ha => ?_⟩
  cases ha
  exact h

protected theorem throw (e : Fault) : Moves R (throw e) s Q :=
  ⟨.refl, fun _ ha => nomatch ha⟩

protected theorem get {Q : Threading → Threading → Prop} (h : Q s s) : Moves R get s Q := by
  refine ⟨.refl, fun a ha => ?_⟩
  cases ha
  exact h

protected theorem modify {f : Threading → Threading} {Q : Unit → Threading → Prop}
    (hstep : Step R s (f s)) (h : Q () (f s)) : Moves R (modify f) s Q :=
  ⟨.single hstep, fun _ _ => h⟩

/-- Several changes that make up one step. -/
theorem ofEnsures {x : M α} (h : Ensures x s fun a t => Step R s t ∧ Q a t) : Moves R x s Q := by
  obtain ⟨a, t, hrun, hstep, hq⟩ := h
  unfold Moves
  rw [hrun]
  refine ⟨.single hstep, fun a' ha => ?_⟩
  cases ha
  exact hq

/-- A computation without state, which may fail. -/
protected theorem lift {e : Except Fault α} (h : ∀ a, e = .ok a → Q a s) :
    Moves R (liftM e : M α) s Q := by
  cases e with
  | error f => exact ⟨.refl, fun _ ha => nomatch ha⟩
  | ok a =>
    refine ⟨.refl, fun a' ha => ?_⟩
    cases ha
    exact h a rfl

protected theorem bind {x : M α} {f : α → M β} {Q : β → Threading → Prop}
    (h : Moves R x s fun a t => Moves R (f a) t Q) : Moves R (x >>= f) s Q := by
  obtain ⟨hsteps, hrest⟩ := h
  unfold Moves
  rw [run_bind]
  rcases hx : x.run s with ⟨e | a, t⟩
  · rw [hx] at hsteps
    exact ⟨hsteps, fun _ ha => nomatch ha⟩
  · rw [hx] at hsteps hrest
    obtain ⟨hsteps', hq⟩ := hrest a rfl
    exact ⟨hsteps.trans hsteps', hq⟩

theorem forM {f : α → M Unit} {I : Threading → Prop} {xs : List α}
    (step : ∀ x ∈ xs, ∀ t, I t → Moves R (f x) t fun _ u => I u) (h : I s) :
    Moves R (xs.forM f) s fun _ t => I t := by
  induction xs generalizing s with
  | nil => exact .pure h
  | cons x xs ih =>
    refine .bind ((step x List.mem_cons_self s h).mono fun _ t _ ht => ?_)
    exact ih (fun y hy => step y (List.mem_cons_of_mem _ hy)) ht

theorem mapM {f : α → M β} {I : Threading → Prop} {P : β → Prop} {xs : List α}
    (step : ∀ x ∈ xs, ∀ t, I t → Moves R (f x) t fun b u => I u ∧ P b) (h : I s) :
    Moves R (xs.mapM f) s fun bs t => I t ∧ ∀ b ∈ bs, P b := by
  induction xs generalizing s with
  | nil => exact .pure ⟨h, by simp⟩
  | cons x xs ih =>
    rw [List.mapM_cons]
    refine .bind ((step x List.mem_cons_self s h).mono fun b t _ hb => ?_)
    refine .bind ((ih (fun y hy => step y (List.mem_cons_of_mem _ hy)) hb.1).mono ?_)
    intro bs u _ hbs
    exact .pure ⟨hbs.1, by simpa using ⟨hb.2, hbs.2⟩⟩

end Moves

/-! ## The steps of a pass -/

theorem next_of_target {fn : Func} (hjmp : fn.leadingJump b = some jmp)
    (h : target fn b jmp = .ok c) : fn.next b = some c := by
  unfold target at h
  split at h
  · rename_i t hop
    cases h
    exact Func.next_of_leadingJump hjmp hop
  · cases h

/-- The walk over eliminated blocks stays in the region. -/
theorem resolveFrom_region {fn : Func} {removed : List BlockRef} (hr : Region R fn) (hb : R b) :
    ∀ steps, resolveFrom fn removed steps b = .ok c → R c := by
  intro steps
  induction steps generalizing b with
  | zero =>
    intro h
    cases h
    exact hb
  | succ steps ih =>
    intro h
    unfold resolveFrom at h
    split at h
    · cases hjmp : fn.leadingJump b with
      | none => simp [hjmp] at h
      | some jmp =>
        simp only [hjmp] at h
        obtain ⟨d, hd, hrest⟩ := bind_eq_ok.mp h
        exact ih (hr b hb d (Func.refers_of_next (next_of_target hjmp hd))) hrest
    · cases h
      exact hb

theorem eliminate_eq (s : Threading) (b : BlockRef) : Ensures (eliminate b) s fun _ t => t =
    { fn := if b ∈ s.removed then s.fn
        else s.fn.modifyBlock b fun bb => { bb with dead := true }
      removed := if b ∈ s.removed then s.removed else s.removed ++ [b]
      stats := { s.stats with
        eliminated := if b ∈ s.removed then s.stats.eliminated else s.stats.eliminated + 1 } } := by
  refine .bind (.get ?_)
  split
  · exact .pure rfl
  · exact .bind (.modify (.bind (.modify (.modify rfl))))

theorem bypass_moves (hr : Region R s.fn) (hb : R b) (hjmp : s.fn.leadingJump b = some jmp) :
    Moves R (bypass bb b jmp) s fun c _ => R c := by
  refine .bind (.get (.bind (.lift fun dest htarget => ?_)))
  have hn := next_of_target hjmp htarget
  split
  · rename_i hself
    subst hself
    exact .bind (.modify (.loop hb hn) (.pure hb))
  · rename_i hne
    cases hm : mergePhis s.fn b dest with
    | none => exact .bind (.modify (.reject hb hn hne hm) (.pure hb))
    | some fn =>
      refine .ofEnsures (.bind (.modify (.bind (.modify (.bind ((eliminate_eq _ b).mono ?_))))))
      intro _ t ht
      refine .bind (.modify (.pure ⟨?_, hr b hb dest (Func.refers_of_next hn)⟩))
      rw [ht]
      exact .bypass hb hn hne hm

section

variable {follow : OpRef → BlockRef → M Unit}

/-- What a follower does to a trampoline of the region, it does by steps. -/
def FollowMoves (R : BlockRef → Prop) (follow : OpRef → BlockRef → M Unit) : Prop :=
  ∀ s jmp b, Region R s.fn → R b → s.fn.leadingJump b = some jmp →
    Moves R (follow jmp b) s fun _ _ => True

theorem shortCircuit_moves (hr : Region R s.fn) (hb : R b)
    (hjmp : s.fn.leadingJump b = some jmp) :
    Moves R (shortCircuit bb b jmp) s fun c _ => R c := by
  refine .bind (.get (.bind (.lift fun dest hdest => ?_)))
  obtain ⟨d, hd, hrest⟩ := bind_eq_ok.mp hdest
  have hn := next_of_target hjmp hd
  have hR : R dest := resolveFrom_region hr (hr b hb d (Func.refers_of_next hn)) _ hrest
  exact .ofEnsures (.bind (.pure (.bind (.modify (.bind (.modify
    (.pure ⟨.shortCircuit hR, hR⟩)))))))

theorem threadBlock_moves (hfollow : FollowMoves R follow) (hr : Region R s.fn) (hb : R b) :
    Moves R (threadBlock follow bb b) s fun c _ => R c := by
  refine .bind (.get ?_)
  cases hjmp : s.fn.leadingJump b with
  | none => exact .pure hb
  | some jmp =>
    dsimp only
    split
    · exact shortCircuit_moves hr hb hjmp
    · refine .bind ((hfollow s jmp b hr hb hjmp).mono fun _ t hsteps _ => ?_)
      refine bypass_moves (hsteps.region hr) hb ?_
      rw [hsteps.leadingJump]
      exact hjmp

/-- What takes the place of a reference to the region refers to the region. -/
theorem threadTarget_moves (hfollow : FollowMoves R follow) (hr : Region R s.fn) {x : Target}
    (hx : ∀ c, x.block = some c → R c) :
    Moves R (threadTarget follow bb x) s fun y t => Region R t.fn ∧ ∀ c, y.block = some c → R c := by
  obtain ⟨k, _ | b⟩ := x
  · exact .bind (.pure (.pure ⟨hr, nofun⟩))
  · refine .bind (.bind ((threadBlock_moves hfollow hr (hx b rfl)).mono fun c t ht hc => ?_))
    refine .bind (.pure (.pure (.pure ⟨ht.region hr, fun d hd => ?_⟩)))
    cases hd
    exact hc

theorem writeBack_moves (hb : R b) (ho : o ∈ (s.fn.block b).ops) {i : Nat} {tt : List Target}
    (htt : ∀ x ∈ tt, ∀ c, x.block = some c → R c) :
    Moves R (writeBack o i tt) s fun _ _ => True := by
  have hstore : Step R s { s with fn := (s.fn.store o i tt).1 } := .store hb ho htt
  refine .bind (.get ?_)
  rcases hresult : s.fn.store o i tt with ⟨fn, fault⟩
  rw [hresult] at hstore
  refine .bind (.modify hstore ?_)
  cases fault with
  | none => exact .pure trivial
  | some e => exact .throw e

theorem threadOp_moves (hfollow : FollowMoves R follow) (hr : Region R s.fn) (hb : R b)
    (ho : o ∈ (s.fn.block b).ops) : Moves R (threadOp follow o (some b)) s fun _ _ => True := by
  refine .bind (.get ((Moves.forM (I := fun t => Region R t.fn ∧ o ∈ (t.fn.block b).ops) ?_
    ⟨hr, ho⟩).mono fun _ _ _ _ => trivial))
  intro i _ t ⟨hr, ho⟩
  refine .bind (.get ?_)
  cases ha : (t.fn.op o).attributes[i]? with
  | none => exact .pure ⟨hr, ho⟩
  | some a =>
    refine .bind ((Moves.mapM (I := fun u => Region R u.fn)
      (P := fun x : Target => ∀ c, x.block = some c → R c) ?_ hr).mono fun tt u hsteps htt => ?_)
    · intro x hx u hu
      refine threadTarget_moves hfollow hu fun c hxb => ?_
      obtain ⟨j, hj⟩ := List.mem_iff_getElem?.mp hx
      have hc : c ∈ (t.fn.op o).blocks :=
        Op.mem_blocks_iff.mpr ⟨i, j, x.key, by simp [Op.slot?, ha, hj, ← hxb]⟩
      exact hr.blocks hb ho hc
    · have ho' : o ∈ (u.fn.block b).ops := by rw [hsteps.blockOps]; exact ho
      refine (writeBack_moves hb ho' htt.2).mono fun _ v hv _ => ⟨hv.region htt.1, ?_⟩
      rw [hv.blockOps]
      exact ho'

end

theorem simplifyIdle_moves (idle : List OpRef) (o : OpRef) (bb : Option BlockRef) :
    ∀ (s : Threading) (b : BlockRef), bb = some b → Region R s.fn → R b →
      o ∈ (s.fn.block b).ops → Moves R (simplifyIdle idle o bb) s fun _ _ => True := by
  induction idle, o, bb using simplifyIdle.induct with
  | case1 idle o bb hidle ih =>
    rintro s b rfl hr hb ho
    unfold simplifyIdle
    rw [dif_pos hidle]
    refine threadOp_moves (fun t jmp c hr hc hjmp => ?_) hr hb ho
    exact ih jmp c t c rfl hr hc (Func.leadingJump_eq_some hjmp).1
  | case2 idle o bb hidle =>
    intro s b _ _ _ _
    unfold simplifyIdle
    rw [dif_neg hidle]
    exact .pure trivial

theorem simplify_moves (hr : Region R s.fn) (hb : R b) (ho : o ∈ (s.fn.block b).ops) :
    Moves R (simplify o (some b)) s fun _ _ => True :=
  .bind (.get (simplifyIdle_moves _ o (some b) s b rfl hr hb ho))

theorem visitOps_moves (hr : Region R s.fn) (hb : R b) {ops : List OpRef}
    (hops : ops ⊆ (s.fn.block b).ops) :
    Moves R (Visitor.visitOps (fun s : Threading => s.fn) [visitor] b ops) s fun next _ =>
      ∀ c ∈ next, R c := by
  induction ops generalizing s with
  | nil => exact .pure (by simp)
  | cons o rest ih =>
    have ho : o ∈ (s.fn.block b).ops := hops List.mem_cons_self
    refine .bind (.bind ((simplify_moves hr hb ho).mono fun _ t hsteps _ => .pure (.bind (.get ?_))))
    have hr' := hsteps.region hr
    refine .bind ((ih hr' fun x hx => ?_).mono fun next u _ hnext => .pure fun c hc => ?_)
    · rw [hsteps.blockOps]
      exact hops (List.mem_cons_of_mem _ hx)
    · rcases List.mem_append.mp hc with hc | hc
      · exact hr'.blocks hb (by rw [hsteps.blockOps]; exact ho) (List.mem_filter.mp hc).1
      · exact hnext c hc

theorem visitBlock_moves (hr : Region R s.fn) (hb : R b) :
    Moves R (Visitor.visitBlock (fun s : Threading => s.fn) [visitor] b) s fun next _ =>
      ∀ c ∈ next, R c := by
  refine .bind (.bind (.pure (.pure (.bind (.get (.bind ?_))))))
  refine (visitOps_moves hr hb fun _ h => h).mono fun next t _ hnext => ?_
  exact .bind (.bind (.pure (.pure (.pure hnext))))

theorem walkFrom_moves (unvisited stack : List BlockRef) : ∀ s, Region R s.fn →
    (∀ c ∈ stack, R c) →
    Moves R (Visitor.walkFrom (fun s : Threading => s.fn) [visitor] unvisited stack) s
      fun _ _ => True := by
  induction unvisited, stack using Visitor.walkFrom.induct with
  | case1 unvisited =>
    intro s _ _
    unfold Visitor.walkFrom
    exact .pure trivial
  | case2 unvisited b rest hb ih =>
    intro s hr hstack
    unfold Visitor.walkFrom
    rw [dif_pos hb]
    refine .bind ((visitBlock_moves hr (hstack b List.mem_cons_self)).mono fun next t ht hnext => ?_)
    refine ih next t (ht.region hr) fun c hc => ?_
    rcases List.mem_append.mp hc with hc | hc
    · exact hnext c (List.mem_filter.mp hc).1
    · exact hstack c (List.mem_cons_of_mem _ hc)
  | case3 unvisited b rest hb ih =>
    intro s hr hstack
    unfold Visitor.walkFrom
    rw [dif_neg hb]
    exact ih s hr fun c hc => hstack c (List.mem_cons_of_mem _ hc)

theorem run_moves {entry : BlockRef} (hr : Region R s.fn) (hentry : s.fn.entry = some entry)
    (hR : R entry) : Moves R run s fun _ _ => True := by
  refine .bind (.get ?_)
  rw [hentry]
  exact .bind (.get (walkFrom_moves _ _ s hr (by simpa using hR)))

/-- A pass over a loaded function moves by steps at the blocks of any region that holds the
entry. -/
theorem run_steps {fn₀ : Func} {entry : BlockRef} (hw : fn₀.Loaded)
    (hentry : fn₀.entry = some entry) (stats : Stats) :
    ∃ t : Threading, run.run { fn := fn₀, stats } = (.ok (), t) ∧ Passed fn₀ entry stats t ∧
      ∀ R : BlockRef → Prop, Region R fn₀ → R entry → Steps R { fn := fn₀, stats } t := by
  obtain ⟨_, t, hrun, hpassed⟩ := run_ensures hw hentry stats
  refine ⟨t, hrun, hpassed, fun R hr hR => ?_⟩
  have hmoves := run_moves (s := { fn := fn₀, stats }) hr hentry hR
  unfold Moves at hmoves
  rw [hrun] at hmoves
  exact hmoves.1

theorem threadJumps_run {fn₀ : Func} {stats : Stats} {t : Threading}
    (h : run.run { fn := fn₀, stats } = (.ok (), t)) :
    threadJumps.run ⟨fn₀, stats⟩ = (.ok (), t.toWork) := by
  show ((run.run { fn := fn₀, stats }).1, (run.run { fn := fn₀, stats }).2.toWork) = _
  rw [h]

theorem threadJumps_steps {fn₀ : Func} {entry : BlockRef} (hw : fn₀.Loaded)
    (hentry : fn₀.entry = some entry) (stats : Stats) :
    ∃ t : Threading, threadJumps.run ⟨fn₀, stats⟩ = (.ok (), t.toWork) ∧
      Passed fn₀ entry stats t ∧
      ∀ R : BlockRef → Prop, Region R fn₀ → R entry → Steps R { fn := fn₀, stats } t := by
  obtain ⟨t, hrun, hrest⟩ := run_steps hw hentry stats
  exact ⟨t, threadJumps_run hrun, hrest⟩

end Threading

end FlowGraph
