import Mathlib
import FlowGraph.Proofs.ControlFlow

/-! A second pass. After a pass without rejections every reference that a walk can come to leads
to a settled block: one without a leading jump, or one that jumps to itself. Threading such a
reference gives it back, and writing it back gives the same operation, so that all a second pass
does is to count the blocks that jump to themselves. -/

namespace FlowGraph

namespace Threading

variable {s t u : Threading} {b bb entry : BlockRef} {o : OpRef} {idle : List OpRef}

/-- Nothing happened but that blocks were found that jump to themselves. -/
def Loops (s t : Threading) : Prop :=
  ∃ n, t = { s with stats := { s.stats with selfLoops := s.stats.selfLoops + n } }

theorem Loops.refl (s : Threading) : Loops s s := ⟨0, rfl⟩

theorem Loops.trans (h : Loops s t) (h' : Loops t u) : Loops s u := by
  obtain ⟨n, rfl⟩ := h
  obtain ⟨m, rfl⟩ := h'
  exact ⟨n + m, by simp [Nat.add_assoc]⟩

theorem Loops.fn (h : Loops s t) : t.fn = s.fn := by
  obtain ⟨n, rfl⟩ := h
  rfl

theorem Loops.removed (h : Loops s t) : t.removed = s.removed := by
  obtain ⟨n, rfl⟩ := h
  rfl

/-! ## References to settled blocks -/

/-- The follower leaves a jump of a block to itself alone. -/
def Spares (follow : OpRef → BlockRef → M Unit) (s : Threading) : Prop :=
  ∀ jmp b, s.fn.leadingJump b = some jmp → s.fn.next b = some b →
    Ensures (follow jmp b) s fun _ t => Loops s t

section

variable {follow : OpRef → BlockRef → M Unit}

theorem bypass_of_loop {jmp : OpRef} (hjmp : s.fn.leadingJump b = some jmp)
    (hn : s.fn.next b = some b) (bb : Option BlockRef) :
    Ensures (bypass bb b jmp) s fun c t => c = b ∧ Loops s t := by
  obtain ⟨jmp', hjmp', htarget⟩ := target_of_next hn
  cases hjmp.symm.trans hjmp'
  refine .bind (.get (.bind (.ok htarget ?_)))
  rw [if_pos rfl]
  exact .bind (.modify (.pure ⟨rfl, 1, rfl⟩))

theorem threadBlock_of_settled (hset : Settled s.fn b) (hb : b ∉ s.removed)
    (hfollow : Spares follow s) (bb : Option BlockRef) :
    Ensures (threadBlock follow bb b) s fun c t => c = b ∧ Loops s t := by
  refine .bind (.get ?_)
  cases hjmp : s.fn.leadingJump b with
  | none => exact .pure ⟨rfl, .refl s⟩
  | some jmp =>
    have hn : s.fn.next b = some b := hset.resolve_left (by simp [hjmp])
    simp only [if_neg hb]
    refine .bind ((hfollow jmp b hjmp hn).mono fun _ t ht => ?_)
    exact (bypass_of_loop (ht.fn ▸ hjmp) (ht.fn ▸ hn) bb).mono fun c u hu => ⟨hu.1, ht.trans hu.2⟩

/-- The references of an attribute are given back as they were read. -/
theorem mapM_thread_of_settled (hremoved : s.removed = [])
    (hfollow : ∀ t, Loops s t → Spares follow t) (bb : Option BlockRef) {ts : List Target}
    (hts : ∀ x ∈ ts, ∀ b, x.block = some b → Settled s.fn b) :
    Ensures (ts.mapM (threadTarget follow bb)) s fun tt t => tt = ts ∧ Loops s t := by
  refine (Ensures.mapM (I := fun rest done t => done ++ rest = ts ∧ Loops s t) ?_
    ⟨List.nil_append ts, .refl s⟩).mono fun tt t h => ⟨by simpa using h.1, h.2⟩
  intro x rest done t ⟨hsplit, ht⟩
  have hx : x ∈ ts := by simp [← hsplit]
  have hthread : Ensures (thread follow bb x.block) t fun c u => c = x.block ∧ Loops t u := by
    cases hxb : x.block with
    | none => exact .pure ⟨rfl, .refl t⟩
    | some b =>
      have hset : Settled t.fn b := by
        rw [ht.fn]
        exact hts x hx b hxb
      refine .bind ((threadBlock_of_settled hset (by simp [ht.removed, hremoved]) (hfollow t ht)
        bb).mono fun c u hu => ?_)
      exact .bind (.pure (.pure ⟨congrArg some hu.1, hu.2⟩))
  refine .bind (hthread.mono fun c u hu => .pure ⟨?_, ht.trans hu.2⟩)
  rw [hu.1]
  simpa using hsplit

theorem threadOp_of_settled (hremoved : s.removed = [])
    (hfollow : ∀ t, Loops s t → Spares follow t)
    (hset : ∀ c ∈ (s.fn.op o).blocks, Settled s.fn c) (bb : Option BlockRef) :
    Ensures (threadOp follow o bb) s fun _ t => Loops s t := by
  refine .bind (.get (Ensures.forM (I := fun _ t => Loops s t) ?_ (.refl s)))
  intro i _ t ht
  refine .bind (.get ?_)
  cases ha : (t.fn.op o).attributes[i]? with
  | none => exact .pure ht
  | some a =>
    have hts : ∀ x ∈ a.slot.targets, ∀ b, x.block = some b → Settled t.fn b := by
      intro x hx b hb
      obtain ⟨j, hj⟩ := List.mem_iff_getElem?.mp hx
      have hslot : (t.fn.op o).slot? i j = some ⟨x.key, some b⟩ := by
        simp [Op.slot?, ha, hj, ← hb]
      rw [ht.fn] at hslot ⊢
      exact hset b (Op.mem_blocks_iff.mpr ⟨i, j, x.key, hslot⟩)
    refine .bind ((mapM_thread_of_settled (ht.removed.trans hremoved)
      (fun u hu => hfollow u (ht.trans hu)) bb hts).mono ?_)
    intro tt u h
    obtain ⟨htt, hu⟩ := h
    have hstore : u.fn.store o i tt = (u.fn, none) := by
      rw [htt]
      exact Func.store_targets (by rw [hu.fn]; exact ha)
    refine .bind (.get ?_)
    rw [hstore]
    exact .bind (.modify (.pure (ht.trans hu)))

end

/-! ## Operations whose references are settled -/

/-- A jump of a block to itself refers to a settled block only, so the recursion stays among
operations whose references are settled. -/
theorem simplifyIdle_of_settled (idle : List OpRef) (hremoved : s.removed = [])
    (hset : ∀ c ∈ (s.fn.op o).blocks, Settled s.fn c) (bb : Option BlockRef) :
    Ensures (simplifyIdle idle o bb) s fun _ t => Loops s t := by
  induction hn : idle.length generalizing idle s o bb with
  | zero =>
    obtain rfl : idle = [] := List.length_eq_zero_iff.mp hn
    unfold simplifyIdle
    exact .pure (.refl s)
  | succ n ih =>
    unfold simplifyIdle
    split
    · rename_i ho
      refine threadOp_of_settled hremoved (fun t ht jmp b hjmp hloop => ?_) hset bb
      refine ih (idle.erase o) (ht.removed.trans hremoved) ?_ _ ?_
      · intro c hc
        obtain ⟨i, j, k, hslot⟩ := Op.mem_blocks_iff.mp hc
        obtain ⟨a, ha, hj⟩ := Option.bind_eq_some_iff.mp hslot
        obtain ⟨-, htargets⟩ := Func.targets_of_next hjmp hloop ha
        have hmem := List.mem_of_getElem? hj
        simp only [htargets, List.mem_singleton, Target.mk.injEq, Option.some.injEq] at hmem
        rw [hmem.2]
        exact .inr hloop
      · rw [List.length_erase_of_mem ho, hn]
        rfl
    · exact .pure (.refl s)

/-! ## The walk -/

/-- The blocks that a walk from the entry can come to refer to settled blocks only. -/
structure Still (fn : Func) (entry : BlockRef) (entered : BlockRef → Prop) : Prop where
  start : entered entry
  settled : ∀ b, entered b → ∀ c, fn.Refers b c → Settled fn c ∧ entered c

variable {entered : BlockRef → Prop}

theorem visitOps_of_still (hstill : Still s.fn entry entered) (hremoved : s.removed = [])
    (hb : entered b) {ops : List OpRef} (hops : ops ⊆ (s.fn.block b).ops) (ht : Loops s t) :
    Ensures (Visitor.visitOps (fun s : Threading => s.fn) [visitor] b ops) t fun next u =>
      Loops s u ∧ ∀ c ∈ next, entered c := by
  induction ops generalizing t with
  | nil => exact .pure ⟨ht, by simp⟩
  | cons o rest ih =>
    have hsettled : ∀ c ∈ (s.fn.op o).blocks, Settled s.fn c ∧ entered c := by
      intro c hc
      obtain ⟨i, j, k, hslot⟩ := Op.mem_blocks_iff.mp hc
      exact hstill.settled b hb c ⟨o, hops List.mem_cons_self, i, j, k, hslot⟩
    have hsimplify : Ensures (simplify o (some b)) t fun _ u => Loops t u := by
      refine .bind (.get (simplifyIdle_of_settled _ (ht.removed.trans hremoved) ?_ _))
      rw [ht.fn]
      exact fun c hc => (hsettled c hc).1
    refine .bind (.bind (hsimplify.mono fun _ u hu => .pure ?_))
    have hsu : Loops s u := ht.trans hu
    refine .bind (.get (.bind ((ih (fun x hx => hops (List.mem_cons_of_mem _ hx)) hsu).mono ?_)))
    intro next v hv
    refine .pure ⟨hv.1, fun c hc => ?_⟩
    rcases List.mem_append.mp hc with hc | hc
    · have hc : c ∈ (u.fn.op o).blocks := (List.mem_filter.mp hc).1
      rw [hsu.fn] at hc
      exact (hsettled c hc).2
    · exact hv.2 c hc

theorem visitBlock_of_still (hstill : Still s.fn entry entered) (hremoved : s.removed = [])
    (hb : entered b) (ht : Loops s t) :
    Ensures (Visitor.visitBlock (fun s : Threading => s.fn) [visitor] b) t fun next u =>
      Loops s u ∧ ∀ c ∈ next, entered c := by
  refine .bind (.bind (.pure (.pure (.bind (.get (.bind ?_))))))
  have hops : (t.fn.block b).ops ⊆ (s.fn.block b).ops := by simp [ht.fn]
  refine (visitOps_of_still hstill hremoved hb hops ht).mono fun next u h => ?_
  exact .bind (.bind (.pure (.pure (.pure h))))

theorem run_of_still (hstill : Still s.fn entry entered) (hremoved : s.removed = [])
    (hentry : s.fn.entry = some entry) : Ensures run s fun _ t => Loops s t := by
  refine .bind (.get ?_)
  rw [hentry]
  refine .bind (.get ?_)
  refine (Visitor.walkFrom_ensures
    (I := fun _ stack t => Loops s t ∧ ∀ c ∈ stack, entered c) ?_ ?_ _ _ s ?_).mono ?_
  · intro unvisited b rest t _ h
    exact ⟨h.1, fun c hc => h.2 c (List.mem_cons_of_mem _ hc)⟩
  · intro unvisited b rest t _ h
    refine (visitBlock_of_still hstill hremoved (h.2 b List.mem_cons_self) h.1).mono ?_
    intro next u hu
    refine ⟨hu.1, fun c hc => ?_⟩
    rcases List.mem_append.mp hc with hc | hc
    · exact hu.2 c (List.mem_filter.mp hc).1
    · exact h.2 c (List.mem_cons_of_mem _ hc)
  · refine ⟨.refl s, fun c hc => ?_⟩
    rw [List.mem_singleton.mp hc]
    exact hstill.start
  · intro _ t ⟨_, ht, _⟩
    exact ht

end Threading

/-- Once a pass has rejected no phi nodes, another pass only counts blocks that jump to
themselves. -/
theorem pass_idempotent_without_rejections {path : Text} {d : Document} {st : Stats}
    {fns : List Func} {fn : Func} (hbuild : ((d.build path).run st).1 = .ok fns) (hfn : fn ∈ fns)
    (stats : Stats) : ∃ w, threadJumps.run ⟨fn, stats⟩ = (.ok (), w) ∧
      (w.stats.phiRejects = stats.phiRejects → ∃ n, threadJumps.run w =
        (.ok (), { w with stats := { w.stats with selfLoops := w.stats.selfLoops + n } })) := by
  have hw : fn.Loaded := Document.loaded_of_ok hbuild hfn
  obtain ⟨entry, hentry, -⟩ := hw.entry
  obtain ⟨t, hrun, hpassed⟩ := Threading.threadJumps_passed hw hentry stats
  refine ⟨t.toWork, hrun, fun he => ?_⟩
  obtain ⟨entered, hstart, hsettled⟩ := hpassed.closed he
  have hentry' : t.fn.entry = some entry := hpassed.sound.redirected.alike.entry.trans hentry
  obtain ⟨_, u, hagain, n, rfl⟩ := Threading.run_of_still (s := { t.toWork with })
    ⟨hstart, hsettled⟩ rfl hentry'
  refine ⟨n, ?_⟩
  show ((Threading.run.run { t.toWork with }).1, (Threading.run.run { t.toWork with }).2.toWork) = _
  rw [hagain]

theorem ringAndChain_idempotent :
    ((ringAndChain.build "f.yaml").run {}).1 = .ok [ringAndChainFunc] ∧
      ∃ w, threadJumps.run ⟨ringAndChainFunc, {}⟩ = (.ok (), w) ∧ w.stats.eliminated = 2 ∧
        ∃ n, threadJumps.run w =
          (.ok (), { w with stats := { w.stats with selfLoops := w.stats.selfLoops + n } }) := by
  have hbuild : ((ringAndChain.build "f.yaml").run {}).1 = .ok [ringAndChainFunc] := by
    decide +kernel
  have hstats : (threadJumps.run ⟨ringAndChainFunc, {}⟩).2.stats.phiRejects = 0 ∧
      (threadJumps.run ⟨ringAndChainFunc, {}⟩).2.stats.eliminated = 2 := by
    constructor <;> cbv
  obtain ⟨w, hrun, hagain⟩ := pass_idempotent_without_rejections hbuild List.mem_cons_self {}
  rw [hrun] at hstats
  exact ⟨hbuild, w, hrun, hstats.2, hagain hstats.1⟩

end FlowGraph
