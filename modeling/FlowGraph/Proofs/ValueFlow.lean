import Mathlib
import FlowGraph.Proofs.Threading.Merge

/-! The values that flow into phi nodes. A merge puts the operands of a phi node in the place of
its result. If that result has no other use among phi nodes, then no phi node that is left loses
or gains a value by it, however the merges of a pass follow on each other. -/

namespace FlowGraph

namespace Func

variable {fn fn' : Func} {q : PhiRef} {v : Option ValueRef} {gone : List PhiRef}

/-- The value is an operand of `p`, or becomes one where the operands of a phi node are put in the
place of its result, as often as one likes. -/
inductive Feeds (fn : Func) (p : PhiRef) : Option ValueRef → Prop
  | operand {v : Option ValueRef} : v ∈ (fn.phi p).operands → Feeds fn p v
  | through {q : PhiRef} {v : Option ValueRef} : q ∈ fn.attached → Feeds fn p (fn.phi q).result →
      v ∈ (fn.phi q).operands → Feeds fn p v

/-- The value comes into `p` and is no result of a phi node. -/
def Source (fn : Func) (p : PhiRef) (v : Option ValueRef) : Prop :=
  fn.Feeds p v ∧ ∀ q ∈ fn.attached, (fn.phi q).result ≠ v

/-- No two phi nodes have the same result, and what a phi node of a trampoline gives is used by at
most one phi node. -/
structure SingleUse (fn : Func) : Prop where
  result : ∀ p ∈ fn.attached, ∀ q ∈ fn.attached, (fn.phi p).result = (fn.phi q).result → p = q
  use : ∀ b, (fn.leadingJump b).isSome → ∀ p ∈ (fn.block b).phis,
    ∀ q ∈ fn.attached, (fn.phi p).result ∈ (fn.phi q).operands →
    ∀ q' ∈ fn.attached, (fn.phi p).result ∈ (fn.phi q').operands → q = q'

/-! ## Putting operands in the place of results -/

/-- The phi nodes `gone` were taken away, and their operands stand wherever their results did. -/
structure Inlined (gone : List PhiRef) (fn fn' : Func) : Prop where
  attached : ∀ q, q ∈ fn'.attached ↔ q ∈ fn.attached ∧ q ∉ gone
  known : ∀ p ∈ gone, p ∈ fn.attached
  apart : ∀ p ∈ gone, ∀ p' ∈ gone, (fn.phi p).result ∉ (fn.phi p').operands
  result : ∀ q, (fn'.phi q).result = (fn.phi q).result
  operands : ∀ q ∈ fn'.attached, ∀ v, v ∈ (fn'.phi q).operands ↔
    (v ∈ (fn.phi q).operands ∧ ∀ p ∈ gone, v ≠ (fn.phi p).result) ∨
      ∃ p ∈ gone, (fn.phi p).result ∈ (fn.phi q).operands ∧ v ∈ (fn.phi p).operands

theorem SamePhis.inlined (h : SamePhis fn fn') : Inlined [] fn fn' where
  attached q := by simp [mem_attached, h.lists]
  known := by simp
  apart := by simp
  result q := by rw [h.phi]
  operands q _ v := by simp [h.phi]

namespace Inlined

/-- A result that was inlined is no operand any more. -/
theorem ne_result (h : Inlined gone fn fn') (hq : q ∈ fn'.attached)
    (hv : v ∈ (fn'.phi q).operands) : ∀ p ∈ gone, v ≠ (fn.phi p).result := by
  intro p hp heq
  rcases (h.operands q hq v).mp hv with ⟨-, hne⟩ | ⟨p', hp', -, hv'⟩
  · exact hne p hp heq
  · exact h.apart p hp p' hp' (heq ▸ hv')

theorem feeds_ne_result (h : Inlined gone fn fn') (hq : q ∈ fn'.attached)
    (hf : fn'.Feeds q v) : ∀ p ∈ gone, v ≠ (fn.phi p).result := by
  cases hf with
  | operand hv => exact h.ne_result hq hv
  | through hq' _ hv => exact h.ne_result hq' hv

/-- What is fed after inlining was fed before, through the phi nodes that were inlined. -/
theorem feeds_of (h : Inlined gone fn fn') (hq : q ∈ fn'.attached) (hf : fn'.Feeds q v) :
    fn.Feeds q v := by
  induction hf with
  | @operand v hv =>
    rcases (h.operands q hq v).mp hv with ⟨hv, -⟩ | ⟨p, hp, hr, hv⟩
    · exact .operand hv
    · exact .through (h.known p hp) (.operand hr) hv
  | @through q' v hq' _ hv ih =>
    rw [h.result] at ih
    have hold := ((h.attached q').mp hq').1
    rcases (h.operands q' hq' v).mp hv with ⟨hv, -⟩ | ⟨p, hp, hr, hv⟩
    · exact .through hold ih hv
    · exact .through (h.known p hp) (.through hold ih hr) hv

/-- What was fed before is fed after inlining, or it was inlined and its operands are fed. -/
theorem feeds (h : Inlined gone fn fn') (hs : fn.SingleUse) (hq : q ∈ fn'.attached)
    (hf : fn.Feeds q v) : ((∀ p ∈ gone, v ≠ (fn.phi p).result) → fn'.Feeds q v) ∧
      ∀ p ∈ gone, v = (fn.phi p).result → ∀ u ∈ (fn.phi p).operands, fn'.Feeds q u := by
  induction hf with
  | @operand v hv =>
    refine ⟨fun hne => .operand ((h.operands q hq v).mpr (.inl ⟨hv, hne⟩)), ?_⟩
    intro p hp heq u hu
    exact .operand ((h.operands q hq u).mpr (.inr ⟨p, hp, heq ▸ hv, hu⟩))
  | @through q' v hq' _ hv ih =>
    by_cases hgone : q' ∈ gone
    · -- the operands of an inlined phi node hold no inlined result
      refine ⟨fun _ => ih.2 q' hgone rfl v hv, fun p hp heq => ?_⟩
      exact absurd (heq ▸ hv) (h.apart p hp q' hgone)
    · have hstays : q' ∈ fn'.attached := (h.attached q').mpr ⟨hq', hgone⟩
      have hfed : fn'.Feeds q (fn'.phi q').result := by
        rw [h.result]
        refine ih.1 fun p hp heq => hgone ?_
        rw [hs.result q' hq' p (h.known p hp) heq]
        exact hp
      refine ⟨fun hne => .through hstays hfed ((h.operands q' hstays v).mpr (.inl ⟨hv, hne⟩)), ?_⟩
      intro p hp heq u hu
      exact .through hstays hfed ((h.operands q' hstays u).mpr (.inr ⟨p, hp, heq ▸ hv, hu⟩))

theorem source_iff (h : Inlined gone fn fn') (hs : fn.SingleUse) (hq : q ∈ fn'.attached) :
    fn'.Source q v ↔ fn.Source q v := by
  constructor
  · intro ⟨hf, hv⟩
    refine ⟨h.feeds_of hq hf, fun r hr heq => ?_⟩
    by_cases hgone : r ∈ gone
    · exact h.feeds_ne_result hq hf r hgone heq.symm
    · exact hv r ((h.attached r).mpr ⟨hr, hgone⟩) ((h.result r).trans heq)
  · intro ⟨hf, hv⟩
    refine ⟨(h.feeds hs hq hf).1 fun p hp heq => hv p (h.known p hp) heq.symm, fun r hr => ?_⟩
    rw [h.result]
    exact hv r ((h.attached r).mp hr).1

/-- A result with a single use keeps a single use: it moves with the phi node that uses it. -/
theorem singleUse (h : Inlined gone fn fn') (hs : fn.SingleUse)
    (hlead : ∀ b, fn'.leadingJump b = fn.leadingJump b)
    (hlists : ∀ b, (fn'.block b).phis ⊆ (fn.block b).phis)
    (hgone : ∀ p ∈ gone, ∃ b, (fn.leadingJump b).isSome ∧ p ∈ (fn.block b).phis) :
    fn'.SingleUse where
  result p hp q hq := by
    rw [h.result, h.result]
    exact hs.result p ((h.attached p).mp hp).1 q ((h.attached q).mp hq).1
  use b hb p hp q hq hv q' hq' hv' := by
    rw [hlead] at hb
    rw [h.result] at hv hv'
    have hold := (h.attached q).mp hq
    have hold' := (h.attached q').mp hq'
    have huse := hs.use b hb p (hlists b hp)
    rcases (h.operands q hq _).mp hv with ⟨hv, -⟩ | ⟨r, hr, hrq, hv⟩ <;>
      rcases (h.operands q' hq' _).mp hv' with ⟨hv', -⟩ | ⟨r', hr', hrq', hv'⟩
    · exact huse q hold.1 hv q' hold'.1 hv'
    · rw [huse q hold.1 hv r' (h.known r' hr') hv'] at hold
      exact absurd hr' hold.2
    · rw [huse q' hold'.1 hv' r (h.known r hr) hv] at hold'
      exact absurd hr hold'.2
    · obtain rfl := huse r (h.known r hr) hv r' (h.known r' hr') hv'
      obtain ⟨c, hc, hrc⟩ := hgone r hr
      exact hs.use c hc r hrc q hold.1 hrq q' hold'.1 hrq'

end Inlined

end Func

namespace Threading

variable {R : BlockRef → Prop} {s t : Threading} {fn fn' : Func} {b dest : BlockRef}

/-- Where results have single uses, handing over is inlining: the first consumer of a phi node is
the only one. -/
theorem Handed.inlined (h : Handed b dest fn fn') (hp : fn.Placed) (hs : fn.SingleUse)
    (hb : (fn.leadingJump b).isSome) : fn.Inlined (fn.block b).phis fn' := by
  have hconsumer : ∀ p ∈ (fn.block b).phis, ∀ q ∈ fn.attached,
      (fn.phi p).result ∈ (fn.phi q).operands →
      fn.findPhiUsing dest (fn.phi p).result = some q ∧ q ∈ (fn.block dest).phis := by
    intro p hpb q hq hv
    obtain ⟨c, hc⟩ := h.consumer p hpb
    obtain ⟨hcd, hcv⟩ := mem_of_findPhiUsing hc
    obtain rfl := hs.use b hb p hpb q hq hv c (Func.mem_attached.mpr ⟨dest, hcd⟩) hcv
    exact ⟨hc, hcd⟩
  have hapart : ∀ p ∈ (fn.block b).phis, ∀ p' ∈ (fn.block b).phis,
      (fn.phi p').result ∉ (fn.phi p).operands := by
    intro p hpb p' hpb' hv
    have hpd := (hconsumer p' hpb' p (Func.mem_attached.mpr ⟨b, hpb⟩) hv).2
    exact h.distinct (hp.home dest b p hpd hpb)
  refine ⟨fun q => h.mem_attached hp, fun p hpb => Func.mem_attached.mpr ⟨b, hpb⟩,
    fun p hpb p' hpb' => hapart p' hpb' p hpb, h.result, fun q hq v => ?_⟩
  have hq := ((h.mem_attached hp).mp hq).1
  rw [h.mem_operands_iff (hp.nodup q) fun p hpb p' hpb' _ => hapart p hpb p' hpb']
  constructor
  · intro hv
    rcases hv with ⟨hv, hne⟩ | ⟨p, hpt, hv⟩
    · refine .inl ⟨hv, fun p hpb heq => hne p ?_ heq⟩
      exact mem_takenBy.mpr ⟨hpb, (hconsumer p hpb q hq (heq ▸ hv)).1⟩
    · obtain ⟨hpb, hfind⟩ := mem_takenBy.mp hpt
      exact .inr ⟨p, hpb, (mem_of_findPhiUsing hfind).2, hv⟩
  · intro hv
    rcases hv with ⟨hv, hne⟩ | ⟨p, hpb, hr, hv⟩
    · exact .inl ⟨hv, fun p hpt => hne p (mem_takenBy.mp hpt).1⟩
    · exact .inr ⟨p, mem_takenBy.mpr ⟨hpb, (hconsumer p hpb q hq hr).1⟩, hv⟩

theorem Step.inlined (h : Step R s t) (hp : s.fn.Placed) (hs : s.fn.SingleUse) :
    ∃ gone, s.fn.Inlined gone t.fn ∧ t.fn.SingleUse := by
  rcases h.cases_phis hp with hsame | ⟨b, dest, -, hn, -, hhanded⟩
  · refine ⟨[], hsame.inlined, hsame.inlined.singleUse hs h.leadingJump (fun b => ?_) (by simp)⟩
    rw [hsame.lists]
    exact List.Subset.refl _
  · have hb := Func.isSome_leadingJump_of_next hn
    have hinlined := hhanded.inlined hp hs hb
    refine ⟨_, hinlined, hinlined.singleUse hs h.leadingJump (fun c p hp => ?_) fun p hp => ?_⟩
    · exact (hhanded.mem_lists.mp hp).2
    · exact ⟨b, hb, hp⟩

/-- Along a whole pass no phi node that is left changes its sources. -/
theorem Steps.source_iff (h : Steps R s t) (hp : s.fn.Placed) (hs : s.fn.SingleUse) :
    t.fn.SingleUse ∧ ∀ q ∈ t.fn.attached, q ∈ s.fn.attached ∧
      (t.fn.phi q).result = (s.fn.phi q).result ∧
      ∀ v, t.fn.Source q v ↔ s.fn.Source q v := by
  induction h with
  | refl => exact ⟨hs, fun q hq => ⟨hq, rfl, fun _ => Iff.rfl⟩⟩
  | tail hsteps hstep ih =>
    obtain ⟨hs', hkept⟩ := ih
    obtain ⟨gone, hinlined, hs''⟩ := hstep.inlined (Steps.placed hsteps hp) hs'
    refine ⟨hs'', fun q hq => ?_⟩
    obtain ⟨hq', hresult, hsource⟩ := hkept q ((hinlined.attached q).mp hq).1
    exact ⟨hq', (hinlined.result q).trans hresult,
      fun v => (hinlined.source_iff hs' hq).trans (hsource v)⟩

end Threading

/-- A pass over a function whose phi results have single uses keeps the sources of every phi node
that still stands in a block. -/
theorem pass_preserves_sources {path : Text} {d : Document} {st : Stats} {fns : List Func}
    {fn : Func} (hbuild : ((d.build path).run st).1 = .ok fns) (hfn : fn ∈ fns)
    (huse : fn.SingleUse) (stats : Stats) :
    ∃ w, threadJumps.run ⟨fn, stats⟩ = (.ok (), w) ∧ ∀ q ∈ w.fn.attached,
      q ∈ fn.attached ∧ (w.fn.phi q).result = (fn.phi q).result ∧
      ∀ v, w.fn.Source q v ↔ fn.Source q v := by
  have hw : fn.Loaded := Document.loaded_of_ok hbuild hfn
  have hplaced : fn.Placed := Document.placed_of_ok hbuild hfn
  obtain ⟨entry, hentry, -⟩ := hw.entry
  obtain ⟨t, hrun, -, hsteps⟩ := Threading.threadJumps_steps hw hentry stats
  have hall := hsteps (fun _ => True) (fun _ _ _ _ => trivial) trivial
  exact ⟨t.toWork, hrun, (hall.source_iff hplaced huse).2⟩

/-- Two trampolines in a loop whose phi nodes go into each other and then into the head of the
loop, which thereby feeds itself. -/
def mergeLoop : Document where
  functions := [{
    name := "f"
    blocks := [
      { label := "e"
        ops := [
          { kind := "expr", name := "arg", result := "x" },
          { kind := "expr", name := "arg", result := "y" },
          { kind := "jumpif", cond := "x", onTrue := "a", onFalse := "d" }] },
      { label := "a", phis := [{ result := "p", operands := ["x", "t"] }],
        ops := [{ kind := "jump", target := "b" }] },
      { label := "b", phis := [{ result := "q", operands := ["p", "x"] }],
        ops := [{ kind := "jump", target := "d" }] },
      { label := "d", phis := [{ result := "t", operands := ["q", "y"] }],
        ops := [{ kind := "jumpif", cond := "t", onTrue := "a", onFalse := "z" }] },
      { label := "z", ops := [{ kind := "return", value := "t" }] }] }]

def mergeLoopFunc : Func where
  name := "f"
  entry := some 0
  blocks := [
    { id := 1, ops := [0, 1, 2] },
    { id := 2, ops := [3], phis := [0], parents := [some 0, some 3] },
    { id := 3, ops := [4], phis := [1], parents := [some 1] },
    { id := 4, ops := [5], phis := [2], parents := [some 0, some 2] },
    { id := 5, ops := [6], parents := [some 3] }]
  ops := [.expr "arg" (some 0) [], .expr "arg" (some 1) [], .branch (some 0) (some 1) (some 3),
    .jump (some 2), .jump (some 3), .branch (some 3) (some 1) (some 4), .ret (some 3)]
  phis := [⟨some 2, [some 0, some 3]⟩, ⟨some 4, [some 2, some 0]⟩, ⟨some 3, [some 4, some 1]⟩]
  values := ["x", "y", "p", "t", "q"]

theorem mergeLoop_sources :
    ((mergeLoop.build "f.yaml").run {}).1 = .ok [mergeLoopFunc] ∧ mergeLoopFunc.SingleUse ∧
      ∃ w, threadJumps.run ⟨mergeLoopFunc, {}⟩ = (.ok (), w) ∧
        w.fn.phi 2 = ⟨some 3, [some 1, some 0, some 3]⟩ ∧
        ∀ v, w.fn.Source 2 v ↔ mergeLoopFunc.Source 2 v := by
  have hbuild : ((mergeLoop.build "f.yaml").run {}).1 = .ok [mergeLoopFunc] := by decide +kernel
  have huse : mergeLoopFunc.SingleUse := by
    refine ⟨by decide, fun b _ p hp => ?_⟩
    obtain _ | _ | _ | _ | _ | b := b
    · cases hp
    · obtain rfl := List.mem_singleton.mp hp
      decide
    · obtain rfl := List.mem_singleton.mp hp
      decide
    · obtain rfl := List.mem_singleton.mp hp
      decide
    · cases hp
    · cases hp
  obtain ⟨w, hrun, hkept⟩ := pass_preserves_sources hbuild List.mem_cons_self huse {}
  have hmerged : (threadJumps.run ⟨mergeLoopFunc, {}⟩).2.fn.attached = [2] ∧
    (threadJumps.run ⟨mergeLoopFunc, {}⟩).2.fn.phi 2 = ⟨some 3, [some 1, some 0, some 3]⟩ := by cbv
  rw [hrun] at hmerged
  refine ⟨hbuild, huse, w, hrun, hmerged.2, (hkept 2 ?_).2.2⟩
  simp [hmerged.1]

end FlowGraph
