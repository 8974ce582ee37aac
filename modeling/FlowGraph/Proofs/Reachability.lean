import Mathlib
import FlowGraph.Proofs.Consistency
import FlowGraph.Proofs.ControlFlow

/-! Reachability before and after a pass. An edge of the new graph stands for a path of the old
one: a reference and the eliminated trampolines behind it. An old path is followed in the new
graph by the block where the eliminated trampolines at its end lead out, so paths between
surviving blocks are the same. -/

namespace FlowGraph

open Relation

/-- A reference that is still followed after a pass from `fn` to `fn'`: on a path from `root`, the
pass goes over an eliminated block along its leading jump and drops what else stands there. -/
def Func.KeepsEdge (fn fn' : Func) (root b c : BlockRef) : Prop :=
  fn.Refers b c ∧ ((fn'.block b).dead = true → b ≠ root → fn.next b = some c)

namespace Threading

variable {fn₀ : Func} {s : Threading} {a b c d x y entry : BlockRef}
  {pending : BlockRef → BlockRef → Prop}

theorem liveEdges_of_loaded (hw : fn₀.Loaded) : fn₀.LiveEdges entry := by
  intro b _ c ⟨o, _, i, j, k, hslot⟩
  exact Func.isLive_iff.mpr ⟨hw.bound o i j k c hslot, hw.live c⟩

/-! ## Expanding edges -/

/-- An edge of the graph of a pass is a path of the graph that the pass began with. -/
theorem Redirected.path_of_refers (h : Redirected fn₀ s) (hr : s.fn.Refers b c) :
    ReflTransGen fn₀.Refers b c := by
  obtain ⟨o, ho, i, j, k, hslot⟩ := hr
  obtain ⟨m, hm, hthrough⟩ := h.slot_from hslot
  have hfirst : fn₀.Refers b m := ⟨o, h.alike.blockOps b ▸ ho, i, j, k, hm⟩
  exact .head hfirst (ReflTransGen.mono (fun _ _ hv => Func.refers_of_next hv.2) m c hthrough)

theorem Redirected.path (h : Redirected fn₀ s) (hp : ReflTransGen s.fn.Refers b c) :
    ReflTransGen fn₀.Refers b c := by
  induction hp with
  | refl => exact .refl
  | tail _ hr ih => exact ih.trans (h.path_of_refers hr)

theorem Redirected.reachable_subset (hw : fn₀.Loaded) (h : Redirected fn₀ s)
    (hb : b ∈ s.fn.reachable entry) : b ∈ fn₀.reachable entry := by
  rw [(liveEdges_of_loaded hw).mem_reachable_iff]
  refine Func.reachable_of_closed (P := ReflTransGen fn₀.Refers entry) .refl ?_ hb
  intro x hx c hr _
  exact hx.trans (h.path_of_refers hr)

/-! ## Contracting paths -/

/-- Eliminated trampolines refer to nothing but their destination. -/
def Bare (fn₀ : Func) (s : Threading) : Prop :=
  ∀ b ∈ s.removed, ∀ o ∈ (fn₀.block b).ops.tail, (fn₀.op o).blocks = []

theorem Bare.keepsEdge (hbare : Bare fn₀ s) (h : Sound fn₀ pending s) (hr : fn₀.Refers b c) :
    fn₀.KeepsEdge s.fn a b c := by
  refine ⟨hr, fun hdead _ => ?_⟩
  have hb := (h.retired.dead b).mp hdead
  refine Func.next_of_refers ?_ (hbare b hb) hr
  rw [← h.redirected.alike.leadingJump]
  exact h.retired.jump b hb

/-- A path from `a` to `d` in the new graph stands for one from `a` to `x` in the old graph: `d`
is where `x` leads past eliminated blocks. -/
structure Represents (fn₀ : Func) (s : Threading) (a x d : BlockRef) : Prop where
  out : d ∉ s.removed
  through : fn₀.Through s.removed x d
  path : ReflTransGen s.fn.Refers a d

/-- The path starts at `a` itself, or at the destination of an entry that is eliminated. -/
theorem Represents.start (hw : fn₀.Loaded) (h : Sound fn₀ pending s) (hlive : s.fn.LiveEdges entry)
    (ha : a ∈ s.fn.reachable entry) : ∃ d, Represents fn₀ s a a d := by
  by_cases hr : a ∈ s.removed
  · obtain ⟨d, hd⟩ := h.redirected.next_isSome hw (h.retired.jump a hr)
    obtain ⟨m, hm, hthrough⟩ := h.redirected.next_through hd
    have hedge := Func.refers_of_next hd
    exact ⟨d, h.retired.not_mem_of_isLive (hlive a ha d hedge), hthrough.head hr hm, .single hedge⟩
  · exact ⟨a, hr, .refl, .refl⟩

theorem Represents.step (h : Sound fn₀ pending s) (hlive : s.fn.LiveEdges entry)
    (ha : a ∈ s.fn.reachable entry) (hx : Represents fn₀ s a x d)
    (hkept : fn₀.KeepsEdge s.fn a x y) : ∃ e, Represents fn₀ s a y e := by
  by_cases hm : x ∈ s.removed ∧ x ≠ a
  · -- the only way on from an eliminated block is the one that it stands for
    rcases ReflTransGen.cases_head hx.through with rfl | ⟨z, hz, hrest⟩
    · exact absurd hm.1 hx.out
    · cases (hkept.2 ((h.retired.dead x).mpr hm.1) hm.2).symm.trans hz.2
      exact ⟨d, hx.out, hrest, hx.path⟩
  · have hpath : ReflTransGen s.fn.Refers a x := by
      by_cases hxa : x = a
      · rw [hxa]
      · rw [← hx.through.eq_of_not_mem fun hr => hm ⟨hr, hxa⟩]
        exact hx.path
    obtain ⟨o, ho, i, j, k, hslot⟩ := hkept.1
    obtain ⟨e, he, hthrough⟩ := h.redirected.slot_of hslot
    have hedge : s.fn.Refers x e := ⟨o, by rw [h.redirected.alike.blockOps]; exact ho, i, j, k, he⟩
    have hout := h.retired.not_mem_of_isLive (hlive x (hlive.closed ha hpath) e hedge)
    exact ⟨e, hout, hthrough, hpath.tail hedge⟩

theorem Represents.of_path (hw : fn₀.Loaded) (h : Sound fn₀ pending s)
    (hlive : s.fn.LiveEdges entry) (ha : a ∈ s.fn.reachable entry)
    (hp : ReflTransGen (fn₀.KeepsEdge s.fn a) a x) : ∃ d, Represents fn₀ s a x d := by
  induction hp with
  | refl => exact Represents.start hw h hlive ha
  | tail _ hkept ih =>
    obtain ⟨d, hd⟩ := ih
    exact hd.step h hlive ha hkept

/-- A path that keeps to the jumps of eliminated blocks leads to the same surviving blocks in the
new graph. -/
theorem Sound.path_contracts (hw : fn₀.Loaded) (h : Sound fn₀ pending s)
    (hlive : s.fn.LiveEdges entry) (ha : a ∈ s.fn.reachable entry) (hx : x ∉ s.removed)
    (hp : ReflTransGen (fn₀.KeepsEdge s.fn a) a x) : ReflTransGen s.fn.Refers a x := by
  obtain ⟨d, hd⟩ := Represents.of_path hw h hlive ha hp
  rw [← hd.through.eq_of_not_mem hx]
  exact hd.path

/-- A path to a block that survives leads there in the new graph too. -/
theorem Sound.path_iff (hw : fn₀.Loaded) (h : Sound fn₀ pending s) (hbare : Bare fn₀ s)
    (hlive : s.fn.LiveEdges entry) (ha : a ∈ s.fn.reachable entry) (hx : x ∉ s.removed) :
    ReflTransGen s.fn.Refers a x ↔ ReflTransGen fn₀.Refers a x := by
  refine ⟨h.redirected.path, fun hp => h.path_contracts hw hlive ha hx ?_⟩
  exact ReflTransGen.mono (fun _ _ => hbare.keepsEdge h) a x hp

theorem Sound.mem_reachable_iff (hw : fn₀.Loaded) (h : Sound fn₀ pending s) (hbare : Bare fn₀ s)
    (hlive : s.fn.LiveEdges entry) (hx : x ∉ s.removed) :
    x ∈ s.fn.reachable entry ↔ x ∈ fn₀.reachable entry := by
  rw [hlive.mem_reachable_iff, (liveEdges_of_loaded hw).mem_reachable_iff]
  exact h.path_iff hw hbare hlive (Func.entry_mem_reachable _ entry) hx

end Threading

/-- A pass without rejections keeps reachability and paths between the blocks that survive, in a
function where no reference follows a leading jump. -/
theorem pass_preserves_reachability {path : Text} {d : Document} {st : Stats}
    {fns : List Func} {fn : Func} (hbuild : ((d.build path).run st).1 = .ok fns) (hfn : fn ∈ fns)
    (htail : ∀ b, (fn.leadingJump b).isSome → ∀ o ∈ (fn.block b).ops.tail, (fn.op o).blocks = [])
    (stats : Stats) : ∃ entry w, fn.entry = some entry ∧ w.fn.entry = some entry ∧
      threadJumps.run ⟨fn, stats⟩ = (.ok (), w) ∧
      (w.stats.phiRejects = stats.phiRejects → ∀ x y,
        w.fn.isLive x = true → w.fn.isLive y = true →
          (Reach.ofEntry w.fn entry).has x = (Reach.ofEntry fn entry).has x ∧
          (Reach.ofEntry w.fn entry).pathExists x y = (Reach.ofEntry fn entry).pathExists x y) := by
  have hw : fn.Loaded := Document.loaded_of_ok hbuild hfn
  obtain ⟨entry, hentry, -⟩ := hw.entry
  obtain ⟨t, hrun, hpassed⟩ := Threading.threadJumps_passed hw hentry stats
  have hsound := hpassed.sound
  have halike := hsound.redirected.alike
  refine ⟨entry, t.toWork, hentry, halike.entry.trans hentry, hrun, fun he x y hx hy => ?_⟩
  have hlive := hpassed.liveEdges hw he
  have hbare : Threading.Bare fn t := by
    intro b hb
    refine htail b ?_
    rw [← halike.leadingJump]
    exact hsound.retired.jump b hb
  have hxiff := hsound.mem_reachable_iff hw hbare hlive (hsound.retired.not_mem_of_isLive hx)
  constructor
  · simp [Reach.has, Reach.ofEntry, hxiff]
  · rw [Bool.eq_iff_iff, Reach.pathExists_of_liveEdges hlive,
      Reach.pathExists_of_liveEdges (Threading.liveEdges_of_loaded hw), ← hxiff]
    refine and_congr_right fun hmem => ?_
    exact hsound.path_iff hw hbare hlive hmem (hsound.retired.not_mem_of_isLive hy)

theorem ringAndChain_reachability :
    ((ringAndChain.build "f.yaml").run {}).1 = .ok [ringAndChainFunc] ∧
      (∀ b, (ringAndChainFunc.leadingJump b).isSome →
        ∀ o ∈ (ringAndChainFunc.block b).ops.tail, (ringAndChainFunc.op o).blocks = []) ∧
      ∃ entry w, threadJumps.run ⟨ringAndChainFunc, {}⟩ = (.ok (), w) ∧ w.stats.phiRejects = 0 ∧
        ∀ x y, w.fn.isLive x = true → w.fn.isLive y = true →
          (Reach.ofEntry w.fn entry).has x = (Reach.ofEntry ringAndChainFunc entry).has x ∧
          (Reach.ofEntry w.fn entry).pathExists x y =
            (Reach.ofEntry ringAndChainFunc entry).pathExists x y := by
  have hbuild : ((ringAndChain.build "f.yaml").run {}).1 = .ok [ringAndChainFunc] := by
    decide +kernel
  have htail : ∀ b, (ringAndChainFunc.leadingJump b).isSome →
      ∀ o ∈ (ringAndChainFunc.block b).ops.tail, (ringAndChainFunc.op o).blocks = [] := by
    intro b _ o ho
    obtain _ | _ | _ | _ | _ | b := b <;> cases ho
  have hrejects : (threadJumps.run ⟨ringAndChainFunc, {}⟩).2.stats.phiRejects = 0 := by cbv
  obtain ⟨entry, w, -, -, hrun, hreach⟩ :=
    pass_preserves_reachability hbuild List.mem_cons_self htail {}
  rw [hrun] at hrejects
  exact ⟨hbuild, htail, entry, w, hrun, hrejects, hreach hrejects⟩

end FlowGraph
