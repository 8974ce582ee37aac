import Mathlib
import FlowGraph.Proofs.Lawful
import FlowGraph.Proofs.Outcome
import FlowGraph.Proofs.Threading.Pass

/-! What a check of the graph finds after a pass. Parents and edges agree whatever the pass did;
all that can go wrong is an edge that was kept because phi nodes of its target were rejected,
and whose target was eliminated later on. Without rejections no such edge is left. -/

namespace FlowGraph

namespace Func

variable {fn : Func} {b c : BlockRef}

/-- An edge from a live block to an eliminated one. -/
def Stale (fn : Func) (b c : BlockRef) : Prop :=
  fn.isLive b = true ∧ fn.Refers b c ∧ fn.isLive c = false

/-- Parents and edges agree between live blocks. -/
structure Registered (fn : Func) : Prop where
  nodup : ∀ b, (fn.block b).parents.Nodup
  real : ∀ b, none ∉ (fn.block b).parents
  parent : ∀ p b, fn.isLive p = true → fn.Refers p b → some p ∈ (fn.block b).parents
  edge : ∀ p b, fn.isLive p = true → fn.isLive b = true → some p ∈ (fn.block b).parents →
    fn.Refers p b

/-- All that a check can say about registered blocks is that an edge is stale. -/
theorem Registered.stale_of_breaks (h : fn.Registered) {entry : BlockRef} {v : Violation}
    (hlive : fn.isLive b = true) (hb : fn.Breaks entry b v) :
    ∃ c, v = .edgeToEliminated (fn.block c).id ∧ fn.Stale b c := by
  cases v with
  | noEntry => exact hb.elim
  | duplicateParent id =>
    obtain ⟨p, -, hdup⟩ := hb
    exact absurd hdup (List.nodup_iff_forall_not_duplicate.mp (h.nodup b) _)
  | parentWithoutEdge id =>
    obtain ⟨p, -, hp, hp', -, hedge⟩ := hb
    exact absurd (h.edge p b hp' hlive hp) hedge
  | edgeToEliminated id =>
    obtain ⟨c, rfl, hr, hdead⟩ := hb
    exact ⟨c, rfl, hlive, hr, hdead⟩
  | unregisteredParent id =>
    obtain ⟨c, -, hr, -, hparent⟩ := hb
    exact absurd (h.parent b c hlive hr) hparent

theorem verify_cases (h : fn.Registered) {entry : BlockRef} (hentry : fn.entry = some entry) :
    (fn.verify = .ok none ∧ ∀ b ∈ fn.reachable entry, ∀ c, ¬fn.Stale b c) ∨
      ∃ b ∈ fn.reachable entry, ∃ c, fn.Stale b c ∧ fn.verify =
        .ok (some ⟨fn.name, (fn.block b).id, .edgeToEliminated (fn.block c).id⟩) := by
  have hverdict := verify_verdict hentry
  generalize fn.verify = r at hverdict ⊢
  cases hverdict with
  | fine lawful =>
    refine .inl ⟨rfl, fun b hb c hstale => ?_⟩
    have hlive := (lawful b (mem_reachable_iff.mp hb) hstale.1).live c hstale.2.1
    rw [hstale.2.2] at hlive
    cases hlive
  | missing f b listed => exact absurd listed (h.real b)
  | broken b v reached live breaks first =>
    obtain ⟨c, rfl, hstale⟩ := h.stale_of_breaks live breaks
    exact .inr ⟨b, mem_reachable_iff.mpr reached, c, hstale, rfl⟩

end Func

namespace Threading

variable {fn₀ : Func} {s t : Threading} {entry : BlockRef} {stats : Stats}

theorem Retired.not_mem_of_isLive (h : Retired s) {b : BlockRef} (hb : s.fn.isLive b = true) :
    b ∉ s.removed := by
  rw [← h.dead, (Func.isLive_iff.mp hb).2]
  simp

theorem Sound.registered (h : Sound fn₀ (fun _ _ => False) s) : s.fn.Registered where
  nodup := h.linked.nodup
  real := h.linked.real
  parent p b hp := h.linked.parent p b (h.retired.not_mem_of_isLive hp)
  edge p b hp hb hm := (h.linked.edge p b (h.retired.not_mem_of_isLive hp)
    (h.retired.not_mem_of_isLive hb) hm).resolve_right id

/-- Without rejections every edge of a reachable block leads to a live block. -/
theorem Passed.not_stale (hw : fn₀.Loaded) (h : Passed fn₀ entry stats t)
    (he : t.stats.phiRejects = stats.phiRejects) {b c : BlockRef}
    (hb : b ∈ t.fn.reachable entry) : ¬t.fn.Stale b c := by
  rintro ⟨-, hr, hdead⟩
  have hlive := h.liveEdges hw he b hb c hr
  rw [hdead] at hlive
  cases hlive

end Threading

/-! ## A pass over a loaded function -/

/-- What is left of a consistent graph after a pass: parents and edges agree in any case, so a
check finds nothing or an edge that leads to an eliminated block, and it finds nothing if no phi
nodes were rejected. A run complains of such an edge only, and only after the pass. -/
structure Checked (fn : Func) (stats : Stats) (entry : BlockRef) (w : Work) : Prop where
  applied : threadJumps.run ⟨fn, stats⟩ = (.ok (), w)
  entered : w.fn.entry = some entry
  verify_iff : w.fn.verify = .ok none ↔ ∀ b ∈ w.fn.reachable entry, ∀ c, ¬w.fn.Stale b c
  found : w.fn.verify ≠ .ok none → ∃ b ∈ w.fn.reachable entry, ∃ c, w.fn.Stale b c ∧
    w.fn.verify = .ok (some ⟨fn.name, (fn.block b).id, .edgeToEliminated (fn.block c).id⟩)
  unrejected : w.stats.phiRejects = stats.phiRejects → w.fn.verify = .ok none
  complaint : ∀ (o : Options) (out : Outputs) m p e t,
    (Run.optimize o).run { fn, stats, out } = (.error (.verify m p e), t) →
      m = .after ∧ p = Pass.jumpThreading.name ∧ w.fn.verify = .ok (some e)

theorem Func.Loaded.verify_eq_none {fn : Func} (hw : fn.Loaded) : fn.verify = .ok none := by
  obtain ⟨entry, hentry, -⟩ := hw.entry
  have hsound := Threading.sound_of_loaded hw {}
  rcases Func.verify_cases hsound.registered hentry with ⟨hnone, -⟩ | ⟨b, -, c, hstale, -⟩
  · exact hnone
  · obtain ⟨-, ⟨o, -, i, j, k, hslot⟩, hdead⟩ := hstale
    have hlive := Func.isLive_iff.mpr ⟨hw.bound o i j k c hslot, hw.live c⟩
    rw [hdead] at hlive
    cases hlive

theorem Run.optimize_complains {s t : Run} {o : Options} {w : Work} {m : Moment} {p : Text}
    {e : VerifyError} (hw : s.fn.Loaded) (happly : threadJumps.run s.toWork = (.ok (), w))
    (hrun : (optimize o).run s = (.error (.verify m p e), t)) :
    m = .after ∧ p = Pass.jumpThreading.name ∧ w.fn.verify = .ok (some e) := by
  have hhalted := (optimize_outcome (o := o) happly).2 (.verify m p e) (by rw [hrun])
  cases hhalted with
  | early _ hstops =>
    cases hstops with
    | complaint hfound =>
      rw [hw.verify_eq_none] at hfound
      cases hfound
  | late _ _ hstops =>
    cases hstops with
    | complaint hfound => exact ⟨rfl, rfl, hfound⟩

/-- The exact condition under which a pass leaves a consistent graph. -/
theorem pass_consistent_iff_no_stale_edge {path : Text} {d : Document} {st : Stats}
    {fns : List Func} {fn : Func} (hbuild : ((d.build path).run st).1 = .ok fns) (hfn : fn ∈ fns)
    (stats : Stats) : ∃ entry w, Checked fn stats entry w := by
  have hw : fn.Loaded := Document.loaded_of_ok hbuild hfn
  obtain ⟨entry, hentry, -⟩ := hw.entry
  obtain ⟨t, hrun, hpassed⟩ := Threading.threadJumps_passed hw hentry stats
  have halike := hpassed.sound.redirected.alike
  have hentry' : t.fn.entry = some entry := halike.entry.trans hentry
  have hcases := Func.verify_cases hpassed.sound.registered hentry'
  refine ⟨entry, t.toWork, hrun, hentry', ⟨fun hok => ?_, fun hfresh => ?_⟩, fun hbad => ?_,
    fun he => ?_, fun o out m p e u hcomplaint => ?_⟩
  · rcases hcases with ⟨-, hfresh⟩ | ⟨b, -, c, -, hbad⟩
    · exact hfresh
    · rw [hok] at hbad
      cases hbad
  · rcases hcases with ⟨hok, -⟩ | ⟨b, hb, c, hstale, -⟩
    · exact hok
    · exact absurd hstale (hfresh b hb c)
  · rcases hcases with ⟨hok, -⟩ | ⟨b, hb, c, hstale, hfound⟩
    · exact absurd hok hbad
    · refine ⟨b, hb, c, hstale, ?_⟩
      rw [hfound, halike.name, halike.id, halike.id]
  · rcases hcases with ⟨hok, -⟩ | ⟨b, hb, c, hstale, -⟩
    · exact hok
    · exact absurd hstale (hpassed.not_stale hw he hb)
  · exact Run.optimize_complains (s := { fn, stats, out }) hw hrun hcomplaint

/-- The phi node of `x` has no consumer in `d` until that of `y` is merged there. So the first
reference of the region to `x` is kept, and the last one eliminates `x`. -/
def lateMerge : Document where
  functions := [{
    name := "f"
    blocks := [
      { label := "e", ops := [{ kind := "try", body := "x", handlers := ["y"], last := "x" }] },
      { label := "x", phis := [{ result := "r" }], ops := [{ kind := "jump", target := "d" }] },
      { label := "y", phis := [{ result := "s", operands := ["r"] }],
        ops := [{ kind := "jump", target := "d" }] },
      { label := "d", phis := [{ result := "t", operands := ["s"] }],
        ops := [{ kind := "return" }] }] }]

def lateMergeFunc : Func where
  name := "f"
  entry := some 0
  blocks := [
    { id := 1, ops := [0] },
    { id := 2, ops := [1], phis := [0], parents := [some 0] },
    { id := 3, ops := [2], phis := [1], parents := [some 0] },
    { id := 4, ops := [3], phis := [2], parents := [some 1, some 2] }]
  ops := [.region (some 1) [some 2] (some 1), .jump (some 3), .jump (some 3), .ret none]
  phis := [⟨some 0, []⟩, ⟨some 1, [some 0]⟩, ⟨some 2, [some 1]⟩]
  values := ["r", "s", "t"]

theorem lateMerge_checked :
    ((lateMerge.build "f.yaml").run {}).1 = .ok [lateMergeFunc] ∧
      ∃ entry w, Checked lateMergeFunc {} entry w := by
  have hbuild : ((lateMerge.build "f.yaml").run {}).1 = .ok [lateMergeFunc] := by decide +kernel
  exact ⟨hbuild, pass_consistent_iff_no_stale_edge hbuild List.mem_cons_self {}⟩

/-- A pass over a loaded function need not leave a consistent graph. -/
theorem lateMerge_inconsistent :
    ((lateMerge.build "f.yaml").run {}).1 = .ok [lateMergeFunc] ∧
      ∃ w, threadJumps.run ⟨lateMergeFunc, {}⟩ = (.ok (), w) ∧
        w.fn.verify = .ok (some ⟨"f", 1, .edgeToEliminated 2⟩) ∧
        ((Run.optimize { verify := true }).run { fn := lateMergeFunc, stats := {} }).1 =
          .error (.verify .after Pass.jumpThreading.name ⟨"f", 1, .edgeToEliminated 2⟩) := by
  refine ⟨by decide +kernel, ⟨{ lateMergeFunc with
    blocks := [
      { id := 1, ops := [0] },
      { id := 2, ops := [1], dead := true, parents := [some 0] },
      { id := 3, ops := [2], dead := true, parents := [some 0] },
      { id := 4, ops := [3], phis := [2], parents := [some 0] }]
    ops := [.region (some 1) [some 3] (some 3), .jump (some 3), .jump (some 3), .ret none]
    phis := [⟨some 0, []⟩, ⟨some 1, [some 0]⟩, ⟨some 2, []⟩] },
    { eliminated := 2, phiMerges := 2, phiRejects := 1 }⟩, ?_, ?_, ?_⟩
  · cbv
  · cbv
  · cbv

end FlowGraph
