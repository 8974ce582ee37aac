import Mathlib
import FlowGraph.Proofs.Consistency
import FlowGraph.Proofs.Outcome
import FlowGraph.Proofs.Phis
import FlowGraph.Proofs.Threading.Step

/-! The counters agree with the graph. A trampoline can be passed over more than once, by the
references of different operations or by an inner and an outer call in a ring, and it can be
rejected before it is merged. Still each block is counted when it is eliminated and never again,
and with it the phi nodes that it held at the start: when a block is passed over again it is among
the removed ones and has no phi nodes left. The number that a run logs is read off the graph and
is the same. -/

namespace FlowGraph

namespace Func

variable {fn fn' : Func}

/-- The blocks that are eliminated in `fn'` and not in `fn`. -/
def newlyDead (fn fn' : Func) : List BlockRef :=
  (List.range fn.blocks.length).filter fun b => !(fn.block b).dead && (fn'.block b).dead

/-- How many phi nodes some blocks hold. -/
def phiCount (fn : Func) (bs : List BlockRef) : Nat := (bs.map fun b => (fn.block b).phis.length).sum

theorem phiCount_cons (fn : Func) (b : BlockRef) (bs : List BlockRef) :
    fn.phiCount (b :: bs) = (fn.block b).phis.length + fn.phiCount bs :=
  List.sum_cons

theorem phiCount_concat (fn : Func) (bs : List BlockRef) (b : BlockRef) :
    fn.phiCount (bs ++ [b]) = fn.phiCount bs + (fn.block b).phis.length := by
  simp [phiCount]

theorem blocks_eq_map (fn : Func) : fn.blocks = (List.range fn.blocks.length).map fn.block := by
  refine List.ext_getElem (by simp) fun i hi _ => ?_
  simp [block, List.getElem?_eq_getElem hi]

theorem length_attached (fn : Func) :
    fn.attached.length = fn.phiCount (List.range fn.blocks.length) := by
  rw [attached, List.length_flatMap, phiCount]
  nth_rewrite 1 [blocks_eq_map fn]
  rw [List.map_map]
  rfl

theorem countDead_eq (fn : Func) : fn.countDead =
    ((List.range fn.blocks.length).filter fun b => (fn.block b).dead).length := by
  rw [countDead, ← List.countP_eq_length_filter]
  nth_rewrite 1 [blocks_eq_map fn]
  rw [List.countP_map]
  rfl

/-- Blocks that lose their phi nodes take them from the total. -/
theorem phiCount_add_filter {lost : BlockRef → Bool}
    (h : ∀ b, (fn'.block b).phis = if lost b then [] else (fn.block b).phis) (bs : List BlockRef) :
    fn'.phiCount bs + fn.phiCount (bs.filter lost) = fn.phiCount bs := by
  induction bs with
  | nil => rfl
  | cons b bs ih =>
    rw [phiCount_cons, phiCount_cons, h b]
    cases hlost : lost b with
    | true =>
      rw [List.filter_cons_of_pos hlost, phiCount_cons, if_pos rfl, List.length_nil]
      omega
    | false =>
      rw [List.filter_cons_of_neg (by simp [hlost]), if_neg (by simp)]
      omega

end Func

namespace Threading

variable {R : BlockRef → Prop} {fn fn' : Func} {stats : Stats} {s t : Threading}
  {b c dest : BlockRef} {bb : Option BlockRef}

/-- Every removed block is counted once, with the phi nodes that it held in `fn`. -/
structure Counted (fn : Func) (stats : Stats) (s : Threading) : Prop where
  nodup : s.removed.Nodup
  phis : ∀ b, (s.fn.block b).phis = if b ∈ s.removed then [] else (fn.block b).phis
  eliminated : s.stats.eliminated = stats.eliminated + s.removed.length
  phiMerges : s.stats.phiMerges = stats.phiMerges + fn.phiCount s.removed

theorem counted_start (fn : Func) (stats : Stats) : Counted fn stats { fn, stats } where
  nodup := List.nodup_nil
  phis _ := rfl
  eliminated := rfl
  phiMerges := rfl

theorem bypassed_phis (s : Threading) (fn : Func) (bb : Option BlockRef) (b dest c : BlockRef) :
    ((bypassed s fn bb b dest).fn.block c).phis = (fn.block c).phis := by
  simp only [bypassed, Func.phis_addParent, Func.phis_removeParent]
  split
  · rfl
  · rw [Func.block_modifyBlock]
    split <;> rfl

theorem mem_removed_bypassed :
    c ∈ (bypassed s fn' bb b dest).removed ↔ c ∈ s.removed ∨ c = b := by
  by_cases hb : b ∈ s.removed
  · simp only [bypassed, if_pos hb]
    exact ⟨.inl, fun h => h.elim id (· ▸ hb)⟩
  · simp [bypassed, hb]

theorem Counted.bypass (h : Counted fn stats s) (hmerged : Merged b s.fn fn') :
    Counted fn stats (bypassed s fn' bb b dest) := by
  have hphis : ∀ c, ((bypassed s fn' bb b dest).fn.block c).phis =
      if c ∈ (bypassed s fn' bb b dest).removed then [] else (fn.block c).phis := by
    intro c
    rw [bypassed_phis, hmerged.phis, h.phis]
    simp only [mem_removed_bypassed]
    by_cases hc : c = b <;> simp [hc]
  by_cases hb : b ∈ s.removed
  · -- passed over again: nothing is left to count
    have hnone : (s.fn.block b).phis = [] := by rw [h.phis, if_pos hb]
    refine ⟨?_, hphis, ?_, ?_⟩
    · simpa [bypassed, hb] using h.nodup
    · simpa [bypassed, hb] using h.eliminated
    · simpa [bypassed, hb, hnone] using h.phiMerges
  · have hheld : (s.fn.block b).phis = (fn.block b).phis := by rw [h.phis, if_neg hb]
    refine ⟨?_, hphis, ?_, ?_⟩
    · simpa [bypassed, hb] using h.nodup.concat hb
    · simp [bypassed, hb, h.eliminated, Nat.add_assoc]
    · simp [bypassed, hb, h.phiMerges, hheld, Func.phiCount_concat, Nat.add_assoc]

theorem Step.counted (hstep : Step R s t) (h : Counted fn stats s) : Counted fn stats t := by
  cases hstep with
  | loop => exact ⟨h.nodup, h.phis, h.eliminated, h.phiMerges⟩
  | reject => exact ⟨h.nodup, h.phis, h.eliminated, h.phiMerges⟩
  | bypass _ hn _ hm => exact h.bypass (mergePhis_merged hm (Func.lt_of_next hn))
  | shortCircuit =>
    refine ⟨h.nodup, fun b => ?_, h.eliminated, h.phiMerges⟩
    rw [Func.phis_addParent]
    exact h.phis b
  | store => exact ⟨h.nodup, h.phis, h.eliminated, h.phiMerges⟩

theorem Steps.counted (hsteps : Steps R { fn, stats } t) : Counted fn stats t := by
  induction hsteps with
  | refl => exact counted_start fn stats
  | tail _ hstep ih => exact hstep.counted ih

/-! ## Totals

Nothing is eliminated at the start, so what was removed is what is eliminated at the end. -/

section

variable (hlive : ∀ b, (fn.block b).dead = false) (hretired : Retired t)
include hlive hretired

theorem newlyDead_iff : (!(fn.block b).dead && (t.fn.block b).dead) = true ↔ b ∈ t.removed := by
  rw [← hretired.dead, hlive]
  simp

theorem Counted.removed_perm (h : Counted fn stats t)
    (hsize : t.fn.blocks.length = fn.blocks.length) : t.removed.Perm (fn.newlyDead t.fn) := by
  have hnodup : (fn.newlyDead t.fn).Nodup := List.nodup_range.filter _
  refine (List.perm_ext_iff_of_nodup h.nodup hnodup).mpr fun b => ?_
  rw [Func.newlyDead, List.mem_filter, newlyDead_iff hlive hretired, List.mem_range, ← hsize]
  refine ⟨fun hb => ⟨?_, hb⟩, And.right⟩
  by_contra hge
  have hdead := (hretired.dead b).mpr hb
  simp [Func.block, List.getElem?_eq_none (Nat.le_of_not_lt hge)] at hdead

theorem Counted.attached (h : Counted fn stats t)
    (hsize : t.fn.blocks.length = fn.blocks.length) :
    t.fn.attached.length + fn.phiCount (fn.newlyDead t.fn) = fn.attached.length := by
  rw [Func.length_attached, Func.length_attached, hsize]
  refine Func.phiCount_add_filter (fun b => ?_) _
  rw [h.phis]
  exact if_congr (newlyDead_iff hlive hretired).symm rfl rfl

end

theorem countDead_eq_add (hlive : ∀ b, (fn.block b).dead = false)
    (hsize : fn'.blocks.length = fn.blocks.length) :
    fn'.countDead = fn.countDead + (fn.newlyDead fn').length := by
  rw [Func.countDead_eq, Func.countDead_eq, hsize, Func.newlyDead]
  simp [hlive]

end Threading

/-! ## A pass over a loaded function -/

/-- The run logs that `n` blocks were eliminated, whether it returns or not, or it ends before the
pass, because a dump fails, and has dumped only. -/
abbrev Run.Reports (o : Options) (name : Text) (w : Work) (n : Int) (x : M Unit) (s : Run) : Prop :=
  Outcome x s (fun _ t => Logged o name w n s t) fun e t => Logged o name w n s t ∨
    (e = .dump .before name ∧ o.dumpsBefore name = true ∧ Kept s t)

theorem Run.optimize_reports {s : Run} {o : Options} {w : Work} {n : Int} (hw : s.fn.Loaded)
    (hp : threadJumps.run s.toWork = (.ok (), w))
    (hn : (w.fn.countDead - s.fn.countDead : Int) = n) :
    Reports o Pass.jumpThreading.name w n (optimize o) s := by
  subst hn
  refine (optimize_outcome hp).mono (fun _ t ht => ht.2) fun e t he => ?_
  cases he with
  | late _ hlogged _ => exact .inl hlogged
  | fault hr _ => cases hr
  | early hkept hstops =>
    cases hstops with
    | lost hdump => exact .inr ⟨rfl, hdump rfl, hkept⟩
    | dump hf =>
      obtain ⟨entry, hentry, -⟩ := hw.entry
      simp [Func.dump, hentry] at hf
    | check hf => simp [hw.verify_eq_none] at hf
    | complaint he => simp [hw.verify_eq_none] at he

/-- How counters, log and removed blocks account for a pass that leads to `t`. -/
structure Accounted (fn : Func) (stats : Stats) (t : Threading) : Prop where
  threaded : Threading.run.run { fn, stats } = (.ok (), t)
  applied : threadJumps.run ⟨fn, stats⟩ = (.ok (), t.toWork)
  removed : t.removed.Perm (fn.newlyDead t.fn)
  eliminated : t.stats.eliminated = stats.eliminated + (fn.newlyDead t.fn).length
  phiMerges : t.stats.phiMerges = stats.phiMerges + fn.phiCount (fn.newlyDead t.fn)
  attached : t.fn.attached.length + fn.phiCount (fn.newlyDead t.fn) = fn.attached.length
  reported : ∀ (o : Options) (out : Outputs), Run.Reports o Pass.jumpThreading.name t.toWork
    (fn.newlyDead t.fn).length (Run.optimize o) { fn, stats, out }

/-- The counters, the log and the removed blocks all tell what a pass did to the graph. -/
theorem statistics_agree_with_graph {path : Text} {d : Document} {st : Stats} {fns : List Func}
    {fn : Func} (hbuild : ((d.build path).run st).1 = .ok fns) (hfn : fn ∈ fns) (stats : Stats) :
    ∃ t, Accounted fn stats t := by
  have hw : fn.Loaded := Document.loaded_of_ok hbuild hfn
  obtain ⟨entry, hentry, -⟩ := hw.entry
  obtain ⟨t, hrun, hpassed, hsteps⟩ := Threading.run_steps hw hentry stats
  have hcounted : Threading.Counted fn stats t :=
    (hsteps (fun _ => True) (fun _ _ _ _ => trivial) trivial).counted
  have halike := hpassed.sound.redirected.alike
  have hretired := hpassed.sound.retired
  have hperm := hcounted.removed_perm hw.live hretired halike.blocks
  have happlied := Threading.threadJumps_run hrun
  refine ⟨t, hrun, happlied, hperm, ?_, ?_, hcounted.attached hw.live hretired halike.blocks, ?_⟩
  · rw [hcounted.eliminated, hperm.length_eq]
  · rw [hcounted.phiMerges, Func.phiCount, (hperm.map _).sum_eq, Func.phiCount]
  · intro o out
    have hcount := Threading.countDead_eq_add hw.live halike.blocks
    refine Run.optimize_reports hw happlied ?_
    show (t.fn.countDead : Int) - fn.countDead = _
    omega

/-- A ring of `x` and `y`, each of which has a phi node that uses the other's, so `x` is passed
over by an inner and an outer call; and a trampoline `w` that is rejected. -/
def phiRing : Document where
  functions := [{
    name := "f"
    blocks := [
      { label := "e", ops := [{ kind := "try", body := "x", handlers := ["w"], last := "y" }] },
      { label := "x", phis := [{ result := "r", operands := ["s"] }],
        ops := [{ kind := "jump", target := "y" }] },
      { label := "y", phis := [{ result := "s", operands := ["r"] }],
        ops := [{ kind := "jump", target := "x" }] },
      { label := "w", phis := [{ result := "u" }], ops := [{ kind := "jump", target := "d" }] },
      { label := "d", ops := [{ kind := "return" }] }] }]

def phiRingFunc : Func where
  name := "f"
  entry := some 0
  blocks := [
    { id := 1, ops := [0] },
    { id := 2, ops := [1], phis := [0], parents := [some 0, some 2] },
    { id := 3, ops := [2], phis := [1], parents := [some 0, some 1] },
    { id := 4, ops := [3], phis := [2], parents := [some 0] },
    { id := 5, ops := [4], parents := [some 3] }]
  ops := [.region (some 1) [some 3] (some 2), .jump (some 2), .jump (some 1), .jump (some 4),
    .ret none]
  phis := [⟨some 0, [some 1]⟩, ⟨some 1, [some 0]⟩, ⟨some 2, []⟩]
  values := ["r", "s", "u"]

theorem phiRing_accounted :
    ((phiRing.build "f.yaml").run {}).1 = .ok [phiRingFunc] ∧
      (threadJumps.run ⟨phiRingFunc, {}⟩).2.stats =
        { eliminated := 1, phiMerges := 1, phiRejects := 1, selfLoops := 4 } ∧
      ∃ t, Accounted phiRingFunc {} t := by
  have hbuild : ((phiRing.build "f.yaml").run {}).1 = .ok [phiRingFunc] := by decide +kernel
  refine ⟨hbuild, by cbv, statistics_agree_with_graph hbuild List.mem_cons_self {}⟩

end FlowGraph
