import Mathlib
import FlowGraph.Proofs.Reachability
import FlowGraph.Proofs.ValueFlow

/-! Uses and definitions of values. A pass brings no new use into a reachable block, and a
definition stays with its block unless the block is passed over. What is given up then is known:
the operations behind the jump of an eliminated block, the blocks that only they refer to, and the
phi nodes of an eliminated block, which matters where a result is used more than once. -/

namespace FlowGraph

open Relation

namespace Op

/-- The values that an operation reads. -/
def uses : Op → List (Option ValueRef)
  | branch c .. => [c]
  | switch c .. => [c]
  | expr _ _ args => args
  | ret v => [v]
  | jump _ | region .. | foreign .. => []

/-- The values that an operation computes. -/
def results : Op → List (Option ValueRef)
  | expr _ r _ => [r]
  | _ => []

variable {op op' : Op}

theorem uses_of_blank (h : op'.blank = op.blank) : op'.uses = op.uses := by
  cases op <;> cases op' <;> simp_all [blank, uses]

theorem results_of_blank (h : op'.blank = op.blank) : op'.results = op.results := by
  cases op <;> cases op' <;> simp_all [blank, results]

end Op

namespace Func

variable {fn fn' : Func} {R : BlockRef → Prop} {b : BlockRef} {q : PhiRef} {v : Option ValueRef}

def phiUses (fn : Func) (b : BlockRef) : List (Option ValueRef) :=
  (fn.block b).phis.flatMap fun p => (fn.phi p).operands

def opUses (fn : Func) (b : BlockRef) : List (Option ValueRef) :=
  (fn.block b).ops.flatMap fun o => (fn.op o).uses

/-- The values that a block uses: operands of phi nodes, conditions, arguments and what is
returned. -/
def uses (fn : Func) (b : BlockRef) : List (Option ValueRef) := fn.phiUses b ++ fn.opUses b

def phiResults (fn : Func) (b : BlockRef) : List (Option ValueRef) :=
  (fn.block b).phis.map fun p => (fn.phi p).result

def opResults (fn : Func) (b : BlockRef) : List (Option ValueRef) :=
  (fn.block b).ops.flatMap fun o => (fn.op o).results

/-- The values that a block defines. -/
def defs (fn : Func) (b : BlockRef) : List (Option ValueRef) := fn.phiResults b ++ fn.opResults b

/-- Every value that a reachable block uses is defined in a reachable block. -/
def UsesDefined (fn : Func) (entry : BlockRef) : Prop :=
  ∀ b ∈ fn.reachable entry, ∀ v ∈ fn.uses b, v ≠ none → ∃ d ∈ fn.reachable entry, v ∈ fn.defs d

theorem Alike.opUses (h : Alike fn fn') (b : BlockRef) : fn'.opUses b = fn.opUses b := by
  simp only [Func.opUses, h.blockOps, fun o => Op.uses_of_blank (h.blank o)]

theorem Alike.opResults (h : Alike fn fn') (b : BlockRef) : fn'.opResults b = fn.opResults b := by
  simp only [Func.opResults, h.blockOps, fun o => Op.results_of_blank (h.blank o)]

/-- The phi node `q` stands in a block of `R` and has the value as an operand. -/
def PhiUser (fn : Func) (R : BlockRef → Prop) (v : Option ValueRef) (q : PhiRef) : Prop :=
  ∃ b, R b ∧ q ∈ (fn.block b).phis ∧ v ∈ (fn.phi q).operands

theorem mem_phiUses : v ∈ fn.phiUses b ↔ ∃ q ∈ (fn.block b).phis, v ∈ (fn.phi q).operands :=
  List.mem_flatMap

theorem SamePhis.phiUser (h : SamePhis fn fn') : fn'.PhiUser R v q ↔ fn.PhiUser R v q := by
  simp only [PhiUser, h.lists, h.phi]

/-- At most one phi node of `R` uses the value. -/
def SinglePhiUser (fn : Func) (R : BlockRef → Prop) (v : Option ValueRef) : Prop :=
  ∀ p q, fn.PhiUser R v p → fn.PhiUser R v q → p = q

/-- In reachable blocks at most one phi node and no operation uses the value. -/
def UsedOnce (fn : Func) (entry : BlockRef) (v : Option ValueRef) : Prop :=
  fn.SinglePhiUser (· ∈ fn.reachable entry) v ∧ ∀ b ∈ fn.reachable entry, v ∉ fn.opUses b

/-- How the definition of a value in block `d` can get lost by a pass from `fn` to `fn'`. -/
inductive Discards (fn fn' : Func) (entry d : BlockRef) (v : Option ValueRef) : Prop
  /-- Every path to `d` takes a reference behind the jump of an eliminated block. -/
  | cut : ¬ReflTransGen (fn.KeepsEdge fn' entry) entry d → Discards fn fn' entry d v
  /-- The value is computed behind the jump of an eliminated block. -/
  | op : (fn'.block d).dead = true → d ≠ entry → v ∈ fn.opResults d → Discards fn fn' entry d v
  /-- A phi node of an eliminated block gives the value, and it has a second use. -/
  | phi : (fn'.block d).dead = true → v ∈ fn.phiResults d → ¬fn.UsedOnce entry v →
      Discards fn fn' entry d v

end Func

namespace Threading

variable {R : BlockRef → Prop} {s t : Threading} {fn fn' : Func} {b d dest entry : BlockRef}
  {p q : PhiRef} {v : Option ValueRef} {stats : Stats}

/-! ## Phi nodes as users -/

/-- A phi node that uses a value did so before, or it took up one that did. -/
theorem Handed.phiUser (h : Handed b dest fn fn') (hp : fn.Placed) (hb : R b)
    (hq : fn'.PhiUser R v q) : q ∉ (fn.block b).phis ∧
      ((fn.PhiUser R v q ∧ ∀ p ∈ takenBy fn b dest q, v ≠ (fn.phi p).result) ∨
        ∃ p ∈ takenBy fn b dest q, fn.PhiUser R v p) := by
  obtain ⟨c, hc, hqc, hv⟩ := hq
  obtain ⟨hcb, hqc⟩ := h.mem_lists.mp hqc
  refine ⟨fun hqb => hcb (hp.home c b q hqc hqb), ?_⟩
  rcases h.mem_operands hp hv with ⟨hv, hne⟩ | ⟨p, hpt, hv⟩
  · exact .inl ⟨⟨c, hc, hqc, hv⟩, hne⟩
  · exact .inr ⟨p, hpt, b, hb, (mem_takenBy.mp hpt).1, hv⟩

/-- A single user stays single: if it is taken up, then by one phi node. -/
theorem Handed.singlePhiUser (h : Handed b dest fn fn') (hp : fn.Placed) (hb : R b)
    (hs : fn.SinglePhiUser R v) : fn'.SinglePhiUser R v := by
  intro q q' hq hq'
  obtain ⟨hqb, hq⟩ := h.phiUser hp hb hq
  obtain ⟨hqb', hq'⟩ := h.phiUser hp hb hq'
  rcases hq with ⟨hq, -⟩ | ⟨p, hpt, hpu⟩ <;> rcases hq' with ⟨hq', -⟩ | ⟨p', hpt', hpu'⟩
  · exact hs q q' hq hq'
  · exact absurd (hs q p' hq hpu' ▸ (mem_takenBy.mp hpt').1) hqb
  · exact absurd (hs q' p hq' hpu ▸ (mem_takenBy.mp hpt).1) hqb'
  · obtain rfl := hs p p' hpu hpu'
    exact Option.some.inj ((mem_takenBy.mp hpt).2.symm.trans (mem_takenBy.mp hpt').2)

/-- The phi node that gave the value went into its single user, which uses it no longer. -/
theorem Handed.not_phiUser (h : Handed b dest fn fn') (hp : fn.Placed) (hb : R b) (hdest : R dest)
    (hs : fn.SinglePhiUser R v) (hpb : p ∈ (fn.block b).phis) (hpv : (fn.phi p).result = v) :
    ¬fn'.PhiUser R v q := by
  intro hq
  obtain ⟨c, hc⟩ := h.consumer p hpb
  obtain ⟨hcd, hcv⟩ := mem_of_findPhiUsing hc
  have hcu : fn.PhiUser R v c := ⟨dest, hdest, hcd, hpv ▸ hcv⟩
  obtain ⟨-, ⟨hq, hne⟩ | ⟨p', hpt, hpu⟩⟩ := h.phiUser hp hb hq
  · obtain rfl := hs c q hcu hq
    exact hne p (mem_takenBy.mpr ⟨hpb, hc⟩) hpv.symm
  · obtain rfl := hs c p' hcu hpu
    exact h.distinct (hp.home dest b c hcd (mem_takenBy.mp hpt).1)

/-- No step brings a use into the region. -/
theorem Step.phiUser_of (h : Step R s t) (hp : s.fn.Placed) (hq : t.fn.PhiUser R v q) :
    ∃ p, s.fn.PhiUser R v p := by
  rcases h.cases_phis hp with hsame | ⟨b, dest, hb, -, -, hhanded⟩
  · exact ⟨q, hsame.phiUser.mp hq⟩
  · rcases (hhanded.phiUser hp hb hq).2 with ⟨hq, -⟩ | ⟨p, -, hpu⟩
    · exact ⟨q, hq⟩
    · exact ⟨p, hpu⟩

theorem Steps.phiUser_of (h : Steps R s t) (hp : s.fn.Placed) (hq : t.fn.PhiUser R v q) :
    ∃ p, s.fn.PhiUser R v p := by
  induction h generalizing q with
  | refl => exact ⟨q, hq⟩
  | tail hsteps hstep ih =>
    obtain ⟨p, hpu⟩ := hstep.phiUser_of (Steps.placed hsteps hp) hq
    exact ih hpu

/-- Of a value with a single user, either the phi node that gives it is still there or no phi node
uses it any more. -/
theorem Step.singlePhiUser (h : Step R s t) (hr : Region R s.fn) (hp : s.fn.Placed)
    (hs : s.fn.SinglePhiUser R v) (hpv : (s.fn.phi p).result = v)
    (hpd : p ∈ (s.fn.block d).phis ∨ ∀ q, ¬s.fn.PhiUser R v q) :
    t.fn.SinglePhiUser R v ∧ (p ∈ (t.fn.block d).phis ∨ ∀ q, ¬t.fn.PhiUser R v q) := by
  rcases h.cases_phis hp with hsame | ⟨b, dest, hb, hn, -, hhanded⟩
  · refine ⟨fun q q' hq hq' => hs q q' (hsame.phiUser.mp hq) (hsame.phiUser.mp hq'), ?_⟩
    rw [hsame.lists]
    exact hpd.imp_right fun hnone q hq => hnone q (hsame.phiUser.mp hq)
  · refine ⟨hhanded.singlePhiUser hp hb hs, ?_⟩
    rcases hpd with hpd | hnone
    · rw [hhanded.mem_lists]
      by_cases hd : d = b
      · subst hd
        have hdest : R dest := hr d hb dest (Func.refers_of_next hn)
        exact .inr fun q => hhanded.not_phiUser hp hb hdest hs hpd hpv
      · exact .inl ⟨hd, hpd⟩
    · refine .inr fun q hq => ?_
      obtain ⟨q', hq'⟩ := h.phiUser_of hp hq
      exact hnone q' hq'

theorem Steps.singlePhiUser (h : Steps R s t) (hr : Region R s.fn) (hp : s.fn.Placed)
    (hs : s.fn.SinglePhiUser R v) (hpv : (s.fn.phi p).result = v)
    (hpd : p ∈ (s.fn.block d).phis) :
    t.fn.SinglePhiUser R v ∧ (p ∈ (t.fn.block d).phis ∨ ∀ q, ¬t.fn.PhiUser R v q) := by
  induction h with
  | refl => exact ⟨hs, .inl hpd⟩
  | tail hsteps hstep ih =>
    refine hstep.singlePhiUser (Steps.region hsteps hr) (Steps.placed hsteps hp) ih.1 ?_ ih.2
    rw [Steps.result hsteps hp]
    exact hpv

/-! ## Uses and definitions after a pass -/

theorem region_reachable (hw : fn.Loaded) : Region (· ∈ fn.reachable entry) fn :=
  fun _ hb _ hr => (liveEdges_of_loaded hw).closed hb (.single hr)

section

variable (hw : fn.Loaded) (hplaced : fn.Placed) (hpassed : Passed fn entry stats t)
  (hsteps : Steps (· ∈ fn.reachable entry) { fn, stats } t)

include hw hplaced hpassed hsteps

theorem Passed.use_of (hb : b ∈ t.fn.reachable entry) (hv : v ∈ t.fn.uses b) :
    ∃ c ∈ fn.reachable entry, v ∈ fn.uses c := by
  have hred := hpassed.sound.redirected
  have hb₀ := hred.reachable_subset hw hb
  rcases List.mem_append.mp hv with hv | hv
  · obtain ⟨q, hq, hv⟩ := Func.mem_phiUses.mp hv
    obtain ⟨p, c, hc, hpc, hpv⟩ := Steps.phiUser_of hsteps hplaced ⟨b, hb₀, hq, hv⟩
    exact ⟨c, hc, List.mem_append_left _ (Func.mem_phiUses.mpr ⟨p, hpc, hpv⟩)⟩
  · rw [hred.alike.opUses] at hv
    exact ⟨b, hb₀, List.mem_append_right _ hv⟩

/-- A value that is given up by a phi node and has a single use is not used any more. -/
theorem Passed.not_usedOnce (hb : b ∈ t.fn.reachable entry) (hv : v ∈ t.fn.uses b)
    (hd : d ∈ t.removed) (hdv : v ∈ fn.phiResults d) : ¬fn.UsedOnce entry v := by
  intro ⟨hsingle, hops⟩
  have hred := hpassed.sound.redirected
  have hb₀ := hred.reachable_subset hw hb
  rcases List.mem_append.mp hv with hv | hv
  · obtain ⟨q, hq, hv⟩ := Func.mem_phiUses.mp hv
    obtain ⟨p, hpd, hpv⟩ := List.mem_map.mp hdv
    have hgone := (Steps.singlePhiUser hsteps (region_reachable hw) hplaced hsingle hpv hpd).2
    rcases hgone with hpd' | hnone
    · rw [hpassed.sound.retired.phis d hd] at hpd'
      cases hpd'
    · exact hnone q ⟨b, hb₀, hq, hv⟩
  · rw [hred.alike.opUses] at hv
    exact hops b hb₀ hv

/-- A definition of a value that is still used stays where it was or is given up. -/
theorem Passed.definition (hlive : t.fn.LiveEdges entry) (hb : b ∈ t.fn.reachable entry)
    (hv : v ∈ t.fn.uses b) (hdv : v ∈ fn.defs d) :
    (d ∈ t.fn.reachable entry ∧ v ∈ t.fn.defs d) ∨ fn.Discards t.fn entry d v := by
  have hsound := hpassed.sound
  have hops := hsound.redirected.alike.opResults d
  by_cases hpath : ReflTransGen (fn.KeepsEdge t.fn entry) entry d
  · by_cases hd : d ∈ t.removed
    · have hdead := (hsound.retired.dead d).mpr hd
      rcases List.mem_append.mp hdv with hdv | hdv
      · exact .inr (.phi hdead hdv (hpassed.not_usedOnce hw hplaced hsteps hb hv hd hdv))
      · by_cases hentry : d = entry
        · subst hentry
          exact .inl ⟨Func.entry_mem_reachable _ _, List.mem_append_right _ (hops ▸ hdv)⟩
        · exact .inr (.op hdead hentry hdv)
    · refine .inl ⟨?_, ?_⟩
      · rw [hlive.mem_reachable_iff]
        exact hsound.path_contracts hw hlive (Func.entry_mem_reachable _ entry) hd hpath
      · have hlist := (Steps.lists hsteps hplaced d).resolve_right hd
        have hphis : t.fn.phiResults d = fn.phiResults d := by
          simp only [Func.phiResults, hlist, Steps.result hsteps hplaced]
        rw [Func.defs, hphis, hops]
        exact hdv
  · exact .inr (.cut hpath)

end

end Threading

/-- After a pass that leaves no edge to an eliminated block, in particular after one without
rejections, every value used in a reachable block is defined in one, unless its definitions stood
behind jumps of eliminated blocks or were phi nodes whose results had a second use. -/
theorem pass_keeps_definitions {path : Text} {d : Document} {st : Stats} {fns : List Func}
    {fn : Func} (hbuild : ((d.build path).run st).1 = .ok fns) (hfn : fn ∈ fns) (stats : Stats) :
    ∃ entry w, fn.entry = some entry ∧ w.fn.entry = some entry ∧
      threadJumps.run ⟨fn, stats⟩ = (.ok (), w) ∧
      (w.stats.phiRejects = stats.phiRejects → w.fn.LiveEdges entry) ∧
      (fn.UsesDefined entry → w.fn.LiveEdges entry →
        ∀ b ∈ w.fn.reachable entry, ∀ v ∈ w.fn.uses b, v ≠ none →
          (∃ d ∈ w.fn.reachable entry, v ∈ w.fn.defs d) ∨
          ((∃ d ∈ fn.reachable entry, v ∈ fn.defs d) ∧
            ∀ d ∈ fn.reachable entry, v ∈ fn.defs d → fn.Discards w.fn entry d v)) := by
  have hw : fn.Loaded := Document.loaded_of_ok hbuild hfn
  have hplaced : fn.Placed := Document.placed_of_ok hbuild hfn
  obtain ⟨entry, hentry, -⟩ := hw.entry
  obtain ⟨t, hrun, hpassed, hall⟩ := Threading.threadJumps_steps hw hentry stats
  have hsteps : Threading.Steps (· ∈ fn.reachable entry) { fn, stats } t :=
    hall _ (Threading.region_reachable hw) (Func.entry_mem_reachable fn entry)
  refine ⟨entry, t.toWork, hentry, hpassed.sound.redirected.alike.entry.trans hentry, hrun,
    hpassed.liveEdges hw, fun hdefined hlive b hb v hv hne => ?_⟩
  obtain ⟨c, hc, hcv⟩ := hpassed.use_of hw hplaced hsteps hb hv
  by_cases hkept : ∃ d ∈ t.fn.reachable entry, v ∈ t.fn.defs d
  · exact .inl hkept
  · refine .inr ⟨hdefined c hc v hcv hne, fun d _ hdv => ?_⟩
    refine (hpassed.definition hw hplaced hsteps hlive hb hv hdv).resolve_left fun hd => ?_
    exact hkept ⟨d, hd⟩

theorem mergeLoop_definitions :
    ((mergeLoop.build "f.yaml").run {}).1 = .ok [mergeLoopFunc] ∧ mergeLoopFunc.UsesDefined 0 ∧
      ∃ w, threadJumps.run ⟨mergeLoopFunc, {}⟩ = (.ok (), w) ∧ w.fn.LiveEdges 0 ∧
        ∀ b ∈ w.fn.reachable 0, ∀ v ∈ w.fn.uses b, v ≠ none →
          (∃ d ∈ w.fn.reachable 0, v ∈ w.fn.defs d) ∨
          ((∃ d ∈ mergeLoopFunc.reachable 0, v ∈ mergeLoopFunc.defs d) ∧
            ∀ d ∈ mergeLoopFunc.reachable 0, v ∈ mergeLoopFunc.defs d →
              mergeLoopFunc.Discards w.fn 0 d v) := by
  have hbuild : ((mergeLoop.build "f.yaml").run {}).1 = .ok [mergeLoopFunc] := by decide +kernel
  have hreach : mergeLoopFunc.reachable 0 = [0, 1, 3, 2, 4] := by cbv
  have hdefined : mergeLoopFunc.UsesDefined 0 := by
    unfold Func.UsesDefined
    rw [hreach]
    decide
  have hrejects : (threadJumps.run ⟨mergeLoopFunc, {}⟩).2.stats.phiRejects = 0 := by cbv
  obtain ⟨entry, w, hentry, -, hrun, hlive, hkept⟩ :=
    pass_keeps_definitions hbuild List.mem_cons_self {}
  cases hentry
  rw [hrun] at hrejects
  exact ⟨hbuild, hdefined, w, hrun, hlive hrejects, hkept hdefined (hlive hrejects)⟩

/-! ## Definitions that get lost -/

/-- A trampoline that computes a value behind its jump and refers there to a block that computes
another. -/
def behindJump : Document where
  functions := [{
    name := "f"
    blocks := [
      { label := "e", ops := [{ kind := "jumpif", onTrue := "b", onFalse := "d" }] },
      { label := "b"
        ops := [
          { kind := "jump", target := "d" },
          { kind := "expr", name := "g", result := "r" },
          { kind := "jumpif", onTrue := "z" }] },
      { label := "z", ops := [{ kind := "expr", name := "g", result := "s" }] },
      { label := "d", ops := [{ kind := "expr", name := "h", args := ["r", "s"] }] }] }]

def behindJumpFunc : Func where
  name := "f"
  entry := some 0
  blocks := [
    { id := 1, ops := [0] },
    { id := 2, ops := [1, 2, 3], parents := [some 0] },
    { id := 3, ops := [4], parents := [some 1] },
    { id := 4, ops := [5], parents := [some 0, some 1] }]
  ops := [.branch none (some 1) (some 3), .jump (some 3), .expr "g" (some 0) [],
    .branch none (some 2) none, .expr "g" (some 1) [], .expr "h" none [some 0, some 1]]
  values := ["r", "s"]

/-- A trampoline whose phi node goes into a phi node of the destination, while another operation
there uses its result too. -/
def secondUse : Document where
  functions := [{
    name := "f"
    blocks := [
      { label := "e", ops := [{ kind := "jumpif", onTrue := "b", onFalse := "d" }] },
      { label := "b", phis := [{ result := "r" }], ops := [{ kind := "jump", target := "d" }] },
      { label := "d", phis := [{ result := "t", operands := ["r"] }],
        ops := [{ kind := "return", value := "r" }] }] }]

def secondUseFunc : Func where
  name := "f"
  entry := some 0
  blocks := [
    { id := 1, ops := [0] },
    { id := 2, ops := [1], phis := [0], parents := [some 0] },
    { id := 3, ops := [2], phis := [1], parents := [some 0, some 1] }]
  ops := [.branch none (some 1) (some 2), .jump (some 2), .ret (some 0)]
  phis := [⟨some 0, []⟩, ⟨some 1, [some 0]⟩]
  values := ["r", "t"]

/-- A trampoline that is rejected when the entry is threaded and eliminated later on, so that the
edge of the entry leads nowhere. -/
def lateCut : Document where
  functions := [{
    name := "f"
    blocks := [
      { label := "e", ops := [{ kind := "jumpif", cond := "t", onTrue := "x" }] },
      { label := "x", phis := [{ result := "r" }], ops := [{ kind := "jump", target := "d" }] },
      { label := "y", phis := [{ result := "s", operands := ["r"] }],
        ops := [{ kind := "jump", target := "d" }] },
      { label := "d", phis := [{ result := "t", operands := ["s"] }],
        ops := [{ kind := "jumpif", onTrue := "y", onFalse := "x" }] }] }]

def lateCutFunc : Func where
  name := "f"
  entry := some 0
  blocks := [
    { id := 1, ops := [0] },
    { id := 2, ops := [1], phis := [0], parents := [some 0, some 3] },
    { id := 3, ops := [2], phis := [1], parents := [some 3] },
    { id := 4, ops := [3], phis := [2], parents := [some 1, some 2] }]
  ops := [.branch (some 0) (some 1) none, .jump (some 3), .jump (some 3),
    .branch none (some 2) (some 1)]
  phis := [⟨some 1, []⟩, ⟨some 2, [some 1]⟩, ⟨some 0, [some 2]⟩]
  values := ["t", "r", "s"]

/-- A pass over the function of a document leaves a use without a definition. -/
def LosesDefinition (d : Document) (fn : Func) : Prop :=
  ((d.build "f.yaml").run {}).1 = .ok [fn] ∧ fn.entry = some 0 ∧ fn.UsesDefined 0 ∧
    ∃ w, threadJumps.run ⟨fn, {}⟩ = (.ok (), w) ∧ ¬w.fn.UsesDefined 0

/-- It is enough to know which blocks are reachable before and after the pass. -/
theorem LosesDefinition.of_reachable {d : Document} {fn : Func} (w : Work)
    (before after : List BlockRef) (hbuild : ((d.build "f.yaml").run {}).1 = .ok [fn])
    (hentry : fn.entry = some 0) (hrun : threadJumps.run ⟨fn, {}⟩ = (.ok (), w))
    (hbefore : fn.reachable 0 = before) (hafter : w.fn.reachable 0 = after)
    (huses : ∀ b ∈ before, ∀ v ∈ fn.uses b, v ≠ none → ∃ d ∈ before, v ∈ fn.defs d)
    (hlost : ∃ b ∈ after, ∃ v ∈ w.fn.uses b, v ≠ none ∧ ∀ d ∈ after, v ∉ w.fn.defs d) :
    LosesDefinition d fn := by
  subst hbefore hafter
  obtain ⟨b, hb, v, hv, hne, hdefs⟩ := hlost
  refine ⟨hbuild, hentry, huses, w, hrun, fun h => ?_⟩
  obtain ⟨d, hd, hdv⟩ := h b hb v hv hne
  exact hdefs d hd hdv

theorem definitions_lost : LosesDefinition behindJump behindJumpFunc ∧
    LosesDefinition secondUse secondUseFunc ∧ LosesDefinition lateCut lateCutFunc := by
  refine ⟨?_, ?_, ?_⟩
  · refine .of_reachable ⟨{ behindJumpFunc with
      blocks := [
        { id := 1, ops := [0] },
        { id := 2, ops := [1, 2, 3], dead := true, parents := [some 0] },
        { id := 3, ops := [4], parents := [some 1] },
        { id := 4, ops := [5], parents := [some 0] }]
      ops := [.branch none (some 3) (some 3), .jump (some 3), .expr "g" (some 0) [],
        .branch none (some 2) none, .expr "g" (some 1) [], .expr "h" none [some 0, some 1]] },
      { eliminated := 1 }⟩ [0, 1, 3, 2] [0, 3] ?_ rfl ?_ ?_ ?_ ?_ ?_
    · decide +kernel
    · cbv
    · cbv
    · cbv
    · decide
    · decide
  · refine .of_reachable ⟨{ secondUseFunc with
      blocks := [
        { id := 1, ops := [0] },
        { id := 2, ops := [1], dead := true, parents := [some 0] },
        { id := 3, ops := [2], phis := [1], parents := [some 0] }]
      ops := [.branch none (some 2) (some 2), .jump (some 2), .ret (some 0)]
      phis := [⟨some 0, []⟩, ⟨some 1, []⟩] },
      { eliminated := 1, phiMerges := 1 }⟩ [0, 1, 2] [0, 2] ?_ rfl ?_ ?_ ?_ ?_ ?_
    · decide +kernel
    · cbv
    · cbv
    · cbv
    · decide
    · decide
  · refine .of_reachable ⟨{ lateCutFunc with
      blocks := [
        { id := 1, ops := [0] },
        { id := 2, ops := [1], dead := true, parents := [some 0, some 3] },
        { id := 3, ops := [2], dead := true, parents := [some 3] },
        { id := 4, ops := [3], phis := [2], parents := [some 3] }]
      ops := [.branch (some 0) (some 1) none, .jump (some 3), .jump (some 3),
        .branch none (some 3) (some 3)]
      phis := [⟨some 1, []⟩, ⟨some 2, [some 1]⟩, ⟨some 0, []⟩] },
      { eliminated := 2, phiMerges := 2, phiRejects := 1 }⟩ [0, 1, 3, 2] [0] ?_ rfl ?_ ?_ ?_ ?_ ?_
    · decide +kernel
    · cbv
    · cbv
    · cbv
    · decide
    · decide

end FlowGraph
