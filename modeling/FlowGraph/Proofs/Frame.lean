import Mathlib
import FlowGraph.Proofs.Portable

/-! What a pass leaves alone. References, parents, marks and phi nodes change, but the shape of
every operation stays, a missing reference stays missing, only trampolines are marked, and only
marked blocks give up their phi nodes. Blocks that no chain of references from the entry leads to
stay as they are: every step works inside the region of the others, which references do not lead
out of. -/

namespace FlowGraph

open Relation

namespace Func

variable {fn fn' fn'' : Func} {b : BlockRef}

/-- Both functions have the same block at this place, down to its operations and phi nodes. -/
structure SameAt (b : BlockRef) (fn fn' : Func) : Prop where
  block : fn'.block b = fn.block b
  ops : ∀ o ∈ (fn.block b).ops, fn'.op o = fn.op o
  phis : ∀ p ∈ (fn.block b).phis, fn'.phi p = fn.phi p

theorem SameAt.refl (b : BlockRef) (fn : Func) : SameAt b fn fn :=
  ⟨rfl, fun _ _ => rfl, fun _ _ => rfl⟩

theorem SameAt.trans (h : SameAt b fn fn') (h' : SameAt b fn' fn'') : SameAt b fn fn'' where
  block := h'.block.trans h.block
  ops o ho := (h'.ops o (h.block ▸ ho)).trans (h.ops o ho)
  phis p hp := (h'.phis p (h.block ▸ hp)).trans (h.phis p hp)

/-- No operation stands in two blocks. -/
def Owned (fn : Func) : Prop := ∀ b c o, o ∈ (fn.block b).ops → o ∈ (fn.block c).ops → b = c

end Func

namespace Threading

variable {R : BlockRef → Prop} {s t : Threading} {b : BlockRef}

/-! ## Blocks outside the region -/

theorem Step.owned (h : Step R s t) (ho : s.fn.Owned) : t.fn.Owned := by
  intro b c o hb hc
  rw [h.blockOps] at hb hc
  exact ho b c o hb hc

theorem bypassed_block {fn : Func} {bb : Option BlockRef} {b dest c : BlockRef} (hb : b ≠ c)
    (hdest : dest ≠ c) : (bypassed s fn bb b dest).fn.block c = fn.block c := by
  unfold bypassed
  simp only [Func.addParent, Func.removeParent, Func.block_modifyBlock_ne _ hdest]
  split
  · rfl
  · rw [Func.block_modifyBlock_ne _ hb]

theorem Step.block_eq (h : Step R s t) (hr : Region R s.fn) (hb : ¬R b) :
    t.fn.block b = s.fn.block b := by
  have hne : ∀ {c}, R c → c ≠ b := fun hc he => hb (he ▸ hc)
  cases h with
  | loop => rfl
  | reject => rfl
  | bypass hR hn _ hm =>
    obtain ⟨phis, rfl⟩ := mergePhis_eq_some hm
    rw [bypassed_block (hne hR) (hne (hr _ hR _ (Func.refers_of_next hn))),
      Func.block_modifyBlock_ne _ (hne hR)]
    rfl
  | shortCircuit hR => exact Func.block_modifyBlock_ne _ (hne hR) _
  | store => rfl

theorem Step.op_eq (h : Step R s t) (ho : s.fn.Owned) (hb : ¬R b) {o : OpRef}
    (hmem : o ∈ (s.fn.block b).ops) : t.fn.op o = s.fn.op o := by
  rcases h.cases_op with ⟨-, hop⟩ | ⟨bb, o', i, tt, hR, ho', -, rfl⟩
  · exact hop o
  · rcases Func.op_store s.fn o' i tt o with hop | ⟨rfl, -⟩
    · exact hop
    · exact absurd (ho bb b o ho' hmem ▸ hR) hb

theorem Step.phi_eq (h : Step R s t) (hr : Region R s.fn) (hp : s.fn.Placed) (hb : ¬R b)
    {p : PhiRef} (hmem : p ∈ (s.fn.block b).phis) : t.fn.phi p = s.fn.phi p := by
  rcases h.cases_phis hp with hsame | ⟨c, dest, hc, hn, -, hhanded⟩
  · exact hsame.phi p
  · -- what the phi node of a block takes up makes that block the destination
    have hnone : takenBy s.fn c dest p = [] := by
      refine List.eq_nil_iff_forall_not_mem.mpr fun q hq => hb ?_
      have hdest := (mem_of_findPhiUsing (mem_takenBy.mp hq).2).1
      rw [hp.home b dest p hmem hdest]
      exact hr c hc dest (Func.refers_of_next hn)
    rw [hhanded.phi, hnone]
    rfl

theorem Step.sameAt (h : Step R s t) (hr : Region R s.fn) (hp : s.fn.Placed) (ho : s.fn.Owned)
    (hb : ¬R b) : s.fn.SameAt b t.fn :=
  ⟨h.block_eq hr hb, fun _ hmem => h.op_eq ho hb hmem, fun _ hmem => h.phi_eq hr hp hb hmem⟩

/-- What lies outside the region stays as it is. -/
theorem Steps.sameAt (h : Steps R s t) (hr : Region R s.fn) (hp : s.fn.Placed) (ho : s.fn.Owned)
    (hb : ¬R b) : s.fn.SameAt b t.fn := by
  have hrun : s.fn.SameAt b t.fn ∧ t.fn.Owned := by
    induction h with
    | refl => exact ⟨.refl b s.fn, ho⟩
    | tail hsteps hstep ih =>
      have hstep' := hstep.sameAt (Steps.region hsteps hr) (Steps.placed hsteps hp) ih.2 hb
      exact ⟨ih.1.trans hstep', hstep.owned ih.2⟩
  exact hrun.1

end Threading

/-! ## A pass over a loaded function -/

/-- A reference that another may take the place of: the keys are the same, and one is missing if
the other is. -/
def Target.SamePlace (x y : Target) : Prop := y.key = x.key ∧ (y.block = none ↔ x.block = none)

/-- What `fn'` still has of `fn` after a pass that began at the block `root`. Name, entry, the
blocks with their numbers and the operations of each block with their shapes are those of `fn`. -/
structure Framed (root : BlockRef) (fn fn' : Func) : Prop extends fn.Alike fn' where
  values : fn'.values = fn.values
  slots : ∀ o i j, Option.Rel Target.SamePlace (fn.slot? o i j) (fn'.slot? o i j)
  dead : ∀ b, (fn.block b).dead = true → (fn'.block b).dead = true
  marked : ∀ b, (fn.block b).dead = false → (fn'.block b).dead = true → (fn.leadingJump b).isSome
  /-- Only an eliminated block gives up its phi nodes, and then all of them. -/
  lists : ∀ b, (fn'.block b).phis = (fn.block b).phis ∨
    ((fn'.block b).phis = [] ∧ (fn'.block b).dead = true)
  results : ∀ p, (fn'.phi p).result = (fn.phi p).result
  unreached : ∀ b, ¬ReflTransGen fn.Refers root b → fn.SameAt b fn'

namespace Threading

theorem region_path (fn : Func) (root : BlockRef) : Region (ReflTransGen fn.Refers root) fn :=
  fun _ hb _ hr => ReflTransGen.tail hb hr

theorem Moved.samePlace {fn : Func} {l : List BlockRef} {x y : Target} (h : Moved fn l x y) :
    x.SamePlace y := by
  refine ⟨h.1, fun hy => ?_, fun hx => ?_⟩
  · cases hx : x.block with
    | none => rfl
    | some b =>
      obtain ⟨c, hc⟩ := h.block_right hx
      rw [hy] at hc
      cases hc
  · cases hy : y.block with
    | none => rfl
    | some c =>
      obtain ⟨b, hb⟩ := h.block_left hy
      rw [hx] at hb
      cases hb

theorem rel_samePlace {fn : Func} {l : List BlockRef} {x y : Option Target}
    (h : Option.Rel (Moved fn l) x y) : Option.Rel Target.SamePlace x y := by
  cases h with
  | none => exact .none
  | some h => exact .some h.samePlace

end Threading

/-- A pass changes nothing but what it may change. -/
theorem pass_leaves_the_rest_alone {path : Text} {d : Document} {st : Stats} {fns : List Func}
    {fn : Func} (hbuild : ((d.build path).run st).1 = .ok fns) (hfn : fn ∈ fns) (stats : Stats) :
    ∃ root w, fn.entry = some root ∧ threadJumps.run ⟨fn, stats⟩ = (.ok (), w) ∧
      Framed root fn w.fn := by
  have hw : fn.Loaded := Document.loaded_of_ok hbuild hfn
  have hplaced : fn.Placed := Document.placed_of_ok hbuild hfn
  obtain ⟨root, hroot, -⟩ := hw.entry
  obtain ⟨t, hrun, hpassed, hall⟩ := Threading.threadJumps_steps hw hroot stats
  have hregion := Threading.region_path fn root
  have hsteps := hall _ hregion .refl
  obtain ⟨hredirected, hretired, -⟩ := hpassed.sound
  refine ⟨root, t.toWork, hroot, hrun, hredirected.alike, hsteps.values,
    fun o i j => Threading.rel_samePlace (hredirected.slots o i j), fun b hb => ?_,
    fun b _ hb => ?_, fun b => ?_, hsteps.result hplaced,
    fun b hb => hsteps.sameAt hregion hplaced hw.owner hb⟩
  · rw [hw.live] at hb
    cases hb
  · rw [← hredirected.alike.leadingJump]
    exact hretired.jump b ((hretired.dead b).mp hb)
  · rcases hsteps.lists hplaced b with hlist | hremoved
    · exact .inl hlist
    · exact .inr ⟨hretired.phis b hremoved, (hretired.dead b).mpr hremoved⟩

/-- A trampoline with a phi node, entered through a block that the entry does not lead to as well
as from the entry. -/
def sideDoor : Document where
  functions := [{
    name := "f"
    blocks := [
      { label := "e", ops := [{ kind := "jumpif", onTrue := "a" }] },
      { label := "a", phis := [{ result := "p", operands := ["x"] }],
        ops := [{ kind := "jump", target := "d" }] },
      { label := "d", phis := [{ result := "t", operands := ["p"] }], ops := [{ kind := "return" }] },
      { label := "u", phis := [{ result := "q", operands := ["p"] }],
        ops := [{ kind := "jump", target := "a" }, { kind := "jump", target := "u" }] }] }]

def sideDoorFunc : Func where
  name := "f"
  entry := some 0
  blocks := [
    { id := 1, ops := [0] },
    { id := 2, ops := [1], phis := [0], parents := [some 0, some 3] },
    { id := 3, ops := [2], phis := [1], parents := [some 1] },
    { id := 4, ops := [3, 4], phis := [2], parents := [some 3] }]
  ops := [.branch none (some 1) none, .jump (some 2), .ret none, .jump (some 1), .jump (some 3)]
  phis := [⟨some 0, [some 1]⟩, ⟨some 2, [some 0]⟩, ⟨some 3, [some 0]⟩]
  values := ["p", "x", "t", "q"]

/-- The trampoline is eliminated, and the block behind the side door still refers to it. -/
theorem sideDoor_framed :
    ((sideDoor.build "f.yaml").run {}).1 = .ok [sideDoorFunc] ∧
      ∃ w, threadJumps.run ⟨sideDoorFunc, {}⟩ = (.ok (), w) ∧ Framed 0 sideDoorFunc w.fn ∧
        w.fn.block 1 = { sideDoorFunc.block 1 with dead := true, phis := [] } ∧
        sideDoorFunc.SameAt 3 w.fn := by
  have hbuild : ((sideDoor.build "f.yaml").run {}).1 = .ok [sideDoorFunc] := by decide +kernel
  obtain ⟨root, w, hroot, hrun, hframed⟩ := pass_leaves_the_rest_alone hbuild List.mem_cons_self {}
  cases hroot
  have hblock : (threadJumps.run ⟨sideDoorFunc, {}⟩).2.fn.block 1 =
      { sideDoorFunc.block 1 with dead := true, phis := [] } := by cbv
  rw [hrun] at hblock
  have hloaded : sideDoorFunc.Loaded := Document.loaded_of_ok hbuild List.mem_cons_self
  refine ⟨hbuild, w, hrun, hframed, hblock, hframed.unreached 3 fun hpath => ?_⟩
  rw [← (Threading.liveEdges_of_loaded hloaded).mem_reachable_iff] at hpath
  have hreach : sideDoorFunc.reachable 0 = [0, 1, 2] := by cbv
  rw [hreach] at hpath
  exact absurd hpath (by decide)

end FlowGraph
