import Mathlib
import FlowGraph.Proofs.Dump
import FlowGraph.Proofs.RoundTrip

/-! The dump of a function before and after it is described and built again. The parents of a block
come in the order of the document in the one and in breadth-first order in the other; all else is
the same. -/

namespace FlowGraph

namespace Func

variable {fn fn' : Func} {entry b : BlockRef} {order : List BlockRef}

/-- The function with the parents of each block reduced to those of the order, and put in it. -/
def inOrder (fn : Func) (order : List BlockRef) : Func :=
  { fn with blocks := fn.blocks.map fun bb =>
    { bb with parents := (order.filter fun p => some p ∈ bb.parents).map some } }

/-- The parents that the dump shows come in the order of the dump. -/
def ParentsInOrder (fn : Func) (entry : BlockRef) : Prop :=
  ∀ b ∈ fn.reachable entry, (fn.parentPlaces (fn.reachable entry) b).Pairwise (· < ·)

/-! ## Places of parents -/

theorem mem_parentPlaces (horder : order.Nodup) {j : Nat} :
    j ∈ fn.parentPlaces order b ↔ ∃ p, At order p j ∧ some p ∈ (fn.block b).parents := by
  simp only [parentPlaces, List.mem_filterMap, Option.bind_eq_some_iff,
    idxOf?_eq_some_iff_of_nodup horder, At]
  grind

theorem nodup_parentPlaces (horder : order.Nodup) (hparents : (fn.block b).parents.Nodup) :
    (fn.parentPlaces order b).Nodup := by
  refine hparents.filterMap fun p p' j hp hp' => ?_
  obtain ⟨q, rfl, hq⟩ := Option.bind_eq_some_iff.mp hp
  obtain ⟨q', rfl, hq'⟩ := Option.bind_eq_some_iff.mp hp'
  rw [idxOf?_eq_some_iff_of_nodup horder] at hq hq'
  rw [Option.some.inj (hq.symm.trans hq')]

/-- Parents that are listed in the order have rising places. -/
theorem pairwise_parentPlaces (horder : order.Nodup) {P : BlockRef → Bool}
    (hparents : (fn.block b).parents = (order.filter P).map some) :
    (fn.parentPlaces order b).Pairwise (· < ·) := by
  have hplaces : order.Pairwise fun p q => ∀ i, order.idxOf? p = some i → ∀ j,
      order.idxOf? q = some j → i < j := by
    rw [List.pairwise_iff_getElem]
    intro m n hm hn hlt i hi j hj
    rw [idxOf?_eq_some_iff_of_nodup horder] at hi hj
    rw [eq_of_getElem? horder hi (List.getElem?_eq_getElem hm),
      eq_of_getElem? horder hj (List.getElem?_eq_getElem hn)]
    exact hlt
  rw [parentPlaces, hparents, List.filterMap_map, List.pairwise_filterMap]
  exact (hplaces.filter P).imp fun h i hi j hj => h i hi j hj

/-! ## The parents put in order -/

theorem block_inOrder (fn : Func) (order : List BlockRef) (b : BlockRef) :
    (fn.inOrder order).block b = { fn.block b with
      parents := (order.filter fun p => some p ∈ (fn.block b).parents).map some } := by
  let f (bb : Block) : Block :=
    { bb with parents := (order.filter fun p => some p ∈ bb.parents).map some }
  have hdefault : f {} = {} := by simp [f]
  show (fn.blocks.map f).getD b {} = f (fn.blocks.getD b {})
  rw [← hdefault, List.getD_map, hdefault]

theorem reachable_inOrder (fn : Func) (order : List BlockRef) (entry : BlockRef) :
    (fn.inOrder order).reachable entry = fn.reachable entry := by
  have hlive : ∀ c, (fn.inOrder order).isLive c = fn.isLive c := by
    intro c
    simp only [isLive, inOrder, List.getElem?_map]
    cases fn.blocks[c]? <;> rfl
  have hsucc : (fn.inOrder order).liveSuccessors = fn.liveSuccessors := by
    funext c
    simp only [liveSuccessors, successors, targetsOf, block_inOrder, funext hlive]
    rfl
  have hlength : (fn.inOrder order).blocks.length = fn.blocks.length := List.length_map ..
  rw [reachable, hsucc, hlength, reachable]

theorem mem_parentPlaces_inOrder (horder : order.Nodup) (j : Nat) :
    j ∈ (fn.inOrder order).parentPlaces order b ↔ j ∈ fn.parentPlaces order b := by
  rw [mem_parentPlaces horder, mem_parentPlaces horder, block_inOrder]
  refine exists_congr fun p => and_congr_right fun hp => ?_
  simp [List.mem_of_getElem? hp]

theorem Matches.inOrder {B : BlockRef → BlockRef → Prop} {V : ValueRef → ValueRef → Prop}
    (h : fn.Matches B V fn') (order : List BlockRef) : (fn.inOrder order).Matches B V fn' where
  bound b b' hb := by
    rw [Func.inOrder, List.length_map]
    exact h.bound b b' hb
  names := h.names
  phis b b' hb := by
    rw [phisAt, block_inOrder]
    exact h.phis b b' hb
  ops b b' hb := by
    rw [opsAt, block_inOrder]
    exact h.ops b b' hb

/-! ## Copies -/

namespace Rebuilt

theorem refers_iff (h : fn.Rebuilt entry fn') {p j b i : BlockRef}
    (hp : At (fn.reachable entry) p j) (hb : At (fn.reachable entry) b i) :
    fn.Refers p b ↔ fn'.Refers j i := by
  have hB := biUnique_at (fn.nodup_reachable entry)
  rw [← mem_successors_iff, ← mem_successors_iff]
  exact List.rel_mem hB hb (h.copy.contents.successors hB hp)

/-- The parents of the copy are the counterparts of those parents that can be reached. -/
theorem mem_parentPlaces_iff (h : fn.Rebuilt entry fn') (hw : fn.Loaded) {b i : BlockRef}
    (hb : At (fn.reachable entry) b i) (j : Nat) :
    j ∈ fn'.parentPlaces (fn'.reachable 0) i ↔ j ∈ fn.parentPlaces (fn.reachable entry) b := by
  obtain ⟨f', hf'⟩ := h.built
  rw [mem_parentPlaces (fn'.nodup_reachable 0), mem_parentPlaces (fn.nodup_reachable entry)]
  simp only [hw.parents, (FuncDoc.build_loaded hf').parents, Option.some.injEq, exists_eq_left']
  rw [h.reachable_eq, h.copy.length]
  constructor
  · intro hj
    obtain ⟨p, hp, hrefers⟩ := hj
    obtain ⟨hlt, heq⟩ := List.getElem?_eq_some_iff.mp hp
    rw [List.getElem_range] at heq
    subst heq
    have hat := List.getElem?_eq_getElem (by simpa using hlt)
    exact ⟨_, hat, (h.refers_iff hat hb).mpr hrefers⟩
  · intro hj
    obtain ⟨p, hp, hrefers⟩ := hj
    refine ⟨j, List.getElem?_range (List.getElem?_eq_some_iff.mp hp).1, ?_⟩
    exact (h.refers_iff hp hb).mp hrefers

/-- The parents of the copy come in the order of the dump. -/
theorem pairwise_parentPlaces (h : fn.Rebuilt entry fn') {i : BlockRef}
    (hi : i < fn'.blocks.length) : (fn'.parentPlaces (fn'.reachable 0) i).Pairwise (· < ·) := by
  obtain ⟨f', hf'⟩ := h.built
  refine Func.pairwise_parentPlaces (fn'.nodup_reachable 0)
    (P := fun p => fn'.targets p (some i)) ?_
  rw [h.reachable_eq]
  exact (FuncDoc.build_describes hf').canonical i hi

/-- The dump of the copy is that of the function with the parents put in order. -/
theorem dump_eq (h : fn.Rebuilt entry fn') (hw : fn.Loaded) :
    fn'.dump = (fn.inOrder (fn.reachable entry)).dump := by
  have horder := fn.nodup_reachable entry
  have hplaces : ∀ b i, At (fn.reachable entry) b i → fn'.parentPlaces (fn'.reachable 0) i =
      (fn.inOrder (fn.reachable entry)).parentPlaces (fn.reachable entry) b := by
    intro b i hb
    refine List.Pairwise.eq_of_mem_iff (h.pairwise_parentPlaces (h.copy.contents.bound b i hb).2)
      (Func.pairwise_parentPlaces horder (by rw [block_inOrder])) fun j => ?_
    rw [h.mem_parentPlaces_iff hw hb, mem_parentPlaces_inOrder horder]
  have hdump := (dump_eq_iff (h.copy.contents.inOrder (fn.reachable entry)) (biUnique_at horder)
    h.rel_reachable (fun b i hb => List.mem_of_getElem? hb)
    fun b i hb => .of_eq (hplaces b i hb)).mpr (h.rel_reachable.imp hplaces)
  have hentry : (fn.inOrder (fn.reachable entry)).entry = some entry := h.copy.start
  rw [dump, dump, h.copy.first.2, hentry]
  simp only [dumpFrom, reachable_inOrder]
  exact congrArg Except.ok hdump

/-- So it is that of the function itself exactly if the parents are in order there already. -/
theorem dump_eq_iff_parentsInOrder (h : fn.Rebuilt entry fn') (hw : fn.Loaded) :
    fn'.dump = fn.dump ↔ fn.ParentsInOrder entry := by
  have horder := fn.nodup_reachable entry
  obtain ⟨f', hf'⟩ := h.built
  have hperm : ∀ b i, At (fn.reachable entry) b i → (fn'.parentPlaces (fn'.reachable 0) i).Perm
      (fn.parentPlaces (fn.reachable entry) b) := fun b i hb =>
    (List.perm_ext_iff_of_nodup
      (nodup_parentPlaces (fn'.nodup_reachable 0) ((FuncDoc.build_loaded hf').nodup i))
      (nodup_parentPlaces horder (hw.nodup b))).mpr (h.mem_parentPlaces_iff hw hb)
  have hdump := dump_eq_iff h.copy.contents (biUnique_at horder) h.rel_reachable
    (fun b i hb => List.mem_of_getElem? hb) hperm
  have htexts : fn'.dump = fn.dump ↔ fn'.dumpFrom 0 = fn.dumpFrom entry := by
    rw [dump, dump, h.copy.first.2, h.copy.start, Except.ok.injEq]
  rw [htexts]
  -- the places in the copy rise, and a list that rises is determined by its elements
  refine hdump.trans ⟨fun hplaces b hb => ?_, fun hsorted => ?_⟩
  · obtain ⟨i, hi, heq⟩ := forall₂_mem_right hplaces.flip hb
    rw [← heq]
    refine h.pairwise_parentPlaces ?_
    rw [h.reachable_eq] at hi
    exact List.mem_range.mp hi
  · refine forall₂_imp_mem h.rel_reachable fun b hb i hi => ?_
    exact List.Pairwise.eq_of_mem_iff (h.pairwise_parentPlaces (h.copy.contents.bound b i hi).2)
      (hsorted b hb) (h.mem_parentPlaces_iff hw hi)

end Rebuilt

/-- A function that was built makes up a document of its own, from which a copy is built. -/
theorem exists_reload {f : FuncDoc} (hf : f.build = .ok fn) : ∃ doc fn',
    Document.ofFuncs [fn] = .ok doc ∧ (∀ path st, ((doc.build path).run st).1 = .ok [fn']) ∧
      ∃ entry, fn.Rebuilt entry fn' := by
  have hnames : ([fn].map Func.name).Nodup := by simp
  obtain ⟨doc, fns, hdoc, hfns, hrebuilt⟩ := Document.exists_rebuilt hnames
    (by simpa using FuncDoc.build_whole hf)
  cases hrebuilt with
  | cons h hrest =>
    cases hrest
    exact ⟨doc, _, hdoc, hfns, h⟩

end Func

/-- A function that was built, described and built again has the dump that it has with the parents
put in order, which is its own dump exactly if they are in order from the start. In the copy they
are, so that a second time around the dump does not change any more. -/
theorem reload_keeps_dump_iff_parents_in_order {path : Text} {d : Document} {st : Stats}
    {fns : List Func} {fn : Func} (hbuild : ((d.build path).run st).1 = .ok fns) (hfn : fn ∈ fns) :
    ∃ entry doc fn', fn.entry = some entry ∧ Document.ofFuncs [fn] = .ok doc ∧
      (∀ path st, ((doc.build path).run st).1 = .ok [fn']) ∧
      fn'.dump = (fn.inOrder (fn.reachable entry)).dump ∧
      (fn'.dump = fn.dump ↔ fn.ParentsInOrder entry) ∧
      fn'.entry = some 0 ∧ fn'.ParentsInOrder 0 := by
  obtain ⟨f, -, hf⟩ := forall₂_mem_right (Document.built_of_ok hbuild) hfn
  obtain ⟨doc, fn', hdoc, hfn', entry, h⟩ := Func.exists_reload hf
  have hw : fn.Loaded := FuncDoc.build_loaded hf
  refine ⟨entry, doc, fn', h.copy.start, hdoc, hfn', h.dump_eq hw, h.dump_eq_iff_parentsInOrder hw,
    h.copy.first.2, fun i hi => h.pairwise_parentPlaces ?_⟩
  rw [h.reachable_eq] at hi
  exact List.mem_range.mp hi

/-- Blocks `x` and `y` are listed in one order and reached in the other. -/
def crossed : Document where
  functions := [{
    name := "f"
    blocks := [
      { label := "e", ops := [{ kind := "jumpif", onTrue := "x", onFalse := "y" }] },
      { label := "y", ops := [{ kind := "jump", target := "d" }] },
      { label := "x", ops := [{ kind := "jump", target := "d" }] },
      { label := "d", ops := [{ kind := "return" }] }] }]

def crossedFunc : Func where
  name := "f"
  entry := some 0
  blocks := [
    { id := 1, ops := [0] },
    { id := 2, ops := [1], parents := [some 0] },
    { id := 3, ops := [2], parents := [some 0] },
    { id := 4, ops := [3], parents := [some 1, some 2] }]
  ops := [.branch none (some 2) (some 1), .jump (some 3), .jump (some 3), .ret none]

theorem crossed_reloaded :
    ((crossed.build "f.yaml").run {}).1 = .ok [crossedFunc] ∧
      ∃ entry doc fn', crossedFunc.entry = some entry ∧ Document.ofFuncs [crossedFunc] = .ok doc ∧
        (∀ path st, ((doc.build path).run st).1 = .ok [fn']) ∧
        fn'.dump = (crossedFunc.inOrder (crossedFunc.reachable entry)).dump ∧
        (fn'.dump = crossedFunc.dump ↔ crossedFunc.ParentsInOrder entry) ∧
        fn'.entry = some 0 ∧ fn'.ParentsInOrder 0 := by
  have hbuild : ((crossed.build "f.yaml").run {}).1 = .ok [crossedFunc] := by decide +kernel
  exact ⟨hbuild, reload_keeps_dump_iff_parents_in_order hbuild List.mem_cons_self⟩

/-- The dump of a function need not survive that it is described and built again. -/
theorem crossed_dump_changes :
    ((crossed.build "f.yaml").run {}).1 = .ok [crossedFunc] ∧
      ∃ doc fn', Document.ofFuncs [crossedFunc] = .ok doc ∧
        (∀ path st, ((doc.build path).run st).1 = .ok [fn']) ∧ fn'.dump ≠ crossedFunc.dump := by
  have hbuild : ((crossed.build "f.yaml").run {}).1 = .ok [crossedFunc] := by decide +kernel
  obtain ⟨f, -, hf⟩ := forall₂_mem_right (Document.built_of_ok hbuild) List.mem_cons_self
  obtain ⟨doc, fn', hdoc, hfn', entry, h⟩ := Func.exists_reload hf
  refine ⟨hbuild, doc, fn', hdoc, hfn', fun hsame => ?_⟩
  cases h.copy.start
  have hsorted := (h.dump_eq_iff_parentsInOrder (FuncDoc.build_loaded hf)).mp hsame
  have horder : crossedFunc.reachable 0 = [0, 2, 1, 3] := by cbv
  have hrising := hsorted 3 (by simp [horder])
  rw [horder] at hrising
  revert hrising
  decide

end FlowGraph
