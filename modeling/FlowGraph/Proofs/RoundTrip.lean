import Mathlib
import FlowGraph.Proofs.Export

/-! Functions that are described and built again. The copy holds the reachable blocks in
breadth-first order, with the same contents; describing the copy and building it once more changes
nothing. -/

namespace FlowGraph

open Relator

variable {B : BlockRef → BlockRef → Prop} {V : ValueRef → ValueRef → Prop} {fn fn' : Func}
  {entry : BlockRef} {s : Scope}

/-! ## Operations and phi nodes -/

/-- What is built from the description of an operation matches it, if labels and names lead to
related blocks and values. -/
theorem OpDoc.matches_of_build {op op' : Op} {o : OpDoc} (ho : ofOp fn op = .ok o)
    (hbuild : o.build s = .ok op')
    (hB : ∀ t ∈ op.targets.map Target.block, ∀ t', s.block (fn.label t) = .ok t' →
      Option.Rel B t t')
    (hV : ∀ v ∈ op.values, Option.Rel V v (s.value (fn.docName v))) : op.Matches B V op' := by
  cases op with
  | jump t =>
    cases ho
    unfold build at hbuild
    split at hbuild
    · split at hbuild
      · cases hbuild
      · obtain ⟨t', ht, hbuild⟩ := bind_eq_ok.mp hbuild
        cases hbuild
        exact .jump (hB t List.mem_cons_self t' ht)
    · rename_i hk
      exact absurd rfl hk
  | branch c t f =>
    cases ho
    obtain ⟨t', ht, hbuild⟩ := bind_eq_ok.mp hbuild
    obtain ⟨f', hf, hbuild⟩ := bind_eq_ok.mp hbuild
    cases hbuild
    refine .branch (hV c List.mem_cons_self) (hB t ?_ t' ht) (hB f ?_ f' hf) <;>
      simp [Op.targets, Op.attributes]
  | switch c m d =>
    cases ho
    obtain ⟨m', hm, hbuild⟩ := bind_eq_ok.mp hbuild
    obtain ⟨d', hd, hbuild⟩ := bind_eq_ok.mp hbuild
    cases hbuild
    have hm := List.forall₂_map_left_iff.mp (Scope.cases_eq_ok_iff.mp hm)
    rw [← m'.getD_made?] at hm
    refine .switch (hV c List.mem_cons_self) (forall₂_imp_mem hm fun e he e' h => ⟨h.1, ?_⟩)
      (hB d ?_ d' hd)
    · refine hB e.2 ?_ e'.2 h.2
      simpa [Op.targets, Op.attributes] using .inl ⟨e.1, he⟩
    · simp [Op.targets, Op.attributes]
  | region b hs l =>
    cases ho
    obtain ⟨b', hb, hbuild⟩ := bind_eq_ok.mp hbuild
    obtain ⟨hs', hhs, hbuild⟩ := bind_eq_ok.mp hbuild
    obtain ⟨l', hl, hbuild⟩ := bind_eq_ok.mp hbuild
    cases hbuild
    have hhs := List.forall₂_map_left_iff.mp (mapM_eq_ok_iff.mp hhs)
    refine .region (hB b ?_ b' hb) (forall₂_imp_mem hhs fun t ht t' h => hB t ?_ t' h)
      (hB l ?_ l' hl)
    all_goals simp [Op.targets, Op.attributes, *]
  | expr name r args =>
    cases ho
    change (if name.isEmpty then _ else _) = Except.ok op' at hbuild
    split at hbuild
    · cases hbuild
    · cases hbuild
      refine .expr (hV r List.mem_cons_self) ?_
      rw [List.map_map, List.forall₂_map_right_iff, List.forall₂_same]
      exact fun v hv => hV v (List.mem_cons_of_mem r hv)
  | ret v =>
    cases ho
    cases hbuild
    exact .ret (hV v List.mem_cons_self)
  | foreign => cases ho

theorem biUnique_optionRel {α β : Type} {R : α → β → Prop} (h : BiUnique R) :
    BiUnique (Option.Rel R) := by
  constructor
  · intro x y z hx hy
    cases hx with
    | none => cases hy; rfl
    | some hx => cases hy with
      | some hy => rw [h.1 hx hy]
  · intro x y z hx hy
    cases hx with
    | none => cases hy; rfl
    | some hx => cases hy with
      | some hy => rw [h.2 hx hy]

theorem Phi.make_of_nodup {r : Option ValueRef} {vs : List (Option ValueRef)} (h : vs.Nodup) :
    Phi.make r vs = ⟨r, vs⟩ := by
  suffices hfrom : ∀ vs us : List (Option ValueRef), (us ++ vs).Nodup →
      vs.foldl Phi.addOperand ⟨r, us⟩ = ⟨r, us ++ vs⟩ from hfrom vs [] h
  intro vs
  induction vs with
  | nil => simp
  | cons v vs ih =>
    intro us hus
    have hv : v ∉ us := fun hmem => (List.nodup_append.mp hus).2.2 v hmem v List.mem_cons_self rfl
    rw [List.foldl_cons, Phi.addOperand, if_neg hv, ih _ (by simpa using hus)]
    simp

theorem PhiDoc.matches_of_build {p p' : Phi} (hV : BiUnique V) (hnodup : p.operands.Nodup)
    (hbuild : (ofPhi fn p).build s = .ok p')
    (hvalue : ∀ v ∈ p.result :: p.operands, Option.Rel V v (s.value (fn.docName v))) :
    p.Matches V p' := by
  unfold build at hbuild
  split at hbuild
  · cases hbuild
  · cases hbuild
    have hoperands : List.Forall₂ (Option.Rel V) p.operands
        ((p.operands.map fn.docName).map s.value) := by
      rw [List.map_map, List.forall₂_map_right_iff, List.forall₂_same]
      exact fun v hv => hvalue v (List.mem_cons_of_mem _ hv)
    -- different operands have different names, so none is dropped as a repetition
    have hmake := (List.rel_nodup (biUnique_optionRel hV) hoperands).mp hnodup
    rw [ofPhi, Phi.make_of_nodup hmake]
    exact ⟨hvalue _ List.mem_cons_self, hoperands⟩

/-! ## Copies -/

theorem eq_of_getElem? {α : Type} {l : List α} {i j : Nat} {a : α} (h : l.Nodup)
    (hi : l[i]? = some a) (hj : l[j]? = some a) : i = j :=
  (List.getElem?_inj (List.getElem?_eq_some_iff.mp hi).1 h).mp (hi.trans hj.symm)

/-- Block `b` comes at place `i` of the order. -/
def At (order : List BlockRef) (b i : BlockRef) : Prop := order[i]? = some b

theorem biUnique_at {order : List BlockRef} (h : order.Nodup) : BiUnique (At order) := by
  constructor
  · intro b c i hb hc
    exact Option.some.inj (hb.symm.trans hc)
  · intro b i j hi hj
    exact eq_of_getElem? h hi hj

namespace Func

/-- Values that go by the same name. -/
def SameName (fn fn' : Func) (v v' : ValueRef) : Prop :=
  ∃ name, fn.values[v]? = some name ∧ fn'.values[v']? = some name

theorem biUnique_sameName (h : fn.values.Nodup) (h' : fn'.values.Nodup) :
    BiUnique (fn.SameName fn') := by
  constructor
  · intro u v w hu hv
    obtain ⟨name, hu, hw⟩ := hu
    obtain ⟨name', hv, hw'⟩ := hv
    cases hw.symm.trans hw'
    exact eq_of_getElem? h hu hv
  · intro u v w hv hw
    obtain ⟨name, hu, hv⟩ := hv
    obtain ⟨name', hu', hw⟩ := hw
    cases hu.symm.trans hu'
    exact eq_of_getElem? h' hv hw

/-- `fn'` has one block for each block that `fn` reaches from its entry, in breadth-first order and
with matching contents, and values that are told apart by their names. -/
structure Copies (fn : Func) (entry : BlockRef) (fn' : Func) : Prop where
  start : fn.entry = some entry
  first : (fn.reachable entry).head? = some entry ∧ fn'.entry = some 0
  name : fn'.name = fn.name
  length : fn'.blocks.length = (fn.reachable entry).length
  contents : fn.Matches (At (fn.reachable entry)) (fn.SameName fn') fn'
  values : ∀ v < fn'.values.length, ∀ v' < fn'.values.length,
    fn'.valueName (some v) = fn'.valueName (some v') ↔ v = v'

end Func

namespace FuncDoc.Shows

variable {f : FuncDoc}

/-- A label leads to the place of its block in the order. -/
theorem rel_block (hs : f.Shows fn entry) (h : fn.Whole entry) {t t' : Option BlockRef}
    (ht : ∀ b, t = some b → b ∈ fn.reachable entry) (hblock : f.scope.block (fn.label t) = .ok t') :
    Option.Rel (At (fn.reachable entry)) t t' := by
  cases t with
  | none =>
    cases hblock
    exact .none
  | some b =>
    obtain ⟨i, hi⟩ := List.mem_iff_getElem?.mp (ht b rfl)
    have hlabel : f.scope.labels[i]? = some (fn.block b).name := by
      show (f.blocks.map BlockDoc.label)[i]? = _
      rw [hs.labels, List.getElem?_map, hi]
      rfl
    have hfound : f.scope.block (fn.label (some b)) = .ok (some i) :=
      (Scope.block_eq_some_iff (hs.wellFormed h).distinct).mpr ⟨blockName_ne_nil _, hlabel⟩
    cases hfound.symm.trans hblock
    exact .some hi

/-- A name leads to the value of that name. -/
theorem rel_value (h : fn.Whole entry) (hvalues : fn'.values = f.scope.values) {d : BlockDoc}
    (hd : d ∈ f.blocks) {v : Option ValueRef} (hlt : ∀ u, v = some u → u < fn.values.length)
    (hv : fn.docName v ∈ d.valueNames) :
    Option.Rel (fn.SameName fn') v (f.scope.value (fn.docName v)) := by
  cases v with
  | none => exact .none
  | some u =>
    have hne := h.name_ne_nil (hlt u rfl)
    have hmem : fn.docName (some u) ∈ f.scope.values := mem_values.mpr ⟨hne, d, hd, hv⟩
    obtain ⟨u', hu'⟩ := List.mem_iff_getElem?.mp hmem
    rw [(Scope.value_eq_some_iff f.nodup_values).mpr ⟨hne, hu'⟩]
    refine .some ⟨fn.docName (some u), ?_, hvalues ▸ hu'⟩
    simp [Func.docName, Func.valueName, hlt u rfl]

theorem phis_match (h : fn.Whole entry) (hdesc : f.Describes f.blocks.length fn') {b i : BlockRef}
    {d : BlockDoc} (hd : f.blocks[i]? = some d) (hshows : d.Shows fn b) :
    List.Forall₂ (Phi.Matches (fn.SameName fn')) (fn.phisAt b) (fn'.phisAt i) := by
  have hunique := Func.biUnique_sameName h.distinct (hdesc.values ▸ f.nodup_values)
  have hphis := hdesc.phis i d hd (List.getElem?_eq_some_iff.mp hd).1
  rw [hshows.phis, mapM_eq_ok_iff, List.forall₂_map_left_iff] at hphis
  refine forall₂_imp_mem hphis fun p hp p' hbuild => ?_
  have hport := h.phis b p hp
  refine PhiDoc.matches_of_build hunique hport.nodup hbuild fun v hv => ?_
  refine rel_value h hdesc.values (List.mem_of_getElem? hd) (fun u hu => ?_) ?_
  · subst hu
    rcases List.mem_cons.mp hv with hresult | hoperand
    · obtain ⟨u', hu', hlt⟩ := hport.result
      cases hresult.trans hu'
      exact hlt
    · exact hport.operands u hoperand
  · rw [hshows.valueNames]
    exact List.mem_append_left _ (List.mem_flatMap.mpr ⟨p, hp, List.mem_map_of_mem hv⟩)

theorem ops_match (hs : f.Shows fn entry) (h : fn.Whole entry)
    (hdesc : f.Describes f.blocks.length fn') {b i : BlockRef} (hb : b ∈ fn.reachable entry)
    {d : BlockDoc} (hd : f.blocks[i]? = some d) (hshows : d.Shows fn b) :
    List.Forall₂ (Op.Matches (At (fn.reachable entry)) (fn.SameName fn')) (fn.opsAt b)
      (fn'.opsAt i) := by
  have hops := mapM_eq_ok_iff.mp (hdesc.ops i d hd (List.getElem?_eq_some_iff.mp hd).1)
  refine forall₂_imp_mem (forall₂_trans hshows.ops hops) fun op hop op' hbuilt => ?_
  obtain ⟨o, ho, hbuild⟩ := hbuilt
  refine OpDoc.matches_of_build ho hbuild (fun t ht t' hblock => ?_) fun v hv => ?_
  · refine hs.rel_block h (fun c hc => ?_) hblock
    obtain ⟨x, hx, hxt⟩ := List.mem_map.mp ht
    exact h.mem_of_target hb hop (List.mem_filterMap.mpr ⟨x, hx, hxt.trans hc⟩)
  · refine rel_value h hdesc.values (List.mem_of_getElem? hd) (fun u hu => ?_) ?_
    · exact (h.ops b op hop).values u (hu ▸ hv)
    · rw [hshows.valueNames]
      exact List.mem_append_right _ (List.mem_flatMap.mpr ⟨op, hop, List.mem_map_of_mem hv⟩)

/-- What is built from the description of a function is a copy of it. -/
theorem copies (hs : f.Shows fn entry) (h : fn.Whole entry) (hbuild : f.build = .ok fn') :
    fn.Copies entry fn' := by
  have hdesc := build_describes hbuild
  have hlength : fn'.blocks.length = (fn.reachable entry).length :=
    hdesc.length.trans hs.blocks.length_eq.symm
  have hblock : ∀ b i, At (fn.reachable entry) b i → ∃ d, f.blocks[i]? = some d ∧ d.Shows fn b := by
    intro b i hi
    have hrel := forall₂_getElem? hs.blocks i
    rw [hi] at hrel
    generalize f.blocks[i]? = x at hrel ⊢
    cases hrel with
    | some hd => exact ⟨_, rfl, hd⟩
  refine ⟨h.start, ⟨fn.head?_reachable entry, ?_⟩, hdesc.name.trans hs.name, hlength,
    ⟨fun b i hi => ?_, fun v v' hv => ?_, fun b i hi => ?_, fun b i hi => ?_⟩,
    fun v hv v' hv' => ?_⟩
  · obtain ⟨e, he, hentry⟩ := hdesc.entry
    rw [entryBlock, hs.start] at he
    cases he
    exact hentry
  · exact ⟨Func.lt_of_mem_reachable h.bound (List.mem_of_getElem? hi),
      hlength ▸ (List.getElem?_eq_some_iff.mp hi).1⟩
  · obtain ⟨name, hname, hname'⟩ := hv
    simp [Func.valueName, hname, hname']
  · obtain ⟨d, hd, hshows⟩ := hblock b i hi
    exact phis_match h hdesc hd hshows
  · obtain ⟨d, hd, hshows⟩ := hblock b i hi
    exact ops_match hs h hdesc (List.mem_of_getElem? hi) hd hshows
  · have hdistinct : fn'.values.Nodup := hdesc.values ▸ f.nodup_values
    rw [Func.valueName, Func.valueName, List.getD_eq_getElem _ _ hv, List.getD_eq_getElem _ _ hv']
    exact hdistinct.getElem_inj_iff

end FuncDoc.Shows

/-! ## Copies of copies -/

section

variable (hlabel : ∀ t t', Option.Rel B t t' → fn'.label t' = fn.label t)
  (hname : ∀ v v', Option.Rel V v v' → fn'.docName v' = fn.docName v)

include hlabel hname

theorem OpDoc.ofOp_eq_of_matches {op op' : Op} (h : op.Matches B V op') :
    ofOp fn' op' = ofOp fn op := by
  cases h with
  | jump ht => simp only [ofOp, hlabel _ _ ht]
  | branch hc ht hf => simp only [ofOp, hname _ _ hc, hlabel _ _ ht, hlabel _ _ hf]
  | @switch c c' m m' d d' hc hm hd =>
    have hcases : (m'.getD .empty).map fn'.label = (m.getD .empty).map fn.label :=
      KeyMap.ext (map_eq_of_forall₂ (fun e e' he => Prod.ext he.1 (hlabel _ _ he.2)) hm)
    simp only [ofOp, hname _ _ hc, hcases, hlabel _ _ hd]
  | region hb hhs hl =>
    simp only [ofOp, hlabel _ _ hb, map_eq_of_forall₂ hlabel hhs, hlabel _ _ hl]
  | expr hr hargs => simp only [ofOp, hname _ _ hr, map_eq_of_forall₂ hname hargs]
  | ret hv => simp only [ofOp, hname _ _ hv]

theorem BlockDoc.ofBlock_eq_of_matches (h : fn.Matches B V fn') {b b' : BlockRef} (hb : B b b') :
    ofBlock fn' b' = ofBlock fn b := by
  have hphis : (fn'.phisAt b').map (PhiDoc.ofPhi fn') = (fn.phisAt b).map (PhiDoc.ofPhi fn) := by
    refine map_eq_of_forall₂ (fun p p' hp => ?_) (h.phis b b' hb)
    rw [PhiDoc.ofPhi, PhiDoc.ofPhi, hname _ _ hp.result, map_eq_of_forall₂ hname hp.operands]
  have hops := mapM_eq_of_forall₂ (fun _ _ hop => OpDoc.ofOp_eq_of_matches hlabel hname hop)
    (h.ops b b' hb)
  have hlabels : (fn'.block b').name = (fn.block b).name := hlabel _ _ (.some hb)
  rw [ofBlock_eq, ofBlock_eq, hops, hphis, hlabels]

end

/-- Matching functions whose blocks have the same names have the same description. -/
theorem FuncDoc.ofFunc_eq_of_matches (h : fn.Matches B V fn') {entry' : BlockRef}
    (hname : fn'.name = fn.name) (hentry : fn.entry = some entry)
    (hentry' : fn'.entry = some entry')
    (hlabels : ∀ b b', B b b' → (fn'.block b').name = (fn.block b).name)
    (horder : List.Forall₂ B (fn.reachable entry) (fn'.reachable entry')) :
    ofFunc fn' = ofFunc fn := by
  have hlabel : ∀ t t', Option.Rel B t t' → fn'.label t' = fn.label t := by
    intro t t' ht
    cases ht with
    | none => rfl
    | some hb => exact hlabels _ _ hb
  have hvalue : ∀ v v', Option.Rel V v v' → fn'.docName v' = fn.docName v := by
    intro v v' hv
    cases hv with
    | none => rfl
    | some hv => exact h.names _ _ hv
  have hblocks := mapM_eq_of_forall₂
    (fun b b' hb => BlockDoc.ofBlock_eq_of_matches hlabel hvalue h hb) horder
  rw [ofFunc_eq hentry, ofFunc_eq hentry', hblocks, hname]

theorem eq_range_of_at {order l : List BlockRef} (h : order.Nodup)
    (hl : List.Forall₂ (At order) order l) : l = List.range order.length := by
  refine List.ext_getElem? fun i => ?_
  have hrel := forall₂_getElem? hl i
  by_cases hi : i < order.length
  · rw [List.getElem?_eq_getElem hi] at hrel
    rw [List.getElem?_range hi]
    generalize l[i]? = x at hrel ⊢
    cases hrel with
    | some hj => rw [eq_of_getElem? h hj (List.getElem?_eq_getElem hi)]
  · rw [List.getElem?_eq_none (hl.length_eq ▸ Nat.le_of_not_lt hi),
      List.getElem?_eq_none (by simpa using hi)]

theorem Func.Loaded.liveSuccessors_eq (hw : fn.Loaded) (b : BlockRef) :
    fn.liveSuccessors b = fn.successors b := by
  refine List.filter_eq_self.mpr fun c hc => ?_
  obtain ⟨o, -, i, j, k, hslot⟩ := mem_successors_iff.mp hc
  exact isLive_iff.mpr ⟨hw.bound o i j k c hslot, hw.live c⟩

/-- `fn'` is a copy of `fn` that was built from a document. -/
structure Func.Rebuilt (fn : Func) (entry : BlockRef) (fn' : Func) : Prop where
  whole : fn.Whole entry
  copy : fn.Copies entry fn'
  built : ∃ f : FuncDoc, f.build = .ok fn'

theorem Func.Whole.exists_rebuilt (h : fn.Whole entry) : ∃ f fn', FuncDoc.ofFunc fn = .ok f ∧
    f.name = fn.name ∧ f.build = .ok fn' ∧ fn.Rebuilt entry fn' := by
  obtain ⟨f, hf, hshows⟩ := h.exists_shows
  obtain ⟨fn', hbuild⟩ := FuncDoc.exists_build_ok.mpr (hshows.wellFormed h)
  exact ⟨f, fn', hf, hshows.name, hbuild, h, hshows.copies h hbuild, f, hbuild⟩

namespace Func.Rebuilt

/-- The blocks of the copy are reached in the order of their counterparts. -/
theorem rel_reachable (h : fn.Rebuilt entry fn') :
    List.Forall₂ (At (fn.reachable entry)) (fn.reachable entry) (fn'.reachable 0) := by
  obtain ⟨f, hf⟩ := h.built
  refine h.copy.contents.reachable (biUnique_at (fn.nodup_reachable entry)) (fun b i hi => ?_)
    (fun b i _ => (FuncDoc.build_loaded hf).liveSuccessors_eq i) ?_
  · exact h.whole.live.liveSuccessors_eq (List.mem_of_getElem? hi)
  · rw [At, ← List.head?_eq_getElem?]
    exact h.copy.first.1

/-- So they are reached in the order in which they stand. -/
theorem reachable_eq (h : fn.Rebuilt entry fn') :
    fn'.reachable 0 = List.range fn'.blocks.length := by
  rw [h.copy.length]
  exact eq_range_of_at (fn.nodup_reachable entry) h.rel_reachable

theorem whole_copy (h : fn.Rebuilt entry fn') : fn'.Whole 0 := by
  obtain ⟨f, hf⟩ := h.built
  obtain ⟨entry', hwhole⟩ := FuncDoc.build_whole hf
  cases hwhole.start.symm.trans h.copy.first.2
  exact hwhole

/-- A copy of a copy has the same description. -/
theorem ofFunc_eq (h : fn.Rebuilt entry fn') {fn'' : Func} (h' : fn'.Rebuilt 0 fn'') :
    FuncDoc.ofFunc fn'' = FuncDoc.ofFunc fn' := by
  refine FuncDoc.ofFunc_eq_of_matches h'.copy.contents h'.copy.name h'.copy.start h'.copy.first.2
    (fun b i hi => ?_) h'.rel_reachable
  obtain ⟨hb, hlt⟩ := h'.copy.contents.bound b i hi
  -- a copy has its blocks in the order in which they are reached, so they keep their numbers
  have heq : b = i := by
    rw [At, h.reachable_eq] at hi
    obtain ⟨_, heq⟩ := List.getElem?_eq_some_iff.mp hi
    rw [← heq, List.getElem_range]
  rw [Block.name, Block.name, h'.whole.id b hb, h'.whole_copy.id i hlt, heq]

end Func.Rebuilt

/-! ## Documents -/

/-- Functions that can be described in full and have names of their own make up a document from
which copies of them are built. -/
theorem Document.exists_rebuilt {gs : List Func} (hnames : (gs.map Func.name).Nodup)
    (h : ∀ g ∈ gs, ∃ entry, g.Whole entry) : ∃ doc fns, ofFuncs gs = .ok doc ∧
      (∀ path st, ((doc.build path).run st).1 = .ok fns) ∧
      List.Forall₂ (fun g fn => ∃ entry, g.Rebuilt entry fn) gs fns := by
  obtain ⟨fs, hfs⟩ : ∃ fs, gs.mapM FuncDoc.ofFunc = .ok fs := by
    refine exists_mapM_ok.mpr fun g hg => ?_
    obtain ⟨entry, hwhole⟩ := h g hg
    obtain ⟨f, -, hf, -⟩ := hwhole.exists_rebuilt
    exact ⟨f, hf⟩
  have hshown : List.Forall₂ (fun g f => f.name = g.name ∧
      ∃ fn, f.build = .ok fn ∧ ∃ entry, g.Rebuilt entry fn) gs fs := by
    refine forall₂_imp_mem (mapM_eq_ok_iff.mp hfs) fun g hg f hf => ?_
    obtain ⟨entry, hwhole⟩ := h g hg
    obtain ⟨f', fn, hf', hname, hbuild, hrebuilt⟩ := hwhole.exists_rebuilt
    cases hf.symm.trans hf'
    exact ⟨hname, fn, hbuild, entry, hrebuilt⟩
  obtain ⟨fns, hfns⟩ : ∃ fns, fs.mapM FuncDoc.build = .ok fns := by
    refine exists_mapM_ok.mpr fun f hf => ?_
    obtain ⟨g, -, -, fn, hbuild, -⟩ := forall₂_mem_right hshown hf
    exact ⟨fn, hbuild⟩
  have hbuilt := mapM_eq_ok_iff.mp hfns
  refine ⟨⟨fs⟩, fns, bind_eq_ok.mpr ⟨fs, hfs, rfl⟩, fun path st => ?_, ?_⟩
  · refine build_eq_ok_iff.mpr ⟨?_, hbuilt⟩
    rw [map_eq_of_forall₂ (fun _ _ hf => hf.1) hshown]
    exact hnames
  · refine (forall₂_trans hshown hbuilt).imp fun g fn hfn => ?_
    obtain ⟨f, ⟨-, fn', hbuild', hrebuilt⟩, hbuild⟩ := hfn
    cases hbuild.symm.trans hbuild'
    exact hrebuilt

/-- A function as it was built, or as a pass without rejections left it. -/
def Func.Settles (fn g : Func) : Prop :=
  g = fn ∨ ∃ stats w, threadJumps.run ⟨fn, stats⟩ = (.ok (), w) ∧
    w.stats.phiRejects = stats.phiRejects ∧ g = w.fn

theorem Func.Settles.whole {f : FuncDoc} {fn g : Func} (h : fn.Settles g) (hf : f.build = .ok fn) :
    g.name = f.name ∧ ∃ entry, g.Whole entry := by
  have hname : fn.name = f.name := (FuncDoc.build_describes hf).name
  rcases h with rfl | ⟨stats, w, hrun, hrejects, rfl⟩
  · exact ⟨hname, FuncDoc.build_whole hf⟩
  · obtain ⟨hsame, hwhole⟩ := Threading.whole_of_pass hf hrun hrejects
    exact ⟨hsame.trans hname, hwhole⟩

/-- Functions that are described and built again come back as copies, and a second time around the
description does not change any more. -/
theorem export_round_trip {path : Text} {d : Document} {st : Stats} {fns gs : List Func}
    (hbuild : ((d.build path).run st).1 = .ok fns) (hgs : List.Forall₂ Func.Settles fns gs) :
    ∃ doc₁ fns₁ doc₂ fns₂, Document.ofFuncs gs = .ok doc₁ ∧
      (∀ path st, ((doc₁.build path).run st).1 = .ok fns₁) ∧
      List.Forall₂ (fun g fn => ∃ entry, g.Copies entry fn) gs fns₁ ∧
      Document.ofFuncs fns₁ = .ok doc₂ ∧ (∀ path st, ((doc₂.build path).run st).1 = .ok fns₂) ∧
      Document.ofFuncs fns₂ = .ok doc₂ := by
  obtain ⟨hnames, hbuilt⟩ := Document.build_eq_ok_iff.mp hbuild
  have hsettled : List.Forall₂ (fun f g => g.name = f.name ∧ ∃ entry, g.Whole entry)
      d.functions gs := by
    refine (forall₂_trans hbuilt hgs).imp fun f g hg => ?_
    obtain ⟨fn, hf, hg⟩ := hg
    exact hg.whole hf
  have hnames : (gs.map Func.name).Nodup := by
    rw [map_eq_of_forall₂ (fun _ _ hg => hg.1) hsettled]
    exact hnames
  obtain ⟨doc₁, fns₁, hdoc₁, hfns₁, hrebuilt₁⟩ := Document.exists_rebuilt hnames fun g hg => by
    obtain ⟨f, -, -, hwhole⟩ := forall₂_mem_right hsettled hg
    exact hwhole
  have hcopies : List.Forall₂ (fun g fn => fn.name = g.name ∧ ∃ entry, g.Copies entry fn)
      gs fns₁ := by
    refine hrebuilt₁.imp fun g fn h => ?_
    obtain ⟨entry, h⟩ := h
    exact ⟨h.copy.name, entry, h.copy⟩
  have hnames₁ : (fns₁.map Func.name).Nodup := by
    rw [map_eq_of_forall₂ (fun _ _ h => h.1) hcopies]
    exact hnames
  obtain ⟨doc₂, fns₂, hdoc₂, hfns₂, hrebuilt₂⟩ := Document.exists_rebuilt hnames₁ fun fn hfn => by
    obtain ⟨g, -, entry, h⟩ := forall₂_mem_right hrebuilt₁ hfn
    exact ⟨0, h.whole_copy⟩
  have hfixed : List.Forall₂ (fun fn fn₂ => FuncDoc.ofFunc fn₂ = FuncDoc.ofFunc fn) fns₁ fns₂ := by
    refine forall₂_imp_mem hrebuilt₂ fun fn hfn fn₂ h₂ => ?_
    obtain ⟨g, -, entry, h⟩ := forall₂_mem_right hrebuilt₁ hfn
    obtain ⟨entry₂, h₂⟩ := h₂
    cases h₂.copy.start.symm.trans h.copy.first.2
    exact h.ofFunc_eq h₂
  refine ⟨doc₁, fns₁, doc₂, fns₂, hdoc₁, hfns₁, hcopies.imp fun g fn h => h.2, hdoc₂, hfns₂, ?_⟩
  rw [← hdoc₂, Document.ofFuncs, Document.ofFuncs, mapM_eq_of_forall₂ (fun _ _ h => h) hfixed]

theorem ringAndChain_round_trip :
    ((ringAndChain.build "f.yaml").run {}).1 = .ok [ringAndChainFunc] ∧
      ∃ w, threadJumps.run ⟨ringAndChainFunc, {}⟩ = (.ok (), w) ∧ w.stats.phiRejects = 0 ∧
        ∃ doc₁ fns₁ doc₂ fns₂, Document.ofFuncs [w.fn] = .ok doc₁ ∧
          (∀ path st, ((doc₁.build path).run st).1 = .ok fns₁) ∧
          List.Forall₂ (fun g fn => ∃ entry, g.Copies entry fn) [w.fn] fns₁ ∧
          Document.ofFuncs fns₁ = .ok doc₂ ∧
          (∀ path st, ((doc₂.build path).run st).1 = .ok fns₂) ∧
          Document.ofFuncs fns₂ = .ok doc₂ := by
  have hbuild : ((ringAndChain.build "f.yaml").run {}).1 = .ok [ringAndChainFunc] := by
    decide +kernel
  have hok : (threadJumps.run ⟨ringAndChainFunc, {}⟩).1 = .ok () := by cbv
  have hrejects : (threadJumps.run ⟨ringAndChainFunc, {}⟩).2.stats.phiRejects = 0 := by cbv
  have hrun : threadJumps.run ⟨ringAndChainFunc, {}⟩ =
      (.ok (), (threadJumps.run ⟨ringAndChainFunc, {}⟩).2) := Prod.ext hok rfl
  exact ⟨hbuild, _, hrun, hrejects,
    export_round_trip hbuild (.cons (.inr ⟨{}, _, hrun, hrejects, rfl⟩) .nil)⟩

end FlowGraph
