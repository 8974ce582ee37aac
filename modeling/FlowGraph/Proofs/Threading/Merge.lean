import Mathlib
import FlowGraph.Proofs.Phis
import FlowGraph.Proofs.Threading.Step

/-! What a pass does to phi nodes. A trampoline that is passed over gives its phi nodes to phi
nodes of its destination, each to the first one that uses it, and keeps none; no other step
touches a phi node. -/

namespace FlowGraph

namespace Threading

variable {R : BlockRef → Prop} {s t : Threading} {fn fn' : Func} {b c dest : BlockRef}
  {p q : PhiRef} {v : Option ValueRef}

theorem length_mergeInto (fn : Func) (p c : PhiRef) :
    (mergeInto fn p c).phis.length = fn.phis.length := by
  simp [mergeInto, Func.modifyPhi]

theorem phi_mergeInto (hpc : c ≠ p) (hc : c < fn.phis.length) (q : PhiRef) :
    (mergeInto fn p c).phi q = if c = q then (fn.phi q).absorb (fn.phi p) else fn.phi q := by
  unfold mergeInto
  simp only [Func.phi_modifyPhi, hpc, false_and, if_false]
  by_cases hq : c = q
  · subst hq
    simp [Func.modifyPhi, hc, Phi.absorb]
  · simp [hq]

/-- The phi nodes of a trampoline that the phi node `q` of its destination takes up. -/
def takenBy (fn : Func) (b dest : BlockRef) (q : PhiRef) : List PhiRef :=
  (fn.block b).phis.filter fun p => fn.findPhiUsing dest (fn.phi p).result = some q

theorem mem_takenBy : p ∈ takenBy fn b dest q ↔
    p ∈ (fn.block b).phis ∧ fn.findPhiUsing dest (fn.phi p).result = some q := by
  simp [takenBy]

theorem mem_of_findPhiUsing (h : fn.findPhiUsing b v = some q) :
    q ∈ (fn.block b).phis ∧ v ∈ (fn.phi q).operands := by
  refine ⟨List.mem_of_find?_eq_some h, ?_⟩
  simpa [Phi.hasOperand] using List.find?_some h

/-- Pairs of phi nodes merged one after the other, where `find` gives each its consumer and no
consumer is itself merged. -/
theorem phi_foldl_mergeInto {find : PhiRef → Option PhiRef} (fn : Func) (q : PhiRef) :
    ∀ (ps cs : List PhiRef) (g : Func), ps.mapM find = some cs →
      (∀ p ∈ ps, g.phi p = fn.phi p) →
      (∀ p ∈ ps, ∀ c, find p = some c → c < g.phis.length ∧ c ∉ ps) →
      ((ps.zip cs).foldl (fun fn pc => mergeInto fn pc.1 pc.2) g).phi q =
        ((ps.filter fun p => find p = some q).map fn.phi).foldl Phi.absorb (g.phi q) := by
  intro ps
  induction ps with
  | nil => intro cs g _ _ _; rfl
  | cons p ps ih =>
    intro cs g hcs hphi hfind
    rw [List.mapM_cons] at hcs
    obtain ⟨c, hc, hcs⟩ := Option.bind_eq_some_iff.mp hcs
    obtain ⟨cs, hcs', hcs⟩ := Option.bind_eq_some_iff.mp hcs
    cases hcs
    obtain ⟨hlt, hout⟩ := hfind p List.mem_cons_self c hc
    obtain ⟨hcp, hout⟩ := not_or.mp (mt List.mem_cons.mpr hout)
    have hkeep : ∀ r, (mergeInto g p c).phi r =
        if c = r then (g.phi r).absorb (g.phi p) else g.phi r := phi_mergeInto hcp hlt
    rw [List.zip_cons_cons, List.foldl_cons, ih cs _ hcs']
    · rw [hkeep]
      by_cases hq : c = q
      · subst hq
        simp [hc, hphi]
      · simp [hc, hq]
    · intro p' hp'
      have hne : c ≠ p' := fun heq => hout (heq ▸ hp')
      rw [hkeep, if_neg hne]
      exact hphi p' (List.mem_cons_of_mem p hp')
    · intro p' hp' c' hc'
      obtain ⟨hlt', hout'⟩ := hfind p' (List.mem_cons_of_mem p hp') c' hc'
      exact ⟨by rw [length_mergeInto]; exact hlt', mt (List.mem_cons_of_mem p) hout'⟩

/-- The phi nodes of `b` went over to phi nodes of `dest`. -/
structure Handed (b dest : BlockRef) (fn fn' : Func) : Prop where
  distinct : dest ≠ b
  consumer : ∀ p ∈ (fn.block b).phis, ∃ q, fn.findPhiUsing dest (fn.phi p).result = some q
  length : fn'.phis.length = fn.phis.length
  lists : ∀ c, (fn'.block c).phis = if c = b then [] else (fn.block c).phis
  phi : ∀ q, fn'.phi q = ((takenBy fn b dest q).map fn.phi).foldl Phi.absorb (fn.phi q)

theorem exists_of_mapM {α β : Type} {f : α → Option β} {xs : List α} {ys : List β}
    (h : xs.mapM f = some ys) : ∀ x ∈ xs, ∃ y, f x = some y := by
  induction xs generalizing ys with
  | nil => simp
  | cons x xs ih =>
    rw [List.mapM_cons] at h
    obtain ⟨y, hy, h⟩ := Option.bind_eq_some_iff.mp h
    obtain ⟨ys', hys, -⟩ := Option.bind_eq_some_iff.mp h
    simpa using ⟨⟨y, hy⟩, ih hys⟩

theorem mergePhis_handed (hne : dest ≠ b)
    (hshare : ∀ p ∈ (fn.block b).phis, p ∉ (fn.block dest).phis)
    (h : mergePhis fn b dest = some fn') : Handed b dest fn fn' := by
  have hlists : ∀ c, (fn'.block c).phis = if c = b then [] else (fn.block c).phis := by
    intro c
    obtain ⟨phis, rfl⟩ := mergePhis_eq_some h
    rw [Func.block_modifyBlock]
    by_cases hc : c = b
    · subst hc
      by_cases hlt : c < fn.blocks.length <;> simp [hlt, Func.block]
    · simp [hc, Ne.symm hc, Func.block]
  unfold mergePhis at h
  obtain ⟨cs, hcs, h⟩ := Option.bind_eq_some_iff.mp h
  cases h
  have hlen : ∀ (pcs : List (PhiRef × PhiRef)) (g : Func),
      (pcs.foldl (fun fn pc => mergeInto fn pc.1 pc.2) g).phis.length = g.phis.length := by
    intro pcs
    induction pcs with
    | nil => intro g; rfl
    | cons pc pcs ih => intro g; rw [List.foldl_cons, ih, length_mergeInto]
  refine ⟨hne, exists_of_mapM hcs, hlen _ _, hlists, fun q => ?_⟩
  refine phi_foldl_mergeInto fn q _ cs fn hcs (fun _ _ => rfl) fun p _ c hc => ?_
  obtain ⟨hmem, hv⟩ := mem_of_findPhiUsing hc
  exact ⟨Func.lt_of_mem_operands hv, fun hcb => hshare c hcb hmem⟩

namespace Handed

theorem congr {fn'' : Func} (h : Handed b dest fn fn') (hsame : fn'.SamePhis fn'') :
    Handed b dest fn fn'' where
  distinct := h.distinct
  consumer := h.consumer
  length := by rw [hsame.table, h.length]
  lists c := (hsame.lists c).trans (h.lists c)
  phi q := (hsame.phi q).trans (h.phi q)

theorem result (h : Handed b dest fn fn') (q : PhiRef) :
    (fn'.phi q).result = (fn.phi q).result := by
  rw [h.phi, Phi.foldl_absorb_result]

theorem mem_lists (h : Handed b dest fn fn') :
    p ∈ (fn'.block c).phis ↔ c ≠ b ∧ p ∈ (fn.block c).phis := by
  rw [h.lists]
  split <;> simp [*]

theorem placed (h : Handed b dest fn fn') (hp : fn.Placed) : fn'.Placed where
  home c c' p hc hc' := hp.home c c' p (h.mem_lists.mp hc).2 (h.mem_lists.mp hc').2
  bound c p hc := by
    rw [h.length]
    exact hp.bound c p (h.mem_lists.mp hc).2
  nodup q := by
    rw [h.phi]
    exact Phi.nodup_foldl_absorb (hp.nodup q) _

theorem mem_attached (h : Handed b dest fn fn') (hp : fn.Placed) :
    q ∈ fn'.attached ↔ q ∈ fn.attached ∧ q ∉ (fn.block b).phis := by
  simp only [Func.mem_attached, h.mem_lists]
  constructor
  · intro ⟨c, hc, hq⟩
    exact ⟨⟨c, hq⟩, fun hqb => hc (hp.home c b q hq hqb)⟩
  · intro ⟨⟨c, hq⟩, hqb⟩
    exact ⟨c, fun hc => hqb (hc ▸ hq), hq⟩

/-- An operand was there before, or it came with a phi node that was taken up. -/
theorem mem_operands (h : Handed b dest fn fn') (hp : fn.Placed)
    (hv : v ∈ (fn'.phi q).operands) :
    (v ∈ (fn.phi q).operands ∧ ∀ p ∈ takenBy fn b dest q, v ≠ (fn.phi p).result) ∨
      ∃ p ∈ takenBy fn b dest q, v ∈ (fn.phi p).operands := by
  rw [h.phi] at hv
  simpa using Phi.mem_of_mem_foldl_absorb (hp.nodup q) hv

/-- Both kinds of operands are there, if no phi node of the trampoline uses another. -/
theorem mem_operands_iff (h : Handed b dest fn fn') (hnodup : (fn.phi q).operands.Nodup)
    (hapart : ∀ p ∈ (fn.block b).phis, ∀ p' ∈ (fn.block b).phis, p ≠ p' →
      (fn.phi p').result ∉ (fn.phi p).operands) :
    v ∈ (fn'.phi q).operands ↔
      (v ∈ (fn.phi q).operands ∧ ∀ p ∈ takenBy fn b dest q, v ≠ (fn.phi p).result) ∨
        ∃ p ∈ takenBy fn b dest q, v ∈ (fn.phi p).operands := by
  rw [h.phi, Phi.mem_foldl_absorb hnodup]
  · simp
  · rw [List.pairwise_map]
    refine List.pairwise_of_forall_mem_list fun p hpt p' hpt' hused => ?_
    -- a phi node may use its own result, and it may be listed twice
    by_cases hpp : p = p'
    · exact hpp ▸ hused
    · exact absurd hused (hapart p (mem_takenBy.mp hpt).1 p' (mem_takenBy.mp hpt').1 hpp)

end Handed

/-- A step leaves the phi nodes alone or hands those of one trampoline over, which is eliminated. -/
theorem Step.cases_phis (hp : s.fn.Placed) (h : Step R s t) : s.fn.SamePhis t.fn ∨
    ∃ b dest, R b ∧ s.fn.next b = some dest ∧ b ∈ t.removed ∧ Handed b dest s.fn t.fn := by
  cases h with
  | loop => exact .inl (.refl _)
  | reject => exact .inl (.refl _)
  | @bypass fn bb b dest hR hn hne hm =>
    refine .inr ⟨b, dest, hR, hn, ?_, ?_⟩
    · simp only [bypassed]
      split <;> simp [*]
    · have hshare : ∀ p ∈ (s.fn.block b).phis, p ∉ (s.fn.block dest).phis :=
        fun p hb hdest => hne (hp.home dest b p hdest hb)
      refine (mergePhis_handed hne hshare hm).congr ?_
      refine .trans ?_ ((Func.SamePhis.modifyBlock (f := fun bb => bb.removeParent (some b))
        (fun _ => rfl) _ dest).trans (.addParent _ dest bb))
      split
      · exact .refl fn
      · exact .modifyBlock (f := fun bb => { bb with dead := true }) (fun _ => rfl) fn b
  | shortCircuit => exact .inl (.addParent ..)
  | store => exact .inl ⟨rfl, fun _ => rfl⟩

theorem Step.placed (h : Step R s t) (hp : s.fn.Placed) : t.fn.Placed := by
  rcases h.cases_phis hp with hsame | ⟨_, _, -, -, -, hhanded⟩
  · exact hp.congr hsame
  · exact hhanded.placed hp

theorem Step.result (h : Step R s t) (hp : s.fn.Placed) (q : PhiRef) :
    (t.fn.phi q).result = (s.fn.phi q).result := by
  rcases h.cases_phis hp with hsame | ⟨_, _, -, -, -, hhanded⟩
  · rw [hsame.phi]
  · exact hhanded.result q

theorem Step.lists (h : Step R s t) (hp : s.fn.Placed) (c : BlockRef) :
    (t.fn.block c).phis = (s.fn.block c).phis ∨ c ∈ t.removed := by
  rcases h.cases_phis hp with hsame | ⟨b, _, -, -, hb, hhanded⟩
  · exact .inl (hsame.lists c)
  · rw [hhanded.lists]
    split
    · rename_i hc
      exact .inr (hc ▸ hb)
    · exact .inl rfl

theorem Steps.placed (h : Steps R s t) (hp : s.fn.Placed) : t.fn.Placed := by
  induction h with
  | refl => exact hp
  | tail _ hstep ih => exact hstep.placed ih

theorem Steps.result (h : Steps R s t) (hp : s.fn.Placed) (q : PhiRef) :
    (t.fn.phi q).result = (s.fn.phi q).result := by
  induction h with
  | refl => rfl
  | tail hsteps hstep ih => exact (hstep.result (Steps.placed hsteps hp) q).trans ih

/-- A block that is not eliminated keeps its phi nodes. -/
theorem Steps.lists (h : Steps R s t) (hp : s.fn.Placed) (c : BlockRef) :
    (t.fn.block c).phis = (s.fn.block c).phis ∨ c ∈ t.removed := by
  induction h with
  | refl => exact .inl rfl
  | tail hsteps hstep ih =>
    rcases hstep.lists (Steps.placed hsteps hp) c with hlist | hc
    · rcases ih with ih | hc
      · exact .inl (hlist.trans ih)
      · exact .inr (hstep.removed hc)
    · exact .inr hc

end Threading

end FlowGraph
