import Mathlib
import FlowGraph.Proofs.Search

/-! Breadth-first order. No block comes twice, and where two graphs correspond, block by block and
successor by successor, their orders correspond as well. -/

namespace FlowGraph

open Relator

variable {R : BlockRef → BlockRef → Prop} {succ succ' : BlockRef → List BlockRef}
  {unseen queue l l' : List BlockRef} {b c : BlockRef}

theorem nodup_firsts (l : List BlockRef) : (Func.firsts l).Nodup := by
  induction l with
  | nil => exact .nil
  | cons b l ih => exact List.nodup_cons.mpr ⟨by simp, ih.filter _⟩

theorem rel_firsts (hR : BiUnique R) (h : List.Forall₂ R l l') :
    List.Forall₂ R (Func.firsts l) (Func.firsts l') := by
  induction h with
  | nil => exact .nil
  | @cons b b' l l' hb _ ih =>
    refine .cons hb (List.rel_filter (fun c c' hc => ?_) ih)
    simpa using not_congr (rel_eq hR hc hb)

/-! ## The search -/

theorem mem_queue_or_unseen (hb : b ∈ bfs succ unseen queue) : b ∈ queue ∨ b ∈ unseen := by
  induction unseen, queue using bfs.induct succ with
  | case1 => simp [bfs] at hb
  | case2 unseen x rest fresh ih =>
    unfold bfs at hb
    rcases List.mem_cons.mp hb with rfl | hb
    · exact .inl List.mem_cons_self
    · rcases ih hb with hq | hu
      · rcases List.mem_append.mp hq with hr | hf
        · exact .inl (List.mem_cons_of_mem x hr)
        · exact .inr (by simpa using (List.mem_filter.mp hf).2)
      · exact .inr (List.mem_filter.mp hu).1

/-- What is in the queue has been seen, so no block enters it a second time. -/
theorem nodup_bfs (hsucc : ∀ b, (succ b).Nodup) (hq : queue.Nodup)
    (hseen : ∀ b ∈ queue, b ∉ unseen) : (bfs succ unseen queue).Nodup := by
  induction unseen, queue using bfs.induct succ with
  | case1 => simp [bfs]
  | case2 unseen x rest fresh ih =>
    unfold bfs
    obtain ⟨hx, hrest⟩ := List.nodup_cons.mp hq
    have hfresh : ∀ c ∈ fresh, c ∈ unseen := fun c hc => by simpa using (List.mem_filter.mp hc).2
    have hxu : x ∉ unseen := hseen x List.mem_cons_self
    have hnew : ∀ c ∈ rest ++ fresh, c ∉ unseen.removeAll fresh := by
      intro c hc hu
      obtain ⟨hcu, hcf⟩ : c ∈ unseen ∧ c ∉ fresh := by simpa [List.removeAll] using hu
      rcases List.mem_append.mp hc with hr | hf
      · exact hseen c (List.mem_cons_of_mem x hr) hcu
      · exact hcf hf
    refine List.nodup_cons.mpr ⟨fun hmem => ?_, ih ?_ hnew⟩
    · rcases mem_queue_or_unseen hmem with hq | hu
      · rcases List.mem_append.mp hq with hr | hf
        · exact hx hr
        · exact hxu (hfresh x hf)
      · exact hxu (List.mem_filter.mp hu).1
    · refine List.nodup_append.mpr ⟨hrest, (hsucc x).filter _, fun c hr d hf hcd => ?_⟩
      exact hseen c (List.mem_cons_of_mem x hr) (hfresh c (hcd ▸ hf))

/-- Both searches take the same course: the queues correspond, and a block is still unseen exactly
if its counterpart is. -/
theorem rel_bfs (hR : BiUnique R) (hsucc : ∀ b b', R b b' → List.Forall₂ R (succ b) (succ' b'))
    (unseen queue : List BlockRef) : ∀ unseen' queue',
      (∀ b b', R b b' → (b ∈ unseen ↔ b' ∈ unseen')) → List.Forall₂ R queue queue' →
        List.Forall₂ R (bfs succ unseen queue) (bfs succ' unseen' queue') := by
  induction unseen, queue using bfs.induct succ with
  | case1 =>
    intro unseen' queue' _ hq
    cases hq
    simp [bfs]
  | case2 unseen x rest fresh ih =>
    intro unseen' queue' hu hq
    cases hq with
    | @cons _ x' _ rest' hx hrest =>
      unfold bfs
      have hfresh : List.Forall₂ R fresh ((succ' x').filter (· ∈ unseen')) :=
        List.rel_filter (fun b b' hb => by simpa using hu b b' hb) (hsucc x x' hx)
      refine .cons hx (ih _ _ (fun b b' hb => ?_) (List.rel_append hrest hfresh))
      have hmem := List.rel_mem hR hb hfresh
      simp only [List.removeAll, List.mem_filter (p := fun b => !_), hu b b' hb]
      simp only [List.elem_eq_mem, hmem]

/-- A search may forget the successors that it is never going to see. -/
theorem bfs_filter (succ : BlockRef → List BlockRef) {U : List BlockRef} (hU : unseen ⊆ U) :
    bfs (fun b => (succ b).filter (· ∈ U)) unseen queue = bfs succ unseen queue := by
  induction unseen, queue using bfs.induct succ with
  | case1 => simp [bfs]
  | case2 unseen b rest fresh ih =>
    have hfresh : ((succ b).filter (· ∈ U)).filter (· ∈ unseen) = fresh := by
      rw [List.filter_filter]
      refine List.filter_congr fun c _ => ?_
      have := @hU c
      grind
    have hrest : unseen.removeAll fresh ⊆ U := fun c hc => hU (List.mem_filter.mp hc).1
    unfold bfs
    simp only [hfresh]
    exact congrArg _ (ih hrest)

/-! ## Reachable blocks -/

namespace Func

variable {fn fn' : Func} {entry entry' : BlockRef}

theorem nodup_reachable (fn : Func) (entry : BlockRef) : (fn.reachable entry).Nodup :=
  nodup_bfs (fun _ => (nodup_firsts _).filter _) (by simp) (by simp)

theorem lt_of_mem_reachable (hentry : entry < fn.blocks.length) (hb : b ∈ fn.reachable entry) :
    b < fn.blocks.length := by
  rcases mem_queue_or_unseen hb with hq | hu
  · exact List.mem_singleton.mp hq ▸ hentry
  · exact List.mem_range.mp (List.mem_filter.mp hu).1

/-- Of all reachable blocks only the entry may be eliminated. -/
theorem isLive_of_mem_reachable (hb : b ∈ fn.reachable entry) (hne : b ≠ entry) :
    fn.isLive b = true := by
  have hcases := reachable_of_closed (P := fun c => c = entry ∨ fn.isLive c = true) (.inl rfl)
    (fun _ _ _ _ hlive => .inr hlive) hb
  exact hcases.resolve_left hne

/-- A search from the entry has not seen the other reachable blocks when it starts. -/
theorem mem_unseen_iff (hb : b ∈ fn.reachable entry) :
    b ∈ (List.range fn.blocks.length).filter (· ≠ entry) ↔ b ≠ entry := by
  refine ⟨fun h => by simpa using (List.mem_filter.mp h).2, fun hne => ?_⟩
  have hlt := (isLive_iff.mp (isLive_of_mem_reachable hb hne)).1
  exact List.mem_filter.mpr ⟨List.mem_range.mpr hlt, by simpa using hne⟩

theorem head?_reachable (fn : Func) (entry : BlockRef) :
    (fn.reachable entry).head? = some entry := by
  simp [reachable, bfs]

theorem LiveEdges.liveSuccessors_eq (h : fn.LiveEdges entry) (hb : b ∈ fn.reachable entry) :
    fn.liveSuccessors b = fn.successors b :=
  List.filter_eq_self.mpr fun c hc => h b hb c (mem_successors_iff.mp hc)

theorem rel_reachable (hR : BiUnique R)
    (hbound : ∀ b b', R b b' → b < fn.blocks.length ∧ b' < fn'.blocks.length)
    (hsucc : ∀ b b', R b b' → List.Forall₂ R (fn.liveSuccessors b) (fn'.liveSuccessors b'))
    (hentry : R entry entry') : List.Forall₂ R (fn.reachable entry) (fn'.reachable entry') := by
  refine rel_bfs hR hsucc _ _ _ _ (fun b b' hb => ?_) (.cons hentry .nil)
  obtain ⟨hlt, hlt'⟩ := hbound b b' hb
  simpa [hlt, hlt'] using not_congr (rel_eq hR hb hentry)

end Func

end FlowGraph
