import Mathlib
import FlowGraph.Proofs.Edges
import FlowGraph.Proofs.Ensures
import FlowGraph.Reach
import FlowGraph.Walk

/-! The two searches of the library. The depth-first walk lets visitors change the graph, so it
is described by a rule for invariants over the blocks still unvisited, the stack and the state.
The breadth-first search reads a fixed graph and is described by its elements; a snapshot answers
questions about paths between them. -/

namespace FlowGraph

/-! ## The walk -/

namespace Visitor

variable {σ : Type} {graph : σ → Func} {vs : List (Visitor σ)}

theorem walkFrom_ensures {I : List BlockRef → List BlockRef → σ → Prop}
    (skip : ∀ unvisited b rest s, b ∉ unvisited → I unvisited (b :: rest) s → I unvisited rest s)
    (visit : ∀ unvisited b rest s, b ∈ unvisited → I unvisited (b :: rest) s →
      Ensures (visitBlock graph vs b) s fun next t =>
        I (unvisited.erase b) (next.filter (· ∈ unvisited.erase b) ++ rest) t)
    (unvisited stack : List BlockRef) : ∀ s, I unvisited stack s →
      Ensures (walkFrom graph vs unvisited stack) s fun _ t => ∃ unvisited', I unvisited' [] t := by
  induction unvisited, stack using walkFrom.induct with
  | case1 unvisited =>
    intro s h
    unfold walkFrom
    exact .pure ⟨unvisited, h⟩
  | case2 unvisited b rest hb ih =>
    intro s h
    unfold walkFrom
    rw [dif_pos hb]
    exact .bind ((visit unvisited b rest s hb h).mono fun next t ht => ih next t ht)
  | case3 unvisited b rest hb ih =>
    intro s h
    unfold walkFrom
    rw [dif_neg hb]
    exact ih s (skip unvisited b rest s hb h)

end Visitor

/-! ## Breadth-first search -/

section

variable {succ : BlockRef → List BlockRef} {unseen queue : List BlockRef} {b c : BlockRef}

theorem mem_bfs_of_queue (hb : b ∈ queue) : b ∈ bfs succ unseen queue := by
  induction unseen, queue using bfs.induct succ with
  | case1 => cases hb
  | case2 unseen x rest fresh ih =>
    unfold bfs
    rcases List.mem_cons.mp hb with rfl | hb
    · exact List.mem_cons_self
    · exact List.mem_cons_of_mem _ (ih (List.mem_append_left _ hb))

/-- What holds of the queue and is handed on to successors holds of all that is found. -/
theorem bfs_of_closed {P : BlockRef → Prop} (step : ∀ b, P b → ∀ c ∈ succ b, P c)
    (hq : ∀ b ∈ queue, P b) : ∀ b ∈ bfs succ unseen queue, P b := by
  induction unseen, queue using bfs.induct succ with
  | case1 => simp [bfs]
  | case2 unseen x rest fresh ih =>
    intro b hb
    unfold bfs at hb
    have hx : P x := hq x List.mem_cons_self
    rcases List.mem_cons.mp hb with rfl | hb
    · exact hx
    · refine ih (fun c hc => ?_) b hb
      rcases List.mem_append.mp hc with hc | hc
      · exact hq c (List.mem_cons_of_mem _ hc)
      · exact step x hx c (List.mem_filter.mp hc).1

/-- A successor of a block that is found is found, unless it was seen before. -/
theorem bfs_closed (hb : b ∈ bfs succ unseen queue) (hc : c ∈ succ b) (hu : c ∈ unseen) :
    c ∈ bfs succ unseen queue := by
  induction unseen, queue using bfs.induct succ with
  | case1 => simp [bfs] at hb
  | case2 unseen x rest fresh ih =>
    unfold bfs at hb ⊢
    refine List.mem_cons_of_mem _ ?_
    by_cases hf : c ∈ fresh
    · exact mem_bfs_of_queue (List.mem_append_right _ hf)
    · rcases List.mem_cons.mp hb with rfl | hb
      · exact absurd (List.mem_filter.mpr ⟨hc, by simpa using hu⟩) hf
      · exact ih hb (by simpa [List.removeAll] using ⟨hu, hf⟩)

end

namespace Func

variable {fn : Func} {entry b c : BlockRef}

theorem entry_mem_reachable (fn : Func) (entry : BlockRef) : entry ∈ fn.reachable entry :=
  mem_bfs_of_queue List.mem_cons_self

theorem reachable_of_closed {P : BlockRef → Prop} (hentry : P entry)
    (step : ∀ b, P b → ∀ c, fn.Refers b c → fn.isLive c = true → P c)
    (hb : b ∈ fn.reachable entry) : P b := by
  refine bfs_of_closed (P := P) (fun x hx c hc => ?_) (by simpa using hentry) b hb
  obtain ⟨hc, hlive⟩ := List.mem_filter.mp hc
  exact step x hx c (mem_successors_iff.mp hc) hlive

theorem reachable_closed (hb : b ∈ fn.reachable entry) (hr : fn.Refers b c)
    (hlive : fn.isLive c = true) : c ∈ fn.reachable entry := by
  by_cases hc : c = entry
  · rw [hc]
    exact entry_mem_reachable fn entry
  · have hmem : c ∈ fn.liveSuccessors b :=
      List.mem_filter.mpr ⟨mem_successors_iff.mpr hr, hlive⟩
    exact bfs_closed hb hmem (by simpa [hc] using (isLive_iff.mp hlive).1)

/-- No reachable block refers to an eliminated one. -/
def LiveEdges (fn : Func) (entry : BlockRef) : Prop :=
  ∀ b ∈ fn.reachable entry, ∀ c, fn.Refers b c → fn.isLive c = true

theorem LiveEdges.closed (h : fn.LiveEdges entry) (hb : b ∈ fn.reachable entry)
    (hpath : Relation.ReflTransGen fn.Refers b c) : c ∈ fn.reachable entry := by
  induction hpath with
  | refl => exact hb
  | tail _ hr ih => exact reachable_closed ih hr (h _ ih _ hr)

theorem LiveEdges.mem_reachable_iff (h : fn.LiveEdges entry) :
    b ∈ fn.reachable entry ↔ Relation.ReflTransGen fn.Refers entry b := by
  refine ⟨fun hb => ?_, h.closed (entry_mem_reachable fn entry)⟩
  exact reachable_of_closed (P := Relation.ReflTransGen fn.Refers entry) .refl
    (fun x hx c hr _ => hx.tail hr) hb

end Func

namespace Reach

open Relation

variable {fn : Func} {entry b x y : BlockRef}

theorem lookup_map_of_mem {l : List BlockRef} (f : BlockRef → List BlockRef) (hb : b ∈ l) :
    (l.map fun p => (p, f p)).lookup b = some (f b) := by
  induction l with
  | nil => cases hb
  | cons x l ih =>
    rw [List.map_cons, List.lookup_cons]
    by_cases hx : b = x
    · simp [hx]
    · have hne : (b == x) = false := by simpa using hx
      rw [hne]
      exact ih ((List.mem_cons.mp hb).resolve_left hx)

theorem successors_ofEntry (hb : b ∈ fn.reachable entry) :
    (ofEntry fn entry).successors b =
      (fn.successors b).filter fun q => q ∈ fn.reachable entry ∧ q ≠ b := by
  rw [successors, ofEntry, lookup_map_of_mem _ hb]
  rfl

/-- What a block of the snapshot leads to: paths may not leave the snapshot. -/
theorem mem_walk_iff (hx : x ∈ fn.reachable entry) : y ∈ (ofEntry fn entry).walk x ↔
    ReflTransGen (fun b c => fn.Refers b c ∧ c ∈ fn.reachable entry) x y := by
  have hhas : (ofEntry fn entry).has x = true := by simpa [has, ofEntry] using hx
  rw [walk, if_pos hhas]
  constructor
  · intro hy
    refine (bfs_of_closed (P := fun y => y ∈ fn.reachable entry ∧ ReflTransGen
      (fun b c => fn.Refers b c ∧ c ∈ fn.reachable entry) x y) ?_ ?_ y hy).2
    · intro b ⟨hb, hpath⟩ c hc
      rw [successors_ofEntry hb, List.mem_filter] at hc
      have hmem := (of_decide_eq_true hc.2).1
      exact ⟨hmem, hpath.tail ⟨Func.mem_successors_iff.mp hc.1, hmem⟩⟩
    · intro b hb
      rw [List.mem_singleton.mp hb]
      exact ⟨hx, .refl⟩
  · intro hpath
    suffices hfound : y ∈ fn.reachable entry ∧ y ∈ bfs (ofEntry fn entry).successors
        ((ofEntry fn entry).blocks.filter (· ≠ x)) [x] from hfound.2
    induction hpath with
    | refl => exact ⟨hx, mem_bfs_of_queue List.mem_cons_self⟩
    | @tail b c _ hedge ih =>
      obtain ⟨hb, hfound⟩ := ih
      obtain ⟨hr, hc⟩ := hedge
      refine ⟨hc, ?_⟩
      -- the snapshot has no self edges, and the start is never unseen
      by_cases hcb : c = b
      · rw [hcb]
        exact hfound
      by_cases hcx : c = x
      · rw [hcx]
        exact mem_bfs_of_queue List.mem_cons_self
      · refine bfs_closed hfound ?_ (List.mem_filter.mpr ⟨hc, by simpa using hcx⟩)
        rw [successors_ofEntry hb]
        exact List.mem_filter.mpr ⟨Func.mem_successors_iff.mpr hr, by simpa using ⟨hc, hcb⟩⟩

theorem pathExists_iff : (ofEntry fn entry).pathExists x y = true ↔ x ∈ fn.reachable entry ∧
    ReflTransGen (fun b c => fn.Refers b c ∧ c ∈ fn.reachable entry) x y := by
  rw [pathExists, decide_eq_true_iff]
  by_cases hx : x ∈ fn.reachable entry
  · simp [mem_walk_iff hx, hx]
  · have hhas : (ofEntry fn entry).has x = false := by simpa [has, ofEntry] using hx
    simp [walk, hhas, hx]

/-- A check of the snapshot sees the blocks that are reachable from its entry. -/
theorem mem_walk_ofEntry : b ∈ (ofEntry fn entry).walk entry ↔ b ∈ fn.reachable entry := by
  have hentry := Func.entry_mem_reachable fn entry
  rw [mem_walk_iff hentry]
  constructor
  · intro hpath
    rcases ReflTransGen.cases_tail hpath with rfl | ⟨_, -, hedge⟩
    · exact hentry
    · exact hedge.2
  · intro hb
    refine (Func.reachable_of_closed (P := fun b => b ∈ fn.reachable entry ∧ ReflTransGen
      (fun b c => fn.Refers b c ∧ c ∈ fn.reachable entry) entry b) ⟨hentry, .refl⟩ ?_ hb).2
    intro x ⟨hx, hpath⟩ c hr hlive
    have hc := Func.reachable_closed hx hr hlive
    exact ⟨hc, hpath.tail ⟨hr, hc⟩⟩

/-- Paths of a graph whose reachable edges are live never leave the snapshot. -/
theorem pathExists_of_liveEdges (h : fn.LiveEdges entry) :
    (ofEntry fn entry).pathExists x y = true ↔
      x ∈ fn.reachable entry ∧ ReflTransGen fn.Refers x y := by
  rw [pathExists_iff]
  refine and_congr_right fun hx => ⟨ReflTransGen.mono (fun _ _ hr => hr.1) x y, fun hpath => ?_⟩
  induction hpath with
  | refl => exact .refl
  | tail hpath hr ih => exact ih.tail ⟨hr, h.closed hx (hpath.tail hr)⟩

theorem mem_reachable_ofEntry :
    b ∈ (ofEntry fn entry).reachable fn entry ↔ b ∈ fn.reachable entry := by
  rw [reachable, List.mem_mergeSort, mem_walk_ofEntry]

end Reach

end FlowGraph
