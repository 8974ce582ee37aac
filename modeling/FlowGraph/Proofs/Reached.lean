import Mathlib
import FlowGraph.Proofs.BreadthFirst
import FlowGraph.Proofs.Lawful

/-! The blocks that can be reached from an entry. A breadth-first search lists them in the order of
their distance from the entry: its queue never spans more than two distances, and a block that it
has not seen is further away than all blocks that it is done with. A snapshot answers every question
about paths between them, also after the graph has changed. -/

namespace FlowGraph

open Relation

namespace Func

variable {fn : Func} {entry b c x : BlockRef} {unseen queue rest found : List BlockRef} {n : Nat}

/-! ## Distances -/

/-- A path of `n` edges from the entry that enters live blocks only. -/
inductive ReachedIn (fn : Func) (entry : BlockRef) : Nat → BlockRef → Prop
  | start : ReachedIn fn entry 0 entry
  | step {n : Nat} {b c : BlockRef} (path : ReachedIn fn entry n b) (edge : fn.Refers b c)
      (live : fn.isLive c = true) : ReachedIn fn entry (n + 1) c

/-- The number of edges on a shortest path. -/
noncomputable def distance (fn : Func) (entry b : BlockRef) : Nat :=
  sInf {n | fn.ReachedIn entry n b}

theorem reached_iff_reachedIn : fn.Reached entry b ↔ ∃ n, fn.ReachedIn entry n b := by
  constructor
  · intro h
    induction h with
    | refl => exact ⟨0, .start⟩
    | tail _ hedge ih =>
      obtain ⟨n, hn⟩ := ih
      exact ⟨n + 1, hn.step hedge.1 hedge.2⟩
  · rintro ⟨n, hn⟩
    induction hn with
    | start => exact .refl
    | step _ hedge hlive ih => exact ih.tail ⟨hedge, hlive⟩

theorem distance_le (h : fn.ReachedIn entry n b) : fn.distance entry b ≤ n := Nat.sInf_le h

theorem reachedIn_distance (h : fn.Reached entry b) :
    fn.ReachedIn entry (fn.distance entry b) b :=
  Nat.sInf_mem (reached_iff_reachedIn.mp h)

theorem distance_le_succ (hb : fn.Reached entry b) (hc : c ∈ fn.liveSuccessors b) :
    fn.distance entry c ≤ fn.distance entry b + 1 := by
  obtain ⟨hedge, hlive⟩ := List.mem_filter.mp hc
  exact distance_le ((reachedIn_distance hb).step (mem_successors_iff.mp hedge) hlive)

/-- The last block but one of a shortest path. -/
theorem exists_nearer (hc : fn.Reached entry c) (hne : c ≠ entry) :
    ∃ b, fn.Reached entry b ∧ c ∈ fn.liveSuccessors b ∧
      fn.distance entry b + 1 = fn.distance entry c := by
  have hpath := reachedIn_distance hc
  generalize hn : fn.distance entry c = n at hpath
  cases hpath with
  | start => exact absurd rfl hne
  | @step m b _ hb hedge hlive =>
    have hreached : fn.Reached entry b := reached_iff_reachedIn.mpr ⟨m, hb⟩
    have hsucc : c ∈ fn.liveSuccessors b :=
      List.mem_filter.mpr ⟨mem_successors_iff.mpr hedge, hlive⟩
    have hle := distance_le hb
    have hge := distance_le_succ hreached hsucc
    exact ⟨b, hreached, hsucc, by omega⟩

/-! ## The order of the search -/

/-- What holds of the queue and of the blocks that are still unseen: the queue is in the order of
distances and holds no more than two of them, and a shortest path to an unseen block goes on from
a block that is not done with. -/
structure Layered (fn : Func) (entry : BlockRef) (unseen queue : List BlockRef) : Prop where
  reached : ∀ b ∈ queue, fn.Reached entry b
  sorted : queue.Pairwise fun b c => fn.distance entry b ≤ fn.distance entry c
  span : ∀ b ∈ queue, ∀ c ∈ queue, fn.distance entry c ≤ fn.distance entry b + 1
  nearer : ∀ c ∈ unseen, fn.Reached entry c → ∃ b, (b ∈ queue ∨ b ∈ unseen) ∧
    fn.Reached entry b ∧ c ∈ fn.liveSuccessors b ∧ fn.distance entry b + 1 = fn.distance entry c

theorem layered_start (fn : Func) (entry : BlockRef) :
    fn.Layered entry ((List.range fn.blocks.length).filter (· ≠ entry)) [entry] where
  reached b hb := List.mem_singleton.mp hb ▸ .refl
  sorted := List.pairwise_singleton _ entry
  span b hb c hc := by
    rw [List.mem_singleton.mp hb, List.mem_singleton.mp hc]
    omega
  nearer c hc hreached := by
    have hne : c ≠ entry := by simpa using (List.mem_filter.mp hc).2
    obtain ⟨b, hb, hsucc, hdist⟩ := exists_nearer hreached hne
    refine ⟨b, ?_, hb, hsucc, hdist⟩
    by_cases hbe : b = entry
    · exact .inl (List.mem_singleton.mpr hbe)
    · exact .inr ((mem_unseen_iff (mem_reachable_iff.mpr hb)).mpr hbe)

namespace Layered

theorem head_le (h : fn.Layered entry unseen (x :: rest)) (hb : b ∈ x :: rest) :
    fn.distance entry x ≤ fn.distance entry b := by
  rcases List.mem_cons.mp hb with rfl | hb
  · exact le_rfl
  · exact List.rel_of_pairwise_cons h.sorted hb

/-- By induction on the distance: the way back to the entry leaves the unseen blocks through the
queue, and each block on it is nearer than the one before. -/
theorem head_lt_of_unseen (h : fn.Layered entry unseen (x :: rest)) (hc : c ∈ unseen)
    (hreached : fn.Reached entry c) : fn.distance entry x < fn.distance entry c := by
  induction hn : fn.distance entry c using Nat.strong_induction_on generalizing c with
  | _ n ih =>
    obtain ⟨b, hb | hb, hbr, -, hdist⟩ := h.nearer c hc hreached
    · have := h.head_le hb
      omega
    · have := ih _ (by omega) hb hbr rfl
      omega

/-- The new blocks in the queue are one edge further than the block that is taken from it. -/
theorem distance_fresh (h : fn.Layered entry unseen (x :: rest)) (hc : c ∈ fn.liveSuccessors x)
    (hu : c ∈ unseen) : fn.Reached entry c ∧ fn.distance entry c = fn.distance entry x + 1 := by
  have hx := h.reached x List.mem_cons_self
  obtain ⟨hedge, hlive⟩ := List.mem_filter.mp hc
  have hreached : fn.Reached entry c := hx.tail ⟨mem_successors_iff.mp hedge, hlive⟩
  have hle := distance_le_succ hx hc
  have hlt := h.head_lt_of_unseen hu hreached
  exact ⟨hreached, by omega⟩

theorem step (h : fn.Layered entry unseen (x :: rest)) {fresh : List BlockRef}
    (hfresh : fresh = (fn.liveSuccessors x).filter (· ∈ unseen)) :
    fn.Layered entry (unseen.removeAll fresh) (rest ++ fresh) := by
  have hnew : ∀ c ∈ fresh,
      fn.Reached entry c ∧ fn.distance entry c = fn.distance entry x + 1 := by
    intro c hc
    rw [hfresh] at hc
    obtain ⟨hsucc, hu⟩ := List.mem_filter.mp hc
    exact h.distance_fresh hsucc (of_decide_eq_true hu)
  have hold : ∀ c ∈ rest, fn.distance entry x ≤ fn.distance entry c ∧
      fn.distance entry c ≤ fn.distance entry x + 1 := fun c hc =>
    ⟨h.head_le (List.mem_cons_of_mem x hc),
      h.span x List.mem_cons_self c (List.mem_cons_of_mem x hc)⟩
  refine ⟨?_, ?_, ?_, ?_⟩
  · intro b hb
    rcases List.mem_append.mp hb with hb | hb
    · exact h.reached b (List.mem_cons_of_mem x hb)
    · exact (hnew b hb).1
  · refine List.pairwise_append.mpr ⟨h.sorted.of_cons, List.pairwise_of_forall_mem_list ?_, ?_⟩
    · intro b hb c hc
      rw [(hnew b hb).2, (hnew c hc).2]
    · intro b hb c hc
      rw [(hnew c hc).2]
      exact (hold b hb).2
  · have hbetween : ∀ c ∈ rest ++ fresh, fn.distance entry x ≤ fn.distance entry c ∧
        fn.distance entry c ≤ fn.distance entry x + 1 := by
      intro c hc
      rcases List.mem_append.mp hc with hc | hc
      · exact hold c hc
      · have := (hnew c hc).2
        omega
    intro b hb c hc
    have := (hbetween b hb).1
    have := (hbetween c hc).2
    omega
  · intro c hc hreached
    obtain ⟨hu, hcf⟩ : c ∈ unseen ∧ c ∉ fresh := by simpa [List.removeAll] using hc
    obtain ⟨b, hb, hbr, hsucc, hdist⟩ := h.nearer c hu hreached
    refine ⟨b, ?_, hbr, hsucc, hdist⟩
    rcases hb with hb | hb
    · rcases List.mem_cons.mp hb with rfl | hb
      · -- all unseen successors of the block that is taken enter the queue
        exact absurd (hfresh ▸ List.mem_filter.mpr ⟨hsucc, decide_eq_true hu⟩) hcf
      · exact .inl (List.mem_append_left _ hb)
    · by_cases hbf : b ∈ fresh
      · exact .inl (List.mem_append_right _ hbf)
      · exact .inr (by simpa [List.removeAll] using ⟨hb, hbf⟩)

theorem pairwise_bfs (h : fn.Layered entry unseen queue) :
    (bfs fn.liveSuccessors unseen queue).Pairwise fun b c =>
      fn.distance entry b ≤ fn.distance entry c := by
  induction unseen, queue using bfs.induct fn.liveSuccessors with
  | case1 => simp [bfs]
  | case2 unseen x rest fresh ih =>
    have hnext := h.step (rfl : fresh = _)
    unfold bfs
    refine List.pairwise_cons.mpr ⟨fun c hc => ?_, ih hnext⟩
    have hreached : fn.Reached entry c :=
      bfs_of_closed (P := fn.Reached entry)
        (fun p hp q hq => hp.tail ⟨mem_successors_iff.mp (List.mem_filter.mp hq).1,
          (List.mem_filter.mp hq).2⟩) hnext.reached c hc
    rcases mem_queue_or_unseen hc with hq | hu
    · rcases List.mem_append.mp hq with hr | hf
      · exact h.head_le (List.mem_cons_of_mem x hr)
      · obtain ⟨hsucc, hu⟩ := List.mem_filter.mp hf
        have := (h.distance_fresh hsucc (of_decide_eq_true hu)).2
        omega
    · exact (h.head_lt_of_unseen (List.mem_filter.mp hu).1 hreached).le

end Layered

/-! ## The loop of the search -/

/-- The loop from what was found so far and a queue to its result: while the queue is not empty, its
first block is found, and the live successors of that block which were neither found nor queued
before go to the end of the queue. -/
inductive Explores (fn : Func) : List BlockRef → List BlockRef → List BlockRef → Prop
  | done (found : List BlockRef) : Explores fn found [] found
  | round {found rest result : List BlockRef} {b : BlockRef}
      (next : Explores fn (found ++ [b])
        (rest ++ (fn.liveSuccessors b).filter (· ∉ found ++ b :: rest)) result) :
      Explores fn found (b :: rest) result

/-- The loop ends, since a block that is seen leaves the unseen ones for good. -/
theorem explores_bfs (unseen queue : List BlockRef) : ∀ found,
    (∀ c, fn.isLive c = true → (c ∈ unseen ↔ c ∉ found ++ queue)) →
      fn.Explores found queue (found ++ bfs fn.liveSuccessors unseen queue) := by
  induction unseen, queue using bfs.induct fn.liveSuccessors with
  | case1 =>
    intro found _
    simpa [bfs] using Explores.done found
  | case2 unseen x rest fresh ih =>
    intro found hunseen
    have hfresh : (fn.liveSuccessors x).filter (· ∉ found ++ x :: rest) = fresh :=
      List.filter_congr fun c hc =>
        decide_eq_decide.mpr (hunseen c (List.mem_filter.mp hc).2).symm
    have hnext : ∀ c, fn.isLive c = true →
        (c ∈ unseen.removeAll fresh ↔ c ∉ (found ++ [x]) ++ (rest ++ fresh)) := by
      intro c hlive
      have hleft : c ∈ unseen.removeAll fresh ↔ c ∈ unseen ∧ c ∉ fresh := by
        simp [List.removeAll]
      rw [hleft, hunseen c hlive]
      simp only [List.mem_append, List.mem_cons, List.not_mem_nil]
      tauto
    have hloop := ih (found ++ [x]) hnext
    rw [List.append_assoc, List.singleton_append] at hloop
    unfold bfs
    exact .round (hfresh ▸ hloop)

/-- A search from an entry ends with a list that starts with the entry, has no block twice, has
exactly the blocks that can be reached, and is in the order of their distances. -/
theorem reachable_in_order_of_distance (fn : Func) (entry : BlockRef) :
    ∃ l, fn.reachableFrom (some entry) = .ok l ∧ fn.Explores [] [entry] l ∧
      l.head? = some entry ∧ l.Nodup ∧ (∀ b, b ∈ l ↔ fn.Reached entry b) ∧
      l.Pairwise fun b c => fn.distance entry b ≤ fn.distance entry c := by
  refine ⟨fn.reachable entry, rfl, ?_, head?_reachable fn entry, nodup_reachable fn entry,
    fun b => mem_reachable_iff, (layered_start fn entry).pairwise_bfs⟩
  refine explores_bfs _ _ [] fun c hlive => ?_
  simp [(isLive_iff.mp hlive).1]

end Func

/-! ## Snapshots -/

namespace Reach

variable {fn : Func} {entry x y : BlockRef}

theorem nodup_successors (fn : Func) (entry b : BlockRef) :
    ((ofEntry fn entry).successors b).Nodup := by
  by_cases hb : b ∈ fn.reachable entry
  · rw [successors_ofEntry hb]
    exact (nodup_firsts _).filter _
  · have hnone : (ofEntry fn entry).edges.lookup b = none := by
      rw [List.lookup_eq_none_iff]
      intro e he
      obtain ⟨c, hc, rfl⟩ := List.mem_map.mp he
      simpa using fun hbc : b = c => hb (hbc ▸ hc)
    rw [successors, hnone]
    exact .nil

theorem nodup_walk (fn : Func) (entry x : BlockRef) : ((ofEntry fn entry).walk x).Nodup := by
  rw [walk]
  split
  · exact nodup_bfs (nodup_successors fn entry) (by simp) (by simp)
  · exact .nil

theorem perm_walk (g : Reach) (now : Func) (x : BlockRef) :
    (g.reachable now x).Perm (g.walk x) :=
  List.mergeSort_perm _ _

theorem walk_of_not_has {g : Reach} (hx : g.has x = false) : g.walk x = [] := by
  simp [walk, hx]

theorem pathExists_iff_has : (ofEntry fn entry).pathExists x y = true ↔
    (ofEntry fn entry).has x = true ∧ (ofEntry fn entry).has y = true ∧
      ReflTransGen (fun b c => fn.Refers b c ∧ (ofEntry fn entry).has c = true) x y := by
  have hhas : ∀ b, (ofEntry fn entry).has b = true ↔ b ∈ fn.reachable entry := fun b =>
    decide_eq_true_iff
  simp only [pathExists_iff, hhas]
  refine and_congr_right fun hx => ⟨fun hpath => ⟨?_, hpath⟩, And.right⟩
  rcases hpath.cases_tail with rfl | ⟨_, -, hedge⟩
  · exact hx
  · exact hedge.2

/-- A snapshot has the blocks that could be reached when it was taken, and it finds the paths
between them that stay inside it. The blocks that one of them leads to come in the order of the
numbers that they have `now`. -/
theorem snapshot_answers_paths (fn now : Func) (entry : BlockRef) :
    let g := ofEntry fn entry
    (∀ b, g.has b = true ↔ fn.Reached entry b) ∧
    (∀ x y, g.pathExists x y = true ↔ g.has x = true ∧ g.has y = true ∧
      ReflTransGen (fun b c => fn.Refers b c ∧ g.has c = true) x y) ∧
    (∀ x, (∀ y, y ∈ g.reachable now x ↔ g.pathExists x y = true) ∧ (g.reachable now x).Nodup ∧
      ((g.reachable now x).Pairwise fun y z => (now.block y).id ≤ (now.block z).id) ∧
      (g.has x = false → g.reachable now x = [])) ∧
    (g.reachable now entry).Perm (fn.reachable entry) := by
  intro g
  refine ⟨fun b => Func.has_ofEntry_iff, fun x y => pathExists_iff_has,
    fun x => ⟨fun y => ?_, ?_, ?_, fun hx => ?_⟩, ?_⟩
  · rw [(perm_walk g now x).mem_iff, pathExists, decide_eq_true_iff]
  · exact (perm_walk g now x).nodup_iff.mpr (nodup_walk fn entry x)
  · exact Func.pairwise_reachable now g x
  · rw [← List.perm_nil, ← walk_of_not_has hx]
    exact perm_walk g now x
  · refine (perm_walk g now entry).trans ?_
    rw [List.perm_ext_iff_of_nodup (nodup_walk fn entry entry) (Func.nodup_reachable fn entry)]
    exact fun b => mem_walk_ofEntry

end Reach

end FlowGraph
