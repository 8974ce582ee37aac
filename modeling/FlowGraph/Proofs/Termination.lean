import Mathlib
import FlowGraph.Proofs.Threading.Guard

/-! Every pass ends. A call of the simplifier ends because each call that it leads to takes one
more operation into progress, and a walk ends because it enters no block twice. Both go over the
graph as they find it, so neither needs more of it than that its tables are finite. -/

namespace FlowGraph

namespace Visitor

variable {σ : Type} {graph : σ → Func} {vs : List (Visitor σ)} {I : σ → Prop}
  {E : Fault → σ → Prop}

/-- The blocks to go on with are blocks of the graph. -/
theorem visitOps_next {m : Nat} (h : ∀ v ∈ vs, v.Keeps I E)
    (hsize : ∀ s, I s → (graph s).blocks.length = m) (b : BlockRef) (os : List OpRef) :
    ∀ s, I s → Outcome (visitOps graph vs b os) s (fun next _ => ∀ c ∈ next, c < m) E := by
  induction os with
  | nil => exact fun s _ => .pure (by simp)
  | cons o os ih =>
    intro s hs
    refine (forM_outcome h (fun v hv => hv.enterOp o b) s hs).andThen fun _ t ht => ?_
    refine .bind (.get ((ih t ht).andThen fun next u hnext => .pure fun c hc => ?_))
    rcases List.mem_append.mp hc with hc | hc
    · rw [← hsize t ht]
      exact (Func.isLive_iff.mp (List.mem_filter.mp hc).2).1
    · exact hnext c hc

/-- What one visitor that ignores the leaving of blocks makes of a block. -/
theorem visitBlock_singleton {m : Type → Type} [Monad m] [LawfulMonad m] [MonadStateOf σ m]
    (graph : σ → Func) {v : VisitorIn m} (hleave : ∀ b, v.leaveBlock b = pure ()) (b : BlockRef) :
    visitBlock graph [v] b = (do
      v.enterBlock (some b)
      visitOps graph [v] b ((graph (← get)).block b).ops) := by
  simp [visitBlock, hleave]

end Visitor

namespace Threading

/-- Threads an operation while the operations `running` are in progress further out. -/
def simplifyBeside (running : Finset OpRef) (o : OpRef) (bb : Option BlockRef) : M Unit := do
  simplifyIdle ((List.range (← get).fn.ops.length).filter (· ∉ running)) o bb

def visitorBeside (running : Finset OpRef) : Visitor Threading where
  enterOp o b := simplifyBeside running o (some b)

theorem simplifyBeside_empty : simplifyBeside ∅ = simplify := by
  funext o bb
  simp [simplifyBeside, simplify, simplifyIn]

theorem visitorBeside_empty : visitorBeside ∅ = visitor := by
  rw [visitorBeside, simplifyBeside_empty]
  rfl

namespace Guarded

variable {α : Type} {g : Guarded}

/-! ## The walk, with the blocks that it visited -/

def enter (b : Option BlockRef) (g : Guarded) : Guarded := { g with entered := g.entered ++ [b] }

/-- The simplifier as a visitor, which records where it is. -/
def visitor : VisitorIn M where
  enterBlock b := modifyThe Guarded (enter b)
  enterOp o b := simplify o (some b)

def visitBlock (b : BlockRef) : M (List BlockRef) :=
  Visitor.visitBlock (fun g : Guarded => g.fn) [visitor] b

/-- Walks from the blocks of the stack, the first one on top, and goes on by `self`. -/
def advance (self : Finset BlockRef → List BlockRef → M Unit) (visited : Finset BlockRef)
    (stack : List BlockRef) : M Unit :=
  match stack with
  | [] => pure ()
  | b :: rest =>
    if b ∈ visited then self visited rest
    else do
      let next ← visitBlock b
      let visited := insert b visited
      self visited (next.filter (· ∉ visited) ++ rest)

theorem advance_approximates {self self' : Finset BlockRef → List BlockRef → M Unit}
    (h : ∀ visited stack, Approximates (self visited stack) (self' visited stack))
    (visited : Finset BlockRef) (stack : List BlockRef) :
    Approximates (advance self visited stack) (advance self' visited stack) := by
  unfold advance
  split
  · exact .refl _
  · split
    · exact h _ _
    · exact .bind (.refl _) fun next => h _ _

def walks : Recursion (Finset BlockRef × List BlockRef) where
  body self i := advance (fun visited stack => self (visited, stack)) i.1 i.2
  approximates h i := advance_approximates (fun visited stack => h (visited, stack)) i.1 i.2

/-- Walks from the blocks of the stack, the first one on top. -/
def traverseFrom (visited : Finset BlockRef) (stack : List BlockRef) : M Unit :=
  walks.fix (visited, stack)

theorem traverseFrom_eq (visited : Finset BlockRef) (stack : List BlockRef) :
    traverseFrom visited stack = advance traverseFrom visited stack :=
  congrFun walks.fix_eq (visited, stack)

def traverse : Option BlockRef → M Unit
  | none => do
    modifyThe Guarded (enter none)
    throw .missingBlock
  | some b => traverseFrom ∅ [b]

/-! ## One block -/

theorem simplify_beside (o : OpRef) (bb : Option BlockRef) (g : Guarded) :
    Follows (simplify o bb) (simplifyBeside g.running o bb) g :=
  simplify_follows _ o bb g ⟨List.nodup_range.filter _, by simp⟩

theorem visitorBeside_keeps {m n : Nat} (running : Finset OpRef) :
    (visitorBeside running).Keeps (Sized m n) fun _ s => Sized m n s where
  enterBlock _ _ h := .pure h
  enterOp o b s h := by
    obtain ⟨_, -, hlike, -⟩ := simplify_beside o (some b) { toThreading := s, running }
    have hafter : Sized m n ((simplifyBeside running o (some b)).run s).2 :=
      ⟨hlike.blocks.trans h.1, hlike.ops.trans h.2⟩
    exact ⟨fun _ _ => hafter, fun _ _ => hafter⟩
  leaveBlock _ _ h := .pure h

theorem visitOps_follows (b : BlockRef) : ∀ (os : List OpRef) (g : Guarded),
    Follows (Visitor.visitOps (fun g : Guarded => g.fn) [visitor] b os)
      (Visitor.visitOps (fun s : Threading => s.fn) [visitorBeside g.running] b os) g
  | [], g => .pure [] g
  | o :: os, g => by
    have hop : Follows ([visitor].forM fun v => v.enterOp o b)
        ([visitorBeside g.running].forM fun v => v.enterOp o b) g :=
      .bind (simplify_beside o (some b) g) fun _ t _ => .pure () t
    refine hop.bind fun _ t ht => .get_bind (.bind ?_ fun _ u _ => .pure _ u)
    rw [← ht.running]
    exact visitOps_follows b os t

theorem visitBlock_ends {b : BlockRef} {r : Except Fault (List BlockRef)} {s : Threading}
    (h : (Visitor.visitBlock (fun s : Threading => s.fn) [visitorBeside g.running] b).run
      g.toThreading = (r, s)) :
    ∃ frames, Nested g.fn.ops.length g.running frames ∧ Like g (g.goTo s frames) ∧
      (visitBlock b).run g = some (r, (g.goTo s frames).enter (some b)) := by
  obtain ⟨frames, hnested, hlike, hrun⟩ := visitOps_follows b (g.fn.block b).ops (g.enter (some b))
  rw [Visitor.visitBlock_singleton _ fun _ => rfl] at h
  change (Visitor.visitOps (fun s : Threading => s.fn) [visitorBeside (g.enter (some b)).running] b
    (g.fn.block b).ops).run (g.enter (some b)).toThreading = _ at h
  rw [h] at hlike hrun
  refine ⟨frames, hnested, ⟨hlike.running, hlike.ops, hlike.blocks⟩, ?_⟩
  rw [visitBlock, Visitor.visitBlock_singleton _ fun _ => rfl]
  exact hrun

theorem visitBlock_next {b : BlockRef} {next : List BlockRef} {s : Threading}
    (h : (Visitor.visitBlock (fun s : Threading => s.fn) [visitorBeside g.running] b).run
      g.toThreading = (.ok next, s)) : ∀ c ∈ next, c < g.fn.blocks.length := by
  have hkeeps : ∀ v ∈ [visitorBeside g.running],
      v.Keeps (Sized g.fn.blocks.length g.fn.ops.length) fun _ t =>
        Sized g.fn.blocks.length g.fn.ops.length t := by
    intro v hv
    rw [List.mem_singleton.mp hv]
    exact visitorBeside_keeps g.running
  rw [Visitor.visitBlock_singleton _ fun _ => rfl] at h
  exact (Visitor.visitOps_next hkeeps (fun t ht => ht.1) b _ g.toThreading ⟨rfl, rfl⟩).1 next
    (congrArg Prod.fst h)

/-! ## The walk ends -/

/-- The blocks of the table that were not visited. -/
structure Unvisited (unvisited : List BlockRef) (visited : Finset BlockRef) (g : Guarded) :
    Prop where
  nodup : unvisited.Nodup
  mem : ∀ b, b ∈ unvisited ↔ b < g.fn.blocks.length ∧ b ∉ visited

theorem Unvisited.erase {unvisited : List BlockRef} {visited : Finset BlockRef} {g t : Guarded}
    (h : Unvisited unvisited visited g) (b : BlockRef)
    (ht : t.fn.blocks.length = g.fn.blocks.length) :
    Unvisited (unvisited.erase b) (insert b visited) t where
  nodup := h.nodup.erase b
  mem c := by
    rw [h.nodup.mem_erase_iff, h.mem, ht, Finset.mem_insert]
    tauto

/-- From `g` the walk `x` ends as `y` does, and enters blocks of `unvisited` only, none twice. -/
def Walks (x : M Unit) (y : Threading.M Unit) (unvisited : List BlockRef) (g : Guarded) : Prop :=
  ∃ frames fresh, Nested g.fn.ops.length g.running frames ∧ fresh.Nodup ∧ fresh ⊆ unvisited ∧
    x.run g = some ((y.run g.toThreading).1,
      { g.goTo (y.run g.toThreading).2 frames with entered := g.entered ++ fresh.map some })

theorem traverseFrom_walks (unvisited stack : List BlockRef) :
    ∀ (visited : Finset BlockRef) (g : Guarded), Unvisited unvisited visited g →
      (∀ b ∈ stack, b < g.fn.blocks.length) →
      Walks (traverseFrom visited stack) (Visitor.walkFrom (fun s : Threading => s.fn)
        [visitorBeside g.running] unvisited stack) unvisited g := by
  induction unvisited, stack using Visitor.walkFrom.induct with
  | case1 unvisited =>
    intro visited g _ _
    refine ⟨[], [], .nil, .nil, List.nil_subset _, ?_⟩
    unfold Visitor.walkFrom
    rw [traverseFrom_eq]
    simp [goTo, advance]
    rfl
  | case2 unvisited b rest hb ih =>
    intro visited g hun hstack
    have hnew : b ∉ visited := ((hun.mem b).mp hb).2
    rcases hvisit : (Visitor.visitBlock (fun s : Threading => s.fn) [visitorBeside g.running] b).run
      g.toThreading with ⟨e | next, s⟩
    all_goals
      obtain ⟨frames, hnested, hlike, hrun⟩ := visitBlock_ends hvisit
      unfold Visitor.walkFrom Walks
      rw [dif_pos hb, traverseFrom_eq, advance, if_neg hnew, run_bind, hrun, FlowGraph.run_bind,
        hvisit]
    · exact ⟨frames, [b], hnested, by simp, by simpa using hb, rfl⟩
    · have hnext := visitBlock_next hvisit
      have hrest : next.filter (· ∉ insert b visited) = next.filter (· ∈ unvisited.erase b) := by
        refine List.filter_congr fun c hc => ?_
        simp only [((hun.erase b rfl).mem c), hnext c hc, true_and]
      have hstack' : ∀ c ∈ next.filter (· ∈ unvisited.erase b) ++ rest,
          c < ((g.goTo s frames).enter (some b)).fn.blocks.length := by
        intro c hc
        change c < (g.goTo s frames).fn.blocks.length
        rw [hlike.blocks]
        rcases List.mem_append.mp hc with hc | hc
        · exact hnext c (List.mem_filter.mp hc).1
        · exact hstack c (List.mem_cons_of_mem b hc)
      obtain ⟨more, fresh, hmore, hnodup, hsub, hwalk⟩ := ih next (insert b visited)
        ((g.goTo s frames).enter (some b)) (hun.erase b hlike.blocks) hstack'
      have hb' : b ∉ fresh := fun hmem => hun.nodup.not_mem_erase (hsub hmem)
      refine ⟨frames ++ more, b :: fresh, hnested.append ?_, List.nodup_cons.mpr ⟨hb', hnodup⟩,
        List.cons_subset.mpr ⟨hb, fun c hc => List.mem_of_mem_erase (hsub hc)⟩, ?_⟩
      · rw [← hlike.running, ← hlike.ops]
        exact hmore
      · simp only [Option.bind_some, hrest]
        rw [hwalk]
        simp [goTo, enter, List.append_assoc]
  | case3 unvisited b rest hb ih =>
    intro visited g hun hstack
    have hold : b ∈ visited := by
      by_contra hnew
      exact hb ((hun.mem b).mpr ⟨hstack b List.mem_cons_self, hnew⟩)
    unfold Visitor.walkFrom
    rw [dif_neg hb, traverseFrom_eq, advance, if_pos hold]
    exact ih visited g hun fun c hc => hstack c (List.mem_cons_of_mem b hc)

/-- From `g` the action `x` ends in `t`. It returns or breaks off as `y` does, which ends by its
definition, and what was in progress before is in progress afterwards, no more and no less. The
calls on the way are nested as deep as there are operations at most. -/
structure Ends (x : M α) (y : Threading.M α) (g t : Guarded) : Prop where
  outcome : x.run g = some ((y.run g.toThreading).1, t)
  state : t.toThreading = (y.run g.toThreading).2
  running : t.running = g.running
  calls : ∃ frames, t.frames = g.frames ++ frames ∧ Nested g.fn.ops.length g.running frames ∧
    ∀ f ∈ frames, (f.below \ g.running).card ≤ g.fn.ops.length

theorem Walks.ends {x : M Unit} {y : Threading.M Unit} {unvisited : List BlockRef}
    (h : Walks x y unvisited g) :
    ∃ t fresh, Ends x y g t ∧ t.entered = g.entered ++ fresh ∧ fresh.Nodup := by
  obtain ⟨frames, fresh, hnested, hnodup, -, hrun⟩ := h
  refine ⟨_, fresh.map some, ⟨hrun, rfl, rfl, frames, rfl, hnested, fun f hf => hnested.depth hf⟩,
    rfl, hnodup.map (Option.some_injective _)⟩

/-- A block outside the table has no operations, so a walk that starts there enters it and ends. -/
theorem traverse_outside {b : BlockRef} (hb : g.fn.blocks.length ≤ b) :
    (traverse (some b)).run g = some (.ok (), g.enter (some b)) := by
  have hops : (g.fn.block b).ops = [] := by simp [Func.block, hb]
  have hvisit : (visitBlock b).run g = some (.ok [], g.enter (some b)) := by
    rw [visitBlock, Visitor.visitBlock_singleton _ fun _ => rfl]
    change (Visitor.visitOps (fun g : Guarded => g.fn) [visitor] b (g.fn.block b).ops).run
      (g.enter (some b)) = _
    rw [hops]
    rfl
  rw [traverse, traverseFrom_eq, advance, if_neg (Finset.notMem_empty b), run_bind, hvisit]
  simp only [Option.bind_some, List.filter_nil, List.nil_append]
  rw [traverseFrom_eq]
  rfl

theorem traverse_ends (entry : Option BlockRef) (g : Guarded) :
    ∃ t fresh, Ends (traverse entry)
      (Visitor.walk (fun s : Threading => s.fn) [visitorBeside g.running] entry) g t ∧
        t.entered = g.entered ++ fresh ∧ fresh.Nodup := by
  cases entry with
  | none =>
    refine ⟨g.enter none, [none], ⟨rfl, rfl, rfl, [], by simp [enter], .nil, by simp⟩, rfl, by simp⟩
  | some b =>
    by_cases hb : b < g.fn.blocks.length
    · have hwalks : Walks (traverse (some b)) (Visitor.walk (fun s : Threading => s.fn)
          [visitorBeside g.running] (some b)) (List.range g.fn.blocks.length) g :=
        traverseFrom_walks _ [b] ∅ g ⟨List.nodup_range, by simp⟩ (by simpa using hb)
      exact hwalks.ends
    · have hskip : (Visitor.walk (fun s : Threading => s.fn) [visitorBeside g.running]
          (some b)).run g.toThreading = (.ok (), g.toThreading) := by
        change (Visitor.walkFrom (fun s : Threading => s.fn) [visitorBeside g.running]
          (List.range g.fn.blocks.length) [b]).run g.toThreading = _
        unfold Visitor.walkFrom
        rw [dif_neg (by simpa using hb)]
        unfold Visitor.walkFrom
        rfl
      refine ⟨g.enter (some b), [some b], ⟨?_, ?_, rfl, [], by simp [enter], .nil, by simp⟩, rfl,
        by simp⟩
      · rw [hskip]
        exact traverse_outside (Nat.le_of_not_lt hb)
      · rw [hskip]
        rfl

end Guarded

/-- Every pass ends. From any state whatsoever, a call of the simplifier ends, and so does a walk
with the simplifier, which enters no block twice. Where nothing is in progress at first, they do
what the pass does. -/
theorem calls_and_walks_end (g : Guarded) :
    (∀ o bb, ∃ t, Guarded.Ends (Guarded.simplify o bb) (simplifyBeside g.running o bb) g t) ∧
      (∀ entry, ∃ t fresh, Guarded.Ends (Guarded.traverse entry)
        (Visitor.walk (fun s : Threading => s.fn) [visitorBeside g.running] entry) g t ∧
          t.entered = g.entered ++ fresh ∧ fresh.Nodup) ∧
      simplifyBeside ∅ = simplify ∧ visitorBeside ∅ = visitor := by
  refine ⟨fun o bb => ?_, fun entry => Guarded.traverse_ends entry g, simplifyBeside_empty,
    visitorBeside_empty⟩
  obtain ⟨frames, hnested, -, hrun⟩ := Guarded.simplify_beside o bb g
  exact ⟨_, hrun, rfl, rfl, frames, rfl, hnested, fun f hf => hnested.depth hf⟩

end Threading

end FlowGraph
