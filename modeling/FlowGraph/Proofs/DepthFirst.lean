import Mathlib
import FlowGraph.Proofs.BreadthFirst
import FlowGraph.Proofs.Outcome

/-! The walk is a depth-first search. It keeps a stack, to which a block may be put many times
before it is visited, and marks blocks when they are taken off; the recursive search has no stack at
all. Both enter the same blocks in the same order, because what lies on the stack below a block is
what the recursive search does after it, and a block that was visited meanwhile is skipped by both.
The blocks are those that the breadth-first search finds. -/

namespace FlowGraph

/-! ## Recursive search -/

/-- What a search has found, in the order in which it was entered, and what it left unvisited. -/
structure Explored (unvisited : List BlockRef) where
  order : List BlockRef
  left : List BlockRef
  le : left.length ≤ unvisited.length

namespace Explored

variable {unvisited : List BlockRef} {b : BlockRef}

theorem left_lt (hb : b ∈ unvisited) (below : Explored (unvisited.erase b)) :
    below.left.length < unvisited.length := by
  have hle := below.le
  rw [List.length_erase_of_mem hb] at hle
  have := List.length_pos_of_mem hb
  omega

/-- A block, what was found below it, and what was found afterwards. -/
def enter (hb : b ∈ unvisited) (below : Explored (unvisited.erase b))
    (beside : Explored below.left) : Explored unvisited :=
  ⟨b :: (below.order ++ beside.order), beside.left,
    Nat.le_trans beside.le (Nat.le_of_lt (below.left_lt hb))⟩

end Explored

/-- Depth-first search from the blocks of a list, one after the other. An unvisited block is
entered, and all that is reached from its successors comes before the next block of the list. -/
def dfs (succ : BlockRef → List BlockRef) (unvisited : List BlockRef) :
    List BlockRef → Explored unvisited
  | [] => ⟨[], unvisited, Nat.le_refl _⟩
  | b :: rest =>
    if hb : b ∈ unvisited then
      let below := dfs succ (unvisited.erase b) (succ b)
      .enter hb below (dfs succ below.left rest)
    else dfs succ unvisited rest
termination_by bs => (unvisited.length, bs.length)
decreasing_by
  · have := List.length_erase_of_mem hb
    have := List.length_pos_of_mem hb
    exact Prod.Lex.left _ _ (by omega)
  · exact Prod.Lex.left _ _ (Explored.left_lt hb _)
  · exact Prod.Lex.right _ (Nat.lt_succ_self _)

section

variable {succ : BlockRef → List BlockRef} {unvisited bs cs : List BlockRef} {b c : BlockRef}

theorem dfs_nil : dfs succ unvisited [] = ⟨[], unvisited, Nat.le_refl _⟩ := by
  unfold dfs
  rfl

theorem dfs_cons_of_mem (hb : b ∈ unvisited) : dfs succ unvisited (b :: bs) =
    .enter hb (dfs succ (unvisited.erase b) (succ b))
      (dfs succ (dfs succ (unvisited.erase b) (succ b)).left bs) := by
  rw [dfs, dif_pos hb]

theorem order_dfs_cons (hb : b ∈ unvisited) : (dfs succ unvisited (b :: bs)).order =
    b :: ((dfs succ (unvisited.erase b) (succ b)).order ++
      (dfs succ (dfs succ (unvisited.erase b) (succ b)).left bs).order) :=
  congrArg Explored.order (dfs_cons_of_mem hb)

theorem left_dfs_cons (hb : b ∈ unvisited) : (dfs succ unvisited (b :: bs)).left =
    (dfs succ (dfs succ (unvisited.erase b) (succ b)).left bs).left :=
  congrArg Explored.left (dfs_cons_of_mem hb)

theorem dfs_cons_of_not_mem (hb : b ∉ unvisited) :
    dfs succ unvisited (b :: bs) = dfs succ unvisited bs := by
  rw [dfs, dif_neg hb]

theorem left_dfs_sublist (unvisited bs : List BlockRef) :
    (dfs succ unvisited bs).left.Sublist unvisited := by
  induction unvisited, bs using dfs.induct succ with
  | case1 unvisited => rw [dfs_nil]
  | case2 unvisited b rest hb below ih ih' =>
    rw [left_dfs_cons hb]
    exact (ih'.trans ih).trans List.erase_sublist
  | case3 unvisited b rest hb ih =>
    rw [dfs_cons_of_not_mem hb]
    exact ih

/-- What is found was unvisited and is so no more. -/
theorem mem_order_dfs (hu : unvisited.Nodup) : c ∈ (dfs succ unvisited bs).order ↔
    c ∈ unvisited ∧ c ∉ (dfs succ unvisited bs).left := by
  induction unvisited, bs using dfs.induct succ with
  | case1 unvisited =>
    rw [dfs_nil]
    simp
  | case2 unvisited b rest hb below ih ih' =>
    have hbelow : below.left.Sublist (unvisited.erase b) := left_dfs_sublist _ _
    have hbeside : (dfs succ below.left rest).left.Sublist below.left := left_dfs_sublist _ _
    rw [order_dfs_cons hb, left_dfs_cons hb, List.mem_cons, List.mem_append, ih (hu.erase b),
      ih' (hbelow.nodup (hu.erase b)), hu.mem_erase_iff]
    have hsub := hbelow.subset
    have hsub' := hbeside.subset
    have hb' : b ∉ below.left := fun hm => hu.not_mem_erase (hsub hm)
    grind
  | case3 unvisited b rest hb ih =>
    rw [dfs_cons_of_not_mem hb]
    exact ih hu

theorem nodup_order_dfs (hu : unvisited.Nodup) : (dfs succ unvisited bs).order.Nodup := by
  induction unvisited, bs using dfs.induct succ with
  | case1 unvisited =>
    rw [dfs_nil]
    exact .nil
  | case2 unvisited b rest hb below ih ih' =>
    have hbelow : below.left.Sublist (unvisited.erase b) := left_dfs_sublist _ _
    have hleft : below.left.Nodup := hbelow.nodup (hu.erase b)
    have hmem : ∀ c, c ∈ below.order ↔ c ∈ unvisited.erase b ∧ c ∉ below.left := fun c =>
      mem_order_dfs (hu.erase b)
    rw [order_dfs_cons hb]
    refine List.nodup_cons.mpr
      ⟨fun hm => ?_, List.nodup_append.mpr ⟨ih (hu.erase b), ih' hleft, ?_⟩⟩
    · rcases List.mem_append.mp hm with hm | hm
      · exact hu.not_mem_erase ((hmem b).mp hm).1
      · exact hu.not_mem_erase (hbelow.subset ((mem_order_dfs hleft).mp hm).1)
    · rintro c hc _ hd rfl
      exact ((hmem c).mp hc).2 ((mem_order_dfs hleft).mp hd).1
  | case3 unvisited b rest hb ih =>
    rw [dfs_cons_of_not_mem hb]
    exact ih hu

/-- No block is left that the search starts from. -/
theorem not_mem_left_dfs (hu : unvisited.Nodup) (hc : c ∈ bs) :
    c ∉ (dfs succ unvisited bs).left := by
  induction unvisited, bs using dfs.induct succ with
  | case1 => cases hc
  | case2 unvisited b rest hb below ih ih' =>
    have hbelow : below.left.Sublist (unvisited.erase b) := left_dfs_sublist _ _
    rw [left_dfs_cons hb]
    rcases List.mem_cons.mp hc with rfl | hc
    · intro hm
      exact hu.not_mem_erase (hbelow.subset ((left_dfs_sublist _ _).subset hm))
    · exact ih' (hbelow.nodup (hu.erase b)) hc
  | case3 unvisited b rest hb ih =>
    rw [dfs_cons_of_not_mem hb]
    rcases List.mem_cons.mp hc with rfl | hc
    · exact fun hm => hb ((left_dfs_sublist _ _).subset hm)
    · exact ih hu hc

/-- No successor of a block that is found is left. -/
theorem dfs_closed (hu : unvisited.Nodup) (hb : b ∈ (dfs succ unvisited bs).order)
    (hc : c ∈ succ b) : c ∉ (dfs succ unvisited bs).left := by
  induction unvisited, bs using dfs.induct succ with
  | case1 =>
    rw [dfs_nil] at hb
    cases hb
  | case2 unvisited x rest hx below ih ih' =>
    have hbelow : below.left.Sublist (unvisited.erase x) := left_dfs_sublist _ _
    have hbeside : (dfs succ below.left rest).left.Sublist below.left := left_dfs_sublist _ _
    rw [left_dfs_cons hx]
    rw [order_dfs_cons hx, List.mem_cons, List.mem_append] at hb
    rcases hb with rfl | hb | hb
    · exact fun hm => not_mem_left_dfs (hu.erase b) hc (hbeside.subset hm)
    · exact fun hm => ih (hu.erase x) hb (hbeside.subset hm)
    · exact ih' (hbelow.nodup (hu.erase x)) hb
  | case3 unvisited x rest hx ih =>
    rw [dfs_cons_of_not_mem hx] at hb ⊢
    exact ih hu hb

/-- What holds of the start and is handed on to successors holds of all that is found. -/
theorem dfs_of_closed {P : BlockRef → Prop} (step : ∀ b, P b → ∀ c ∈ succ b, P c)
    (hbs : ∀ b ∈ bs, P b) : ∀ b ∈ (dfs succ unvisited bs).order, P b := by
  induction unvisited, bs using dfs.induct succ with
  | case1 =>
    rw [dfs_nil]
    simp
  | case2 unvisited x rest hx below ih ih' =>
    have hPx := hbs x List.mem_cons_self
    intro b hb
    rw [order_dfs_cons hx, List.mem_cons, List.mem_append] at hb
    rcases hb with rfl | hb | hb
    · exact hPx
    · exact ih (step x hPx) b hb
    · exact ih' (fun c hc => hbs c (List.mem_cons_of_mem x hc)) b hb
  | case3 unvisited x rest hx ih =>
    rw [dfs_cons_of_not_mem hx]
    exact ih fun c hc => hbs c (List.mem_cons_of_mem x hc)

/-- A search from two lists searches from the second what the first has left. -/
theorem dfs_append (unvisited bs cs : List BlockRef) :
    (dfs succ unvisited (bs ++ cs)).order = (dfs succ unvisited bs).order ++
        (dfs succ (dfs succ unvisited bs).left cs).order ∧
      (dfs succ unvisited (bs ++ cs)).left = (dfs succ (dfs succ unvisited bs).left cs).left := by
  induction unvisited, bs using dfs.induct succ with
  | case1 unvisited =>
    rw [dfs_nil]
    exact ⟨rfl, rfl⟩
  | case2 unvisited b rest hb below ih ih' =>
    rw [List.cons_append, order_dfs_cons hb, left_dfs_cons hb, order_dfs_cons hb, left_dfs_cons hb,
      ih'.1, ih'.2]
    simp [below]
  | case3 unvisited b rest hb ih =>
    rw [List.cons_append, dfs_cons_of_not_mem hb, dfs_cons_of_not_mem hb]
    exact ih

/-- Blocks that were visited at the start may be left out. -/
theorem dfs_filter {U : List BlockRef} (hU : unvisited ⊆ U) :
    dfs succ unvisited (bs.filter (· ∈ U)) = dfs succ unvisited bs := by
  induction bs generalizing unvisited with
  | nil => rfl
  | cons b bs ih =>
    by_cases hb : b ∈ U
    · rw [List.filter_cons_of_pos (by simpa using hb)]
      by_cases hmem : b ∈ unvisited
      · have hleft : (dfs succ (unvisited.erase b) (succ b)).left ⊆ U := fun c hc =>
          hU (List.mem_of_mem_erase ((left_dfs_sublist _ _).subset hc))
        rw [dfs_cons_of_mem hmem, dfs_cons_of_mem hmem, ih hleft]
      · rw [dfs_cons_of_not_mem hmem, dfs_cons_of_not_mem hmem, ih hU]
    · rw [List.filter_cons_of_neg (by simpa using hb), ih hU,
        dfs_cons_of_not_mem fun hm => hb (hU hm)]

end

namespace Func

variable {fn : Func} {entry b c : BlockRef}

/-- The live blocks that a block refers to, in the order of its operations, of their attributes and
of the keys of these, with repetitions. -/
def liveTargets (fn : Func) (b : BlockRef) : List BlockRef :=
  ((fn.targetsOf b).filterMap (·.block)).filter fn.isLive

/-- The blocks in the order in which a recursive depth-first search enters them. -/
def preorder (fn : Func) (entry : BlockRef) : List BlockRef :=
  (dfs fn.liveTargets (List.range fn.blocks.length) [entry]).order

theorem mem_liveTargets : c ∈ fn.liveTargets b ↔ fn.Refers b c ∧ fn.isLive c = true := by
  rw [liveTargets, List.mem_filter, ← mem_successors_iff, successors, mem_firsts]

theorem liveTargets_eq (fn : Func) (b : BlockRef) :
    fn.liveTargets b = (fn.block b).ops.flatMap fun o => (fn.op o).blocks.filter fn.isLive := by
  rw [liveTargets, targetsOf, List.filterMap_flatMap, List.filter_flatMap]
  rfl

theorem nodup_preorder (fn : Func) (entry : BlockRef) : (fn.preorder entry).Nodup :=
  nodup_order_dfs List.nodup_range

/-- Depth first or breadth first, the same blocks are found. -/
theorem mem_preorder_iff (hentry : entry < fn.blocks.length) :
    b ∈ fn.preorder entry ↔ b ∈ fn.reachable entry := by
  have hu : (List.range fn.blocks.length).Nodup := List.nodup_range
  constructor
  · refine fun hb => dfs_of_closed (P := (· ∈ fn.reachable entry)) (fun x hx c hc => ?_) ?_ b hb
    · obtain ⟨hr, hlive⟩ := mem_liveTargets.mp hc
      exact reachable_closed hx hr hlive
    · simpa using entry_mem_reachable fn entry
  · refine reachable_of_closed (P := (· ∈ fn.preorder entry)) ?_ fun x hx c hr hlive => ?_
    · exact (mem_order_dfs hu).mpr ⟨List.mem_range.mpr hentry, not_mem_left_dfs hu (by simp)⟩
    · exact (mem_order_dfs hu).mpr ⟨List.mem_range.mpr (isLive_iff.mp hlive).1,
        dfs_closed hu hx (mem_liveTargets.mpr ⟨hr, hlive⟩)⟩

end Func

/-! ## The walk -/

namespace Visitor

variable {σ : Type}

/-- A call that a walk makes to its visitors. -/
inductive Callback where
  | enterBlock (b : BlockRef)
  | enterOp (o : OpRef) (b : BlockRef)
  | leaveBlock (b : BlockRef)
deriving DecidableEq, Repr

/-- Calls all visitors, one after the other. -/
def Callback.announce (vs : List (Visitor σ)) : Callback → Action σ Unit
  | enterBlock b => vs.forM fun v => v.enterBlock (some b)
  | enterOp o b => vs.forM fun v => v.enterOp o b
  | leaveBlock b => vs.forM fun v => v.leaveBlock b

/-- The calls for a block: it is entered, its operations are shown in order, and it is left. -/
def callbacks (fn : Func) (b : BlockRef) : List Callback :=
  .enterBlock b :: ((fn.block b).ops.map (.enterOp · b) ++ [.leaveBlock b])

/-- The visitor leaves this part of the state alone. -/
def Spares {ρ : Type} (part : σ → ρ) (v : Visitor σ) : Prop :=
  ∀ x, v.Keeps (fun s => part s = x) fun _ _ => True

theorem announce_outcome {ρ : Type} {part : σ → ρ} {x : ρ} {vs : List (Visitor σ)}
    (hvs : ∀ v ∈ vs, v.Spares part) (c : Callback) (s : σ) (hs : part s = x) :
    Outcome (c.announce vs) s (fun _ t => part t = x) fun _ _ => True := by
  have hkeeps := fun v hv => hvs v hv x
  cases c with
  | enterBlock b => exact forM_outcome hkeeps (fun v hv => hv.enterBlock (some b)) s hs
  | enterOp o b => exact forM_outcome hkeeps (fun v hv => hv.enterOp o b) s hs
  | leaveBlock b => exact forM_outcome hkeeps (fun v hv => hv.leaveBlock b) s hs

section

variable {graph : σ → Func} {vs : List (Visitor σ)} {fn : Func} {b : BlockRef}
  (hvs : ∀ v ∈ vs, v.Spares graph)
include hvs

/-- Since the graph stays as it is, it does not matter when the blocks to go on with are read. -/
theorem run_visitOps (b : BlockRef) (os : List OpRef) : ∀ s, graph s = fn →
    (visitOps graph vs b os).run s = (forM (os.map (.enterOp · b)) (Callback.announce vs) >>=
      fun _ => pure (os.flatMap fun o => (fn.op o).blocks.filter fn.isLive)).run s := by
  induction os with
  | nil => exact fun s _ => rfl
  | cons o os ih =>
    intro s hs
    rw [List.map_cons, List.forM_cons, bind_assoc]
    refine (announce_outcome hvs (.enterOp o b) s hs).run_bind_congr fun _ t ht => ?_
    change (visitOps graph vs b os >>= fun next =>
      pure (((graph t).op o).blocks.filter (graph t).isLive ++ next)).run t = _
    rw [ht, run_bind_of_run_eq (ih t ht), bind_assoc]
    rfl

theorem run_visitBlock (b : BlockRef) (s : σ) (hs : graph s = fn) :
    (visitBlock graph vs b).run s = (forM (callbacks fn b) (Callback.announce vs) >>=
      fun _ => pure (fn.liveTargets b)).run s := by
  rw [callbacks, List.forM_cons, bind_assoc, List.forM_append, Func.liveTargets_eq]
  refine (announce_outcome hvs (.enterBlock b) s hs).run_bind_congr fun _ t ht => ?_
  change (visitOps graph vs b ((graph t).block b).ops >>= fun next =>
    Callback.announce vs (.leaveBlock b) >>= fun _ => pure next).run t = _
  rw [ht, run_bind_of_run_eq (run_visitOps hvs b _ t ht), bind_assoc, bind_assoc]
  simp only [pure_bind, List.forM_cons, List.forM_nil, bind_assoc]

theorem forM_announce_outcome (cs : List Callback) : ∀ s, graph s = fn →
    Outcome (forM cs (Callback.announce vs)) s (fun _ t => graph t = fn) fun _ _ => True :=
  Outcome.forM (fun c s hs => announce_outcome hvs c s hs) cs

/-- What is on the stack below a block is what a recursive search does after it. -/
theorem run_walkFrom (unvisited stack : List BlockRef) : ∀ s, graph s = fn →
    (walkFrom graph vs unvisited stack).run s =
      (forM ((dfs fn.liveTargets unvisited stack).order.flatMap (callbacks fn))
        (Callback.announce vs)).run s := by
  induction unvisited, stack using walkFrom.induct with
  | case1 unvisited =>
    intro s _
    unfold walkFrom
    rw [dfs_nil]
    rfl
  | case2 unvisited b rest hb ih =>
    intro s hs
    have horder : (dfs fn.liveTargets unvisited (b :: rest)).order =
        b :: (dfs fn.liveTargets (unvisited.erase b)
          ((fn.liveTargets b).filter (· ∈ unvisited.erase b) ++ rest)).order := by
      rw [order_dfs_cons hb, (dfs_append _ _ _).1, dfs_filter (List.Subset.refl _)]
    rw [horder, List.flatMap_cons, List.forM_append]
    unfold walkFrom
    rw [dif_pos hb, run_bind_of_run_eq (run_visitBlock hvs b s hs), bind_assoc]
    refine (forM_announce_outcome hvs _ s hs).run_bind_congr fun _ t ht => ?_
    rw [pure_bind]
    exact ih (fn.liveTargets b) t ht
  | case3 unvisited b rest hb ih =>
    intro s hs
    unfold walkFrom
    rw [dif_neg hb, dfs_cons_of_not_mem hb]
    exact ih s hs

theorem run_walk (entry : BlockRef) (s : σ) (hs : graph s = fn) :
    (walk graph vs (some entry)).run s =
      (forM ((fn.preorder entry).flatMap (callbacks fn)) (Callback.announce vs)).run s := by
  change (walkFrom graph vs (List.range (graph s).blocks.length) [entry]).run s = _
  rw [hs]
  exact run_walkFrom hvs _ _ s hs

end

end Visitor

/-- Writes down the calls that it gets. -/
def Visitor.recorder : Visitor (Func × List Visitor.Callback) where
  enterBlock b := modify fun s => (s.1, s.2 ++ (b.map .enterBlock).toList)
  enterOp o b := modify fun s => (s.1, s.2 ++ [.enterOp o b])
  leaveBlock b := modify fun s => (s.1, s.2 ++ [.leaveBlock b])

namespace Visitor

theorem recorder_spares : recorder.Spares Prod.fst := fun _ =>
  ⟨fun _ _ h => .modify h, fun _ _ _ h => .modify h, fun _ _ h => .modify h⟩

theorem run_forM_recorder (fn : Func) (cs : List Callback) : ∀ log,
    (forM cs (Callback.announce [recorder])).run (fn, log) = (.ok (), fn, log ++ cs) := by
  induction cs with
  | nil =>
    intro log
    rw [List.append_nil]
    rfl
  | cons c cs ih =>
    intro log
    have hcall : (c.announce [recorder]).run (fn, log) = (.ok (), fn, log ++ [c]) := by
      cases c <;> rfl
    rw [List.forM_cons, run_bind, hcall]
    simp only [ih, List.append_assoc, List.singleton_append]

/-- A walk whose visitors leave the graph alone is a recursive depth-first search: it makes, block
by block in preorder, the calls for each block, to all visitors in turn, and breaks off only where
one of them does. It enters the blocks that the breadth-first search finds, each once. -/
theorem walk_is_depth_first {fn : Func} {entry : BlockRef} (hentry : entry < fn.blocks.length) :
    (∀ {σ : Type} (graph : σ → Func) (vs : List (Visitor σ)), (∀ v ∈ vs, v.Spares graph) →
      ∀ s, graph s = fn → (walk graph vs (some entry)).run s =
        (forM ((fn.preorder entry).flatMap (callbacks fn)) (Callback.announce vs)).run s) ∧
      (walk Prod.fst [recorder] (some entry)).run (fn, []) =
        (.ok (), fn, (fn.preorder entry).flatMap (callbacks fn)) ∧
      (fn.preorder entry).Nodup ∧ ∀ b, b ∈ fn.preorder entry ↔ b ∈ fn.reachable entry := by
  refine ⟨fun _ _ hvs s hs => run_walk hvs entry s hs, ?_, fn.nodup_preorder entry,
    fun b => Func.mem_preorder_iff hentry⟩
  rw [run_walk (by simpa using recorder_spares) entry (fn, []) rfl]
  exact run_forM_recorder fn _ []

/-- Block 3 is put on the stack by the entry, by block 1 and by block 2, and is entered from
block 2. Block 4 is eliminated, and block 5 shares the operation of block 2. -/
def shared : Func where
  name := "f"
  entry := some 0
  blocks := [{ id := 1, ops := [0] }, { id := 2, ops := [1, 2] }, { id := 3, ops := [3] },
    { id := 4, ops := [4] }, { id := 5, dead := true }, { id := 6, ops := [3] }]
  ops := [.region (some 1) [some 3, some 4, none] (some 5), .expr "g" none [],
    .branch none (some 2) (some 3), .jump (some 3), .branch none (some 0) (some 1)]

theorem shared_walked : 0 < shared.blocks.length ∧ shared.reachable 0 = [0, 1, 3, 5, 2] ∧
    (walk Prod.fst [recorder] (some 0)).run (shared, []) = (.ok (), shared,
      [.enterBlock 0, .enterOp 0 0, .leaveBlock 0,
        .enterBlock 1, .enterOp 1 1, .enterOp 2 1, .leaveBlock 1,
        .enterBlock 2, .enterOp 3 2, .leaveBlock 2,
        .enterBlock 3, .enterOp 4 3, .leaveBlock 3,
        .enterBlock 5, .enterOp 3 5, .leaveBlock 5]) ∧
    ∀ b, b ∈ shared.preorder 0 ↔ b ∈ shared.reachable 0 := by
  have hentry : 0 < shared.blocks.length := by decide
  obtain ⟨-, hrecorded, -, hmem⟩ := walk_is_depth_first hentry
  refine ⟨hentry, by cbv, ?_, hmem⟩
  rw [hrecorded]
  cbv

end Visitor

end FlowGraph
