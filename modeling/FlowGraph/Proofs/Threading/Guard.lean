import Mathlib
import FlowGraph.Proofs.Outcome
import FlowGraph.Proofs.Threading.Bypass

/-! The threading of references with the operations in progress as part of the state. An operation
joins them when its threading begins and leaves them when that ends, also if it breaks off, and a
call for one of them returns at once. The calls go wherever references lead, over a graph that
they change, so nothing in their form says that they end: a run that does not end has no outcome.
`simplify_follows` says that every run has one, namely that of `Threading.simplifyIdle`, which
recurses on the operations that are not in progress. -/

namespace FlowGraph

namespace Threading

/-- A call that did not return at once: its operation, and those in progress when it came. -/
structure Frame where
  op : OpRef
  below : Finset OpRef

/-- The state of a simplifier in full. Frames and entered blocks are recorded and never read. -/
structure Guarded extends Threading where
  running : Finset OpRef := ∅
  frames : List Frame := []
  entered : List (Option BlockRef) := []

namespace Guarded

/-- Actions that may break off, and that have no outcome at all if they do not end. -/
abbrev M := ExceptT Fault (StateT Guarded Option)

variable {α β : Type}

/-- An action that sees the state of the pass alone. -/
def lift (x : Threading.M α) : M α := fun g =>
  let (r, s) := x.run g.toThreading
  some (r, { g with toThreading := s })

theorem run_lift (x : Threading.M α) (g : Guarded) : (lift x).run g =
    some ((x.run g.toThreading).1, { g with toThreading := (x.run g.toThreading).2 }) := rfl

instance : MonadStateOf Threading M where
  get := lift get
  set s := lift (set s)
  modifyGet f := lift (modifyGet f)

instance : Listener M where
  resolved _ _ := pure ()
  threaded _ _ := pure ()

theorem run_bind (x : M α) (f : α → M β) (g : Guarded) :
    (x >>= f).run g = (x.run g).bind fun p => match p with
      | (.ok a, t) => (f a).run t
      | (.error e, t) => some (.error e, t) := by
  change (x.run g).bind _ = _
  congr 1
  funext p
  rcases p with ⟨e | a, t⟩ <;> rfl

/-! ## Recursion that may not end -/

/-- Where `x` ends, `y` ends alike. -/
def Approximates (x y : M α) : Prop := ∀ g, x.run g = none ∨ x.run g = y.run g

namespace Approximates

protected theorem refl (x : M α) : Approximates x x := fun _ => .inr rfl

protected theorem bind {x y : M α} {f f' : α → M β} (h : Approximates x y)
    (hf : ∀ a, Approximates (f a) (f' a)) : Approximates (x >>= f) (y >>= f') := by
  intro g
  rw [run_bind, run_bind]
  rcases h g with hx | hx
  · exact .inl (by rw [hx]; rfl)
  · rw [hx]
    rcases y.run g with _ | ⟨e | a, t⟩
    · exact .inl rfl
    · exact .inr rfl
    · exact hf a t

theorem respectsParts : RespectsParts fun α => Approximates (α := α) where
  pure _ := .refl _
  bind := .bind
  get := .refl _
  threaded _ _ := .refl _
  bypass _ _ _ := .refl _
  shortCircuit _ _ _ := .refl _
  writeBack _ _ _ := .refl _

end Approximates

/-- An action for each argument. -/
abbrev Family (ι : Type) := ι → M Unit

/-- What is done for an argument, where `self` is called for further ones. It ends only by what
calls that end have done. -/
structure Recursion (ι : Type) where
  body (self : Family ι) : Family ι
  approximates {f f' : Family ι} : (∀ i, Approximates (f i) (f' i)) →
    ∀ i, Approximates (body f i) (body f' i)

section

variable {ι : Type} (r : Recursion ι)

/-- What comes of a family when each of its actions is the body with calls to the family. -/
def Family.unfold (f : Family ι) : Family ι := r.body f

/-- The least family that the recursion unfolds to itself. -/
def Recursion.fix : Family ι := fix.unfold r
partial_fixpoint monotonicity by
  intro f f' h i g
  have hf : ∀ i, Approximates (f i) (f' i) := by
    intro i g
    have hle := h i g
    revert hle
    generalize hx : f i g = x
    generalize hy : f' i g = y
    rintro (_ | _)
    · exact .inl hx
    · exact .inr (hx.trans hy.symm)
  beta_reduce
  rcases r.approximates hf i g with hx | hx
  · have hnone : f.unfold r i g = none := hx
    rw [hnone]
    exact .bot
  · have hsame : f.unfold r i g = f'.unfold r i g := hx
    rw [hsame]
    exact .refl

theorem Recursion.fix_eq : r.fix = r.body r.fix := fix.eq_1 r

end

/-! ## Calls -/

def begin (o : OpRef) (g : Guarded) : Guarded :=
  { g with running := insert o g.running, frames := g.frames ++ [⟨o, g.running⟩] }

def finish (o : OpRef) (g : Guarded) : Guarded := { g with running := g.running.erase o }

/-- Threads every reference of an operation of `bb`, unless that is going on already, with further
calls to `self`. What is done at the end is done also if the threading breaks off. -/
def call (self : OpRef → Option BlockRef → M Unit) (o : OpRef) (bb : Option BlockRef) : M Unit :=
  show StateT Guarded Option (Except Fault Unit) from do
    if o ∈ (← get).running then return .ok ()
    modify (begin o)
    let result ← (threadOp (fun jmp b => self jmp (some b)) o bb).run
    modify (finish o)
    return result

section

variable {self self' : OpRef → Option BlockRef → M Unit}

theorem run_call (o : OpRef) (bb : Option BlockRef) (g : Guarded) :
    (call self o bb).run g = if o ∈ g.running then some (.ok (), g) else
      ((threadOp (fun jmp b => self jmp (some b)) o bb).run (begin o g)).map fun p =>
        (p.1, finish o p.2) := by
  change (if o ∈ g.running then _ else _ : StateT Guarded Option (Except Fault Unit)) g = _
  split
  · rfl
  · rw [Option.map_eq_bind]
    rfl

theorem call_approximates (h : ∀ o bb, Approximates (self o bb) (self' o bb)) (o : OpRef)
    (bb : Option BlockRef) : Approximates (call self o bb) (call self' o bb) := by
  intro g
  rw [run_call, run_call]
  split
  · exact .inr rfl
  · have hop := Approximates.respectsParts.threadOp (fun jmp b => h jmp (some b)) o bb
    rcases hop (begin o g) with hx | hx
    · exact .inl (by rw [hx]; rfl)
    · exact .inr (by rw [hx])

end

def calls : Recursion (OpRef × Option BlockRef) where
  body self i := call (fun o bb => self (o, bb)) i.1 i.2
  approximates h i := call_approximates (fun o bb => h (o, bb)) i.1 i.2

/-- Threads every reference of an operation of `bb`, unless that is going on already. -/
def simplify (o : OpRef) (bb : Option BlockRef) : M Unit := calls.fix (o, bb)

theorem simplify_eq (o : OpRef) (bb : Option BlockRef) : simplify o bb = call simplify o bb :=
  congrFun calls.fix_eq (o, bb)

theorem run_simplify (o : OpRef) (bb : Option BlockRef) (g : Guarded) :
    (simplify o bb).run g = if o ∈ g.running then some (.ok (), g) else
      ((threadOp (fun jmp b => simplify jmp (some b)) o bb).run (begin o g)).map fun p =>
        (p.1, finish o p.2) := by
  rw [simplify_eq, run_call]

/-! ## Nested calls -/

/-- Calls in the order in which they came, each with those that it made in turn behind it. A call
adds its operation, which was not in progress, to what the calls behind it find in progress. Only
operations of a table of size `n` lead to further calls. -/
inductive Nested (n : Nat) : Finset OpRef → List Frame → Prop
  | nil {running : Finset OpRef} : Nested n running []
  | cons {op : OpRef} {running : Finset OpRef} {inner rest : List Frame} : op ∉ running →
      (inner ≠ [] → op < n) → Nested n (insert op running) inner → Nested n running rest →
      Nested n running (⟨op, running⟩ :: (inner ++ rest))

theorem Nested.append {n : Nat} {running : Finset OpRef} {xs ys : List Frame}
    (hx : Nested n running xs) (hy : Nested n running ys) : Nested n running (xs ++ ys) := by
  induction hx with
  | nil => exact hy
  | cons hop hlt hinner _ _ ih =>
    rw [List.cons_append, List.append_assoc]
    exact .cons hop hlt hinner (ih hy)

theorem Nested.mem {n : Nat} {running : Finset OpRef} {frames : List Frame} {f : Frame}
    (h : Nested n running frames) (hf : f ∈ frames) :
    f.op ∉ f.below ∧ running ⊆ f.below ∧ f.below ⊆ running ∪ Finset.range n := by
  induction h with
  | nil => cases hf
  | @cons op running inner rest hop hlt _ _ ihinner ihrest =>
    rcases List.mem_cons.mp hf with rfl | hf
    · exact ⟨hop, subset_rfl, Finset.subset_union_left⟩
    rcases List.mem_append.mp hf with hf | hf
    · obtain ⟨hnew, hlow, hhigh⟩ := ihinner hf
      have hop' : op ∈ running ∪ Finset.range n :=
        Finset.mem_union_right _ (Finset.mem_range.mpr (hlt (List.ne_nil_of_mem hf)))
      refine ⟨hnew, (Finset.subset_insert _ _).trans hlow, hhigh.trans ?_⟩
      rw [Finset.insert_union]
      exact Finset.insert_subset hop' subset_rfl
    · exact ihrest hf

/-- Calls are nested at most as deep as there are operations. -/
theorem Nested.depth {n : Nat} {running : Finset OpRef} {frames : List Frame} {f : Frame}
    (h : Nested n running frames) (hf : f ∈ frames) : (f.below \ running).card ≤ n := by
  have hsub : f.below \ running ⊆ Finset.range n := sdiff_le_iff.mpr (h.mem hf).2.2
  simpa using Finset.card_le_card hsub

/-! ## Runs that end -/

/-- A state that an action started in `g` may leave: the same operations are in progress, and the
tables have their sizes. -/
structure Like (g t : Guarded) : Prop where
  running : t.running = g.running
  ops : t.fn.ops.length = g.fn.ops.length
  blocks : t.fn.blocks.length = g.fn.blocks.length

/-- The pass goes over to the state `s`, and the calls `frames` are made on the way. -/
def goTo (g : Guarded) (s : Threading) (frames : List Frame) : Guarded :=
  { g with toThreading := s, frames := g.frames ++ frames }

theorem goTo_nil (g : Guarded) : g.goTo g.toThreading [] = g := by simp [goTo]

/-- From `g` the action `x` ends: it returns or breaks off as `y` does, and leaves the same state
of the pass and the same operations in progress. -/
def Follows (x : M α) (y : Threading.M α) (g : Guarded) : Prop :=
  ∃ frames, Nested g.fn.ops.length g.running frames ∧
    Like g (g.goTo (y.run g.toThreading).2 frames) ∧
    x.run g = some ((y.run g.toThreading).1, g.goTo (y.run g.toThreading).2 frames)

namespace Follows

variable {g : Guarded}

protected theorem lift {y : Threading.M α}
    (hops : (y.run g.toThreading).2.fn.ops.length = g.fn.ops.length)
    (hblocks : (y.run g.toThreading).2.fn.blocks.length = g.fn.blocks.length) :
    Follows (lift y) y g :=
  ⟨[], .nil, ⟨rfl, hops, hblocks⟩, by simp [goTo]; rfl⟩

protected theorem pure (a : α) (g : Guarded) : Follows (pure a) (pure a) g :=
  Follows.lift (y := pure a) rfl rfl

theorem get_bind {f : Guarded → M β} {k : Threading → Threading.M β}
    (h : Follows (f g) (k g.toThreading) g) : Follows (getThe Guarded >>= f) (get >>= k) g := h

protected theorem bind {x : M α} {y : Threading.M α} {f : α → M β} {f' : α → Threading.M β}
    (h : Follows x y g) (hf : ∀ a t, Like g t → Follows (f a) (f' a) t) :
    Follows (x >>= f) (y >>= f') g := by
  obtain ⟨frames, hnested, hlike, hx⟩ := h
  unfold Follows
  rw [run_bind, hx, FlowGraph.run_bind]
  generalize y.run g.toThreading = result at hlike ⊢
  rcases result with ⟨e | a, s⟩
  · exact ⟨frames, hnested, hlike, rfl⟩
  · obtain ⟨more, hmore, hlike', hrun⟩ := hf a _ hlike
    refine ⟨frames ++ more, hnested.append ?_, ?_, ?_⟩
    · rw [← hlike.running, ← hlike.ops]
      exact hmore
    · exact ⟨hlike'.running.trans hlike.running, hlike'.ops.trans hlike.ops,
        hlike'.blocks.trans hlike.blocks⟩
    · simpa [goTo, List.append_assoc] using hrun

end Follows

/-! ## The tables keep their sizes -/

section

variable {s : Threading} {m n : Nat} {b : BlockRef} {jmp o : OpRef} {bb : Option BlockRef}

/-- The tables of blocks and operations have these sizes. -/
def Sized (m n : Nat) (s : Threading) : Prop := s.fn.blocks.length = m ∧ s.fn.ops.length = n

/-- The action keeps the sizes, also if it breaks off. -/
abbrev KeepsSize (m n : Nat) (y : Threading.M α) (s : Threading) : Prop :=
  Outcome y s (fun _ t => Sized m n t) fun _ t => Sized m n t

theorem sized_modifyBlock {f : Block → Block} (h : Sized m n s) :
    Sized m n { s with fn := s.fn.modifyBlock b f } :=
  ⟨(List.length_modify ..).trans h.1, h.2⟩

theorem eliminate_keepsSize (h : Sized m n s) : KeepsSize m n (eliminate b) s := by
  refine .bind (.get ?_)
  split
  · exact .pure h
  · exact .bind (.modify (.bind (.modify (.modify (sized_modifyBlock h)))))

theorem bypass_keepsSize (h : Sized m n s) : KeepsSize m n (bypass bb b jmp) s := by
  refine .bind (.get (.bind (.lift (fun dest _ => ?_) fun _ _ => h)))
  split
  · exact .bind (.modify (.pure h))
  · cases hm : mergePhis s.fn b dest with
    | none => exact .bind (.modify (.pure h))
    | some fn =>
      obtain ⟨phis, rfl⟩ := mergePhis_eq_some hm
      refine .bind (.modify (.bind (.modify ?_)))
      refine (eliminate_keepsSize ?_).andThen fun _ t ht => .bind (.modify (.pure ?_))
      · exact ⟨(List.length_modify ..).trans h.1, h.2⟩
      · exact ⟨by simpa [Func.addParent, Func.removeParent, Func.modifyBlock] using ht.1, ht.2⟩

theorem shortCircuit_keepsSize (h : Sized m n s) : KeepsSize m n (shortCircuit bb b jmp) s := by
  refine .bind (.get (.bind (.lift (fun dest _ => ?_) fun _ _ => h)))
  exact .bind (.pure (.bind (.modify (.bind (.modify (.pure (sized_modifyBlock h)))))))

theorem writeBack_keepsSize {i : Nat} {tt : List Target} (h : Sized m n s) :
    KeepsSize m n (writeBack o i tt) s := by
  refine .bind (.get ?_)
  have hstore : Sized m n { s with fn := (s.fn.store o i tt).1 } :=
    ⟨h.1, (List.length_set ..).trans h.2⟩
  rcases hresult : s.fn.store o i tt with ⟨fn, fault⟩
  rw [hresult] at hstore
  refine .bind (.modify ?_)
  cases fault with
  | none => exact .pure hstore
  | some e => exact .throw hstore

end

/-! ## Every call ends -/

/-- What does not call back is the same action, lifted. -/
theorem lift_respectsChanges : RespectsChanges fun α (x : M α) y => x = lift y where
  pure _ := rfl
  bind {_ _ x y f f'} hx hf := by
    subst hx
    refine ExceptT.ext (funext fun g => ?_)
    rw [run_bind, run_lift, run_lift, FlowGraph.run_bind, Option.bind_some]
    rcases y.run g.toThreading with ⟨e | a, s⟩
    · rfl
    · dsimp only
      rw [hf a, run_lift]
  get := rfl
  threaded _ _ := rfl
  modify _ := rfl
  throw _ := rfl
  lift e := by cases e <;> rfl
  resolved _ _ := rfl

theorem Follows.of_keepsSize {x : M α} {y : Threading.M α} {g : Guarded} (hx : x = lift y)
    (h : KeepsSize g.fn.blocks.length g.fn.ops.length y g.toThreading) : Follows x y g := by
  obtain ⟨hblocks, hops⟩ := h.state (fun _ _ ht => ht) fun _ _ ht => ht
  exact hx ▸ .lift hops hblocks

/-- What may still be called: the operations of the table that are not in progress. -/
structure Idle (idle : List OpRef) (g : Guarded) : Prop where
  nodup : idle.Nodup
  mem : ∀ o, o ∈ idle ↔ o < g.fn.ops.length ∧ o ∉ g.running

theorem Idle.begin {idle : List OpRef} {g : Guarded} {o : OpRef} (h : Idle idle g) :
    Idle (idle.erase o) (g.begin o) where
  nodup := h.nodup.erase o
  mem p := by
    rw [h.nodup.mem_erase_iff, h.mem]
    simp only [Guarded.begin, Finset.mem_insert]
    tauto

theorem Idle.congr {idle : List OpRef} {g t : Guarded} (h : Idle idle g) (ht : Like g t) :
    Idle idle t where
  nodup := h.nodup
  mem o := by rw [h.mem, ht.ops, ht.running]

theorem finish_goTo {g : Guarded} {o : OpRef} {s : Threading} {frames : List Frame}
    (ho : o ∉ g.running) :
    ((g.begin o).goTo s frames).finish o = g.goTo s (⟨o, g.running⟩ :: frames) := by
  simp [Guarded.begin, goTo, finish, Finset.erase_insert ho]

/-- While the operations `idle` may be called, all of the pass ends if the calls do. -/
theorem follows_respectsParts (idle : List OpRef) : RespectsParts fun α (x : M α) y =>
    ∀ g, Idle idle g → Follows x y g where
  pure a g _ := .pure a g
  bind hx hf g hg := (hx g hg).bind fun a t ht => hf a t (hg.congr ht)
  get _ _ := .lift rfl rfl
  threaded _ _ g _ := .pure () g
  bypass bb b jmp _ _ :=
    .of_keepsSize (lift_respectsChanges.bypass bb b jmp) (bypass_keepsSize ⟨rfl, rfl⟩)
  shortCircuit bb b jmp _ _ :=
    .of_keepsSize (lift_respectsChanges.shortCircuit bb b jmp) (shortCircuit_keepsSize ⟨rfl, rfl⟩)
  writeBack o i tt _ _ :=
    .of_keepsSize (lift_respectsChanges.writeBack o i tt) (writeBack_keepsSize ⟨rfl, rfl⟩)

theorem run_threadOp_of_blank {follow : OpRef → BlockRef → M Unit} {g : Guarded} {o : OpRef}
    {bb : Option BlockRef} (h : (g.fn.op o).attributes = []) :
    (threadOp follow o bb).run g = some (.ok (), g) := by
  change ((List.range (g.fn.op o).attributes.length).forM _ : M Unit).run g = _
  rw [h]
  rfl

theorem simplify_follows (idle : List OpRef) (o : OpRef) (bb : Option BlockRef) :
    ∀ g : Guarded, Idle idle g → Follows (simplify o bb) (simplifyIdle idle o bb) g := by
  induction idle, o, bb using simplifyIdle.induct with
  | case1 idle o bb ho ih =>
    intro g hidle
    obtain ⟨hlt, hnew⟩ := (hidle.mem o).mp ho
    have hinner : Follows (threadOp (fun jmp b => simplify jmp (some b)) o bb)
        (threadOp (fun jmp b => simplifyIdle (idle.erase o) jmp (some b)) o bb) (g.begin o) :=
      (follows_respectsParts (idle.erase o)).threadOp ih o bb (g.begin o) hidle.begin
    obtain ⟨frames, hnested, hlike, hrun⟩ := hinner
    unfold simplifyIdle Follows
    rw [dif_pos ho, run_simplify, if_neg hnew, hrun]
    refine ⟨⟨o, g.running⟩ :: frames, ?_, ⟨rfl, hlike.ops, hlike.blocks⟩, ?_⟩
    · simpa using Nested.cons hnew (fun _ => hlt) hnested .nil
    · rw [Option.map_some, finish_goTo hnew]
      rfl
  | case2 idle o bb ho =>
    intro g hidle
    unfold simplifyIdle Follows
    rw [dif_neg ho, run_simplify]
    split
    · exact Follows.pure () g
    · rename_i hnew
      -- an operation outside the table has no references, so its call makes no further calls
      have hout : g.fn.ops.length ≤ o :=
        Nat.le_of_not_lt fun hlt => ho ((hidle.mem o).mpr ⟨hlt, hnew⟩)
      refine ⟨[⟨o, g.running⟩], ?_, ⟨rfl, rfl, rfl⟩, ?_⟩
      · simpa using Nested.cons hnew (by simp) Nested.nil Nested.nil
      · have hblank : ((g.begin o).fn.op o).attributes = [] := by
          simp [Guarded.begin, Func.op, hout, default, Op.attributes]
        rw [run_threadOp_of_blank hblank, Option.map_some, ← goTo_nil (g.begin o),
          finish_goTo hnew]
        rfl

end Guarded

end Threading

end FlowGraph
