import Mathlib
import FlowGraph.Proofs.DepthFirst
import FlowGraph.Proofs.Threading.Pass

/-! What an onlooker sees of a pass. A visitor that walks along with the simplifier and leaves the
pass alone is shown a series of calls, each in some state of the pass, and the series is the same
for all such visitors. Every block other than the entry was live when it was put on the stack. It
may wait there for long and be eliminated meanwhile, and then the walk enters an eliminated block;
this takes a trampoline, and a rejection before the block was put on the stack. -/

namespace FlowGraph

/-- Works on the first part of a state. -/
def Action.first {σ τ α : Type} (a : Action σ α) : Action (σ × τ) α := fun s =>
  let (r, x) := a.run s.1
  (r, x, s.2)

namespace Threading

open Visitor

variable {τ α β : Type} {fn₀ : Func} {entry b c : BlockRef} {stats : Stats} {x t s : Threading}

/-- The simplifier beside a visitor with a state of its own. -/
def simplifier : Visitor (Threading × τ) where
  enterOp o b := Action.first (simplify o (some b))

/-- A call, and the state of the pass in which it is made. -/
structure Sight where
  call : Callback
  state : Threading

/-- Shows a sight to a visitor. -/
def Sight.show (v : Visitor (Threading × τ)) (e : Sight) : Action (Threading × τ) Unit := do
  modify fun s => (e.state, s.2)
  e.call.announce [v]

/-! ## Actions beside an onlooker -/

/-- The visitor `v` is shown the sights of `log`, one after the other. The pass ends with `r` in the
state `t`, unless `v` breaks off before. -/
def replay (v : Visitor (Threading × τ)) (log : List Sight) (r : α) (t : Threading) :
    Action (Threading × τ) α := do
  forM log (Sight.show v)
  modify fun s => (t, s.2)
  pure r

/-- What came before does not matter to a replay. -/
theorem run_replay_congr (v : Visitor (Threading × τ)) (log : List Sight) (r : α) (x x' : Threading)
    (y : τ) : (replay v log r t).run (x, y) = (replay v log r t).run (x', y) := by
  cases log with
  | nil => rfl
  | cons e log => rfl

/-- From `x` on the action does what it does without `v`, and presents the sights of `log` to it. -/
def Presents (v : Visitor (Threading × τ)) (x : Threading) (a : Action (Threading × τ) α)
    (log : List Sight) (r : α) (t : Threading) : Prop :=
  ∀ y, a.run (x, y) = (replay v log r t).run (x, y)

namespace Presents

variable {v : Visitor (Threading × τ)} {a : Action (Threading × τ) α}
  {f : α → Action (Threading × τ) β} {log log' : List Sight} {r : α} {r' : β}

protected theorem pure (r : α) : Presents v x (pure r) [] r x := fun _ => rfl

protected theorem bind {u : Threading} (h : Presents v x a log r t)
    (h' : Presents v t (f r) log' r' u) : Presents v x (a >>= f) (log ++ log') r' u := by
  intro y
  rw [run_bind_of_run_eq (h y), replay, replay, List.forM_append]
  simp only [bind_assoc, pure_bind]
  refine Outcome.run_bind_congr (Q := fun _ _ => True) (E := fun _ _ => True)
    ⟨fun _ _ => trivial, fun _ _ => trivial⟩ fun _ s _ => ?_
  exact (h' s.2).trans (run_replay_congr v log' r' t s.1 s.2)

theorem bind_pure (h : Presents v x a log r t) (g : α → β) :
    Presents v x (a >>= fun r => Pure.pure (g r)) log (g r) t :=
  List.append_nil log ▸ h.bind (.pure (g r))

theorem get_bind {f : Threading × τ → Action (Threading × τ) α}
    (h : ∀ y, Presents v x (f (x, y)) log r t) : Presents v x (get >>= f) log r t := fun y => h y y

/-- A call to the onlooker itself. -/
theorem call (hv : v.Spares Prod.fst) (c : Callback) (x : Threading) :
    Presents v x (c.announce [v]) [⟨c, x⟩] () x := by
  intro y
  have hvs : ∀ u ∈ [v], u.Spares Prod.fst := by simpa using hv
  have hkeeps := announce_outcome hvs c (x, y) rfl
  have hreplay : replay v [⟨c, x⟩] () x = (do
      modify fun s => (x, s.2)
      c.announce [v]
      modify fun s => (x, s.2)) := by simp [replay, Sight.show]
  rw [hreplay]
  change _ = (c.announce [v] >>= fun _ => modify fun s => (x, s.2)).run (x, y)
  rw [← bind_pure_unit (x := c.announce [v]), bind_assoc]
  refine hkeeps.run_bind_congr fun _ s hs => ?_
  obtain ⟨x', y'⟩ := s
  cases hs
  rfl

theorem first {a : M α} (h : a.run x = (.ok r, t)) : Presents v x (Action.first a) [] r t := by
  intro y
  have hrun : (Action.first a).run (x, y) = ((a.run x).1, (a.run x).2, y) := rfl
  rw [hrun, h]
  rfl

end Presents

/-! ## What can be seen -/

/-- The block was put on the stack: a live block that an operation refers to after it was shown. -/
def Put (log : List Sight) (c : BlockRef) : Prop :=
  ∃ o p s, ⟨.enterOp o p, s⟩ ∈ log ∧ c ∈ (s.fn.op o).blocks ∧ s.fn.isLive c = true

theorem Put.mono {log log' : List Sight} (h : Put log c) (hsub : log ⊆ log') : Put log' c := by
  obtain ⟨o, p, s, hmem, hc⟩ := h
  exact ⟨o, p, s, hsub hmem, hc⟩

/-- What a pass from the entry can show, and the state in which it is then. -/
inductive Trail (fn₀ : Func) (entry : BlockRef) (stats : Stats) : List Sight → Threading → Prop
  | start : Trail fn₀ entry stats [] { fn := fn₀, stats }
  | enter {log : List Sight} {x : Threading} {b : BlockRef} : Trail fn₀ entry stats log x →
      b = entry ∨ Put log b → Trail fn₀ entry stats (log ++ [⟨.enterBlock b, x⟩]) x
  | thread {log : List Sight} {x t : Threading} {o : OpRef} {b : BlockRef} :
      Trail fn₀ entry stats log x → o ∈ (fn₀.block b).ops →
      (simplify o (some b)).run x = (.ok (), t) →
      Trail fn₀ entry stats (log ++ [⟨.enterOp o b, t⟩]) t
  | leave {log : List Sight} {x : Threading} {b : BlockRef} : Trail fn₀ entry stats log x →
      Trail fn₀ entry stats (log ++ [⟨.leaveBlock b, x⟩]) x

/-- In the middle of a pass. Eliminated blocks lead to blocks of every kind that all rejected
trampolines are of, unless they are settled. -/
structure Midway (fn₀ : Func) (stats : Stats) (x : Threading) : Prop where
  sound : Sound fn₀ (fun _ _ => False) x
  evolves : Evolves { fn := fn₀, stats } x
  calm : ∀ P, RejectsOnly P { fn := fn₀, stats } x → CalmFor P x

theorem Midway.simplify (hw : fn₀.Loaded) {o : OpRef} (h : Midway fn₀ stats x)
    (ho : o ∈ (fn₀.block b).ops) :
    Ensures (simplify o (some b)) x fun _ t => Midway fn₀ stats t ∧ Evolves x t ∧
      ∀ P, RejectsOnly P { fn := fn₀, stats } t → ∀ c ∈ (t.fn.op o).blocks, Firm P t.fn c := by
  refine (simplify_ensures hw h.sound ho).mono fun _ t ht => ?_
  have hsplit := fun P he => h.evolves.rejectsOnly (P := P) ht.evolves he
  refine ⟨⟨ht.sound, h.evolves.trans ht.evolves, fun P he => ?_⟩, ht.evolves, fun P he c hc => ?_⟩
  · exact ht.calmFor P (hsplit P he).2 (h.calm P (hsplit P he).1)
  · obtain ⟨i, j, k, hslot⟩ := Op.mem_blocks_iff.mp hc
    exact ht.firm P (hsplit P he).2 (h.calm P (hsplit P he).1) i j k c hslot

namespace Trail

variable {log : List Sight}

theorem midway (hw : fn₀.Loaded) (h : Trail fn₀ entry stats log x) : Midway fn₀ stats x := by
  induction h with
  | start => exact ⟨sound_of_loaded hw stats, .refl _, fun _ _ _ hb => nomatch hb⟩
  | enter _ _ ih => exact ih
  | thread _ ho hrun ih => exact ((ih.simplify hw ho).of_run hrun).1
  | leave _ ih => exact ih

/-- A state that was shown lies between the first one and the present one. -/
theorem evolves (hw : fn₀.Loaded) (h : Trail fn₀ entry stats log x) :
    ∀ e ∈ log, Evolves { fn := fn₀, stats } e.state ∧ Evolves e.state x := by
  induction h with
  | start => simp
  | enter htrail _ ih | leave htrail ih =>
    simp only [List.mem_append, List.mem_singleton]
    rintro e (he | rfl)
    · exact ih e he
    · exact ⟨(htrail.midway hw).evolves, .refl _⟩
  | thread htrail ho hrun ih =>
    obtain ⟨hmid, hevolves, -⟩ := ((htrail.midway hw).simplify hw ho).of_run hrun
    simp only [List.mem_append, List.mem_singleton]
    rintro e (he | rfl)
    · exact (ih e he).imp_right fun hx => hx.trans hevolves
    · exact ⟨hmid.evolves, .refl _⟩

/-- An operation that was shown refers to settled blocks, or to blocks of every kind that all
trampolines rejected so far are of. -/
theorem firm (hw : fn₀.Loaded) (h : Trail fn₀ entry stats log x) {o : OpRef} {p : BlockRef}
    (he : ⟨.enterOp o p, s⟩ ∈ log) {P : BlockRef → Prop}
    (hP : RejectsOnly P { fn := fn₀, stats } s) : ∀ c ∈ (s.fn.op o).blocks, Firm P s.fn c := by
  induction h with
  | start => simp at he
  | enter _ _ ih | leave _ ih =>
    exact ih (by simpa using he)
  | thread htrail ho hrun ih =>
    obtain ⟨-, -, hfirm⟩ := ((htrail.midway hw).simplify hw ho).of_run hrun
    rcases List.mem_append.mp he with he | he
    · exact ih he
    · cases List.mem_singleton.mp he
      exact hfirm P hP

theorem init_eq {before after : List Sight} {e e' e'' : Sight}
    (h : log ++ [e] = before ++ e' :: after.concat e'') : log = before ++ e' :: after := by
  rw [List.concat_eq_append, ← List.cons_append, ← List.append_assoc] at h
  exact (List.append_inj' h rfl).1

/-- A block is entered in the state that was reached before, and was put on the stack before. -/
theorem entered (h : Trail fn₀ entry stats log t) {before after : List Sight}
    (hlog : log = before ++ ⟨.enterBlock b, x⟩ :: after) :
    Trail fn₀ entry stats before x ∧ (b = entry ∨ Put before b) := by
  induction h generalizing after with
  | start => simp at hlog
  | enter htrail hput ih =>
    rcases List.eq_nil_or_concat after with rfl | ⟨after, e, rfl⟩
    · obtain ⟨rfl, he⟩ := List.append_inj' hlog rfl
      cases he
      exact ⟨htrail, hput⟩
    · exact ih (init_eq hlog)
  | thread _ _ _ ih | leave _ ih =>
    rcases List.eq_nil_or_concat after with rfl | ⟨after, e, rfl⟩
    · obtain ⟨-, he⟩ := List.append_inj' hlog rfl
      cases he
    · exact ih (init_eq hlog)

end Trail

/-! ## The walk beside an onlooker -/

section

variable {log : List Sight}

/-- The same sights, whoever looks on and leaves the pass alone. -/
def PresentsAll (x : Threading)
    (a : ∀ {τ : Type}, Visitor (Threading × τ) → Action (Threading × τ) α)
    (log : List Sight) (r : α) (t : Threading) : Prop :=
  ∀ {τ : Type} {v : Visitor (Threading × τ)}, v.Spares Prod.fst → Presents v x (a v) log r t

theorem visitOps_presents (hw : fn₀.Loaded) {ops : List OpRef} (hops : ops ⊆ (fn₀.block b).ops)
    (h : Trail fn₀ entry stats log x) :
    ∃ seen next t, PresentsAll x
        (fun {τ} v => visitOps (fun s : Threading × τ => s.1.fn) [simplifier, v] b ops) seen next t ∧
      Trail fn₀ entry stats (log ++ seen) t ∧ ∀ c ∈ next, Put (log ++ seen) c := by
  induction ops generalizing x log with
  | nil => exact ⟨[], [], x, fun _ => .pure _, by simpa using h, by simp⟩
  | cons o rest ih =>
    have ho : o ∈ (fn₀.block b).ops := hops List.mem_cons_self
    obtain ⟨_, t, hrun, -⟩ := (h.midway hw).simplify hw ho
    have ht := h.thread ho hrun
    obtain ⟨seen, next, u, hseen, hu, hnext⟩ := ih (fun _ hx => hops (List.mem_cons_of_mem _ hx)) ht
    have hcall : PresentsAll x (fun v => [simplifier, v].forM fun u => u.enterOp o b)
        [⟨.enterOp o b, t⟩] () t := fun hv =>
      .bind (f := fun _ => Callback.announce [_] (.enterOp o b)) (.first hrun) (.call hv _ t)
    refine ⟨⟨.enterOp o b, t⟩ :: seen, (t.fn.op o).blocks.filter t.fn.isLive ++ next, u, ?_, ?_, ?_⟩
    · exact fun hv => (hcall hv).bind (.get_bind fun _ => (hseen hv).bind_pure _)
    · simpa using hu
    · intro c hc
      rw [List.append_cons]
      rcases List.mem_append.mp hc with hc | hc
      · obtain ⟨hc, hlive⟩ := List.mem_filter.mp hc
        exact ⟨o, b, t, by simp, hc, hlive⟩
      · exact hnext c hc

/-- What a visit of a block can show. -/
theorem visitBlock_presents (hw : fn₀.Loaded) (hb : b = entry ∨ Put log b)
    (h : Trail fn₀ entry stats log x) :
    ∃ seen next t, PresentsAll x
        (fun {τ} v => visitBlock (fun s : Threading × τ => s.1.fn) [simplifier, v] b) seen next t ∧
      Trail fn₀ entry stats (log ++ seen) t ∧ ∀ c ∈ next, Put (log ++ seen) c := by
  obtain ⟨seen, next, t, hseen, ht, hnext⟩ :=
    visitOps_presents hw (List.Subset.refl (fn₀.block b).ops) (h.enter hb)
  have henter : PresentsAll x (fun v => [simplifier, v].forM fun u => u.enterBlock (some b))
      [⟨.enterBlock b, x⟩] () x := fun hv =>
    .bind (f := fun _ => Callback.announce [_] (.enterBlock b)) (.pure ()) (.call hv _ x)
  have hleave : PresentsAll t (fun v => [simplifier, v].forM fun u => u.leaveBlock b)
      [⟨.leaveBlock b, t⟩] () t := fun hv =>
    .bind (f := fun _ => Callback.announce [_] (.leaveBlock b)) (.pure ()) (.call hv _ t)
  rw [← (h.midway hw).sound.redirected.alike.blockOps b] at hseen
  refine ⟨[⟨.enterBlock b, x⟩] ++ (seen ++ [⟨.leaveBlock b, t⟩]), next, t, ?_, ?_, ?_⟩
  · exact fun hv => (henter hv).bind
      (.get_bind fun _ => (hseen hv).bind ((hleave hv).bind_pure fun _ => next))
  · simpa using ht.leave (b := b)
  · intro c hc
    rw [← List.append_assoc, ← List.append_assoc]
    exact (hnext c hc).mono (List.subset_append_left _ _)

theorem walkFrom_presents (hw : fn₀.Loaded) (unvisited stack : List BlockRef) :
    ∀ log x, Trail fn₀ entry stats log x → (∀ b ∈ stack, b = entry ∨ Put log b) →
      ∃ seen t, Trail fn₀ entry stats (log ++ seen) t ∧
        PresentsAll x (fun v => walkFrom (·.1.fn) [simplifier, v] unvisited stack) seen () t := by
  induction unvisited, stack using walkFrom.induct with
  | case1 unvisited =>
    intro log x h _
    unfold walkFrom
    exact ⟨[], x, by simpa using h, fun _ => .pure _⟩
  | case2 unvisited b rest hb ih =>
    intro log x h hstack
    obtain ⟨seen, next, t, hseen, ht, hnext⟩ :=
      visitBlock_presents hw (hstack b List.mem_cons_self) h
    have hrest : ∀ c ∈ next.filter (· ∈ unvisited.erase b) ++ rest,
        c = entry ∨ Put (log ++ seen) c := by
      intro c hc
      rcases List.mem_append.mp hc with hc | hc
      · exact .inr (hnext c (List.mem_filter.mp hc).1)
      · exact (hstack c (List.mem_cons_of_mem _ hc)).imp_right fun hput =>
          hput.mono (List.subset_append_left _ _)
    obtain ⟨seen', u, hu, hseen'⟩ := ih next (log ++ seen) t ht hrest
    unfold walkFrom
    simp only [dif_pos hb]
    exact ⟨seen ++ seen', u, by simpa using hu, fun hv => (hseen hv).bind (hseen' hv)⟩
  | case3 unvisited b rest hb ih =>
    intro log x h hstack
    unfold walkFrom
    simp only [dif_neg hb]
    exact ih log x h fun c hc => hstack c (List.mem_cons_of_mem _ hc)

theorem walk_presents (hw : fn₀.Loaded) (hentry : fn₀.entry = some entry) (stats : Stats) :
    ∃ log t, Trail fn₀ entry stats log t ∧ PresentsAll { fn := fn₀, stats }
      (fun v => walk (·.1.fn) [simplifier, v] fn₀.entry) log () t := by
  have hstack : ∀ b ∈ [entry], b = entry ∨ Put [] b := by simp
  obtain ⟨log, t, htrail, hpresents⟩ := walkFrom_presents hw (List.range fn₀.blocks.length) [entry]
    [] { fn := fn₀, stats } .start hstack
  rw [hentry]
  exact ⟨log, t, htrail, fun hv => .get_bind fun _ => hpresents hv⟩

end

/-- How the block `b` came to be entered in the state `s` after the sights `before`: it was live
when an operation put it on the stack. If it is eliminated by now, it is a trampoline with phi
nodes, and trampolines had been rejected by then. -/
structure Waited (fn₀ : Func) (stats : Stats) (before : List Sight) (b : BlockRef)
    (s : Threading) : Prop where
  put : ∃ o p s', ⟨.enterOp o p, s'⟩ ∈ before ∧ b ∈ (s'.fn.op o).blocks ∧ s'.fn.isLive b = true ∧
    ((s.fn.block b).dead = true → stats.phiRejects < s'.stats.phiRejects)
  trampoline : (s.fn.block b).dead = true →
    (fn₀.leadingJump b).isSome ∧ (fn₀.block b).phis ≠ []

theorem Trail.waited (hw : fn₀.Loaded) {before : List Sight} (h : Trail fn₀ entry stats before s)
    (hput : Put before b) : Waited fn₀ stats before b s := by
  obtain ⟨o, p, s', hmem, hb, hlive⟩ := hput
  have hmid := h.midway hw
  obtain ⟨hfirst, hsince⟩ := h.evolves hw _ hmem
  -- a settled block is never eliminated, so it is of every kind that the rejected ones are of
  have hkind : (s.fn.block b).dead = true → ∀ P, RejectsOnly P { fn := fn₀, stats } s' → P b := by
    intro hdead P hP
    refine (h.firm hw hmem hP b hb).resolve_left fun hsettled => ?_
    have hremoved := (hmid.sound.retired.dead b).mp hdead
    exact (hsettled.evolves hsince).not_mem hmid.sound.retired hremoved
  refine ⟨⟨o, p, s', hmem, hb, hlive, fun hdead => ?_⟩, fun hdead => ⟨?_, ?_⟩⟩
  · have hne : s'.stats.phiRejects ≠ stats.phiRejects := fun he =>
      hkind hdead (fun _ => False) (.inl he)
    exact Nat.lt_of_le_of_ne hfirst.rejects hne.symm
  · rw [← hmid.sound.redirected.alike.leadingJump]
    exact hmid.sound.retired.jump b ((hmid.sound.retired.dead b).mp hdead)
  · exact hkind hdead (fun b => (fn₀.block b).phis ≠ []) (.inr fun _ hb => hb)

end Threading

/-- Beside the simplifier, the visitors that leave the pass alone are all shown the same calls.
Blocks other than the entry are entered as they were put on the stack, live, or eliminated
meanwhile. The latter takes rejections, so without any no eliminated block is entered. -/
theorem entered_blocks_were_live {path : Text} {d : Document} {st : Stats} {fns : List Func}
    {fn : Func} (hbuild : ((d.build path).run st).1 = .ok fns) (hfn : fn ∈ fns) (stats : Stats) :
    ∃ (log : List Threading.Sight) (t : Threading),
      (∀ (τ : Type) (v : Visitor (Threading × τ)) (y : τ), v.Spares Prod.fst →
        (Visitor.walk (·.1.fn) [Threading.simplifier, v] fn.entry).run ({ fn, stats }, y) =
          (Threading.replay v log () t).run ({ fn, stats }, y)) ∧
      (∀ before b s after, log = before ++ ⟨.enterBlock b, s⟩ :: after → some b ≠ fn.entry →
        Threading.Waited fn stats before b s) ∧
      (t.stats.phiRejects = stats.phiRejects → ∀ b s, ⟨.enterBlock b, s⟩ ∈ log →
        some b ≠ fn.entry → (s.fn.block b).dead = false) := by
  have hw : fn.Loaded := Document.loaded_of_ok hbuild hfn
  obtain ⟨entry, hentry, -⟩ := hw.entry
  obtain ⟨log, t, htrail, hpresents⟩ := Threading.walk_presents hw hentry stats
  have hwaited : ∀ before b s after, log = before ++ ⟨.enterBlock b, s⟩ :: after →
      some b ≠ fn.entry → Threading.Waited fn stats before b s := by
    intro before b s after hlog hne
    obtain ⟨hbefore, hput⟩ := htrail.entered hlog
    refine hbefore.waited hw (hput.resolve_left ?_)
    rintro rfl
    exact hne hentry.symm
  refine ⟨log, t, fun _ _ y hv => hpresents hv y, hwaited, fun he b s hmem hne => ?_⟩
  obtain ⟨before, after, hlog⟩ := List.append_of_mem hmem
  obtain ⟨o, p, s', hput, -, -, hrejects⟩ := (hwaited before b s after hlog hne).put
  have hlast : s'.stats.phiRejects ≤ t.stats.phiRejects :=
    (htrail.evolves hw _ (hlog ▸ List.mem_append_left _ hput)).2.rejects
  by_contra hdead
  have := hrejects (by simpa using hdead)
  omega

/-- Writes down which blocks are entered and whether they are eliminated then. -/
def Threading.watcher : Visitor (Threading × List (BlockRef × Bool)) where
  enterBlock b := modify fun s => (s.1, s.2 ++ (b.map fun b => (b, (s.1.fn.block b).dead)).toList)

theorem Threading.watcher_spares : watcher.Spares Prod.fst := fun _ =>
  ⟨fun _ _ h => .modify h, fun _ _ _ h => .pure h, fun _ _ h => .pure h⟩

/-- While `x` waits on the stack, the elimination of `z` hands its phi node on to `d`. -/
def overtaken : Document where
  functions := [{
    name := "f"
    blocks := [
      { label := "e", ops := [{ kind := "jumpif", onTrue := "y", onFalse := "x" }] },
      { label := "x", phis := [{ result := "r" }], ops := [{ kind := "jump", target := "d" }] },
      { label := "y", ops := [{ kind := "jumpif", onTrue := "z", onFalse := "x" }] },
      { label := "z", phis := [{ result := "s", operands := ["r"] }],
        ops := [{ kind := "jump", target := "d" }] },
      { label := "d", phis := [{ result := "t", operands := ["s"] }],
        ops := [{ kind := "return" }] }] }]

def overtakenFunc : Func where
  name := "f"
  entry := some 0
  blocks := [
    { id := 1, ops := [0] },
    { id := 2, ops := [1], phis := [0], parents := [some 0, some 2] },
    { id := 3, ops := [2], parents := [some 0] },
    { id := 4, ops := [3], phis := [1], parents := [some 2] },
    { id := 5, ops := [4], phis := [2], parents := [some 1, some 3] }]
  ops := [.branch none (some 2) (some 1), .jump (some 4), .branch none (some 3) (some 1),
    .jump (some 4), .ret none]
  phis := [⟨some 0, []⟩, ⟨some 1, [some 0]⟩, ⟨some 2, [some 1]⟩]
  values := ["r", "s", "t"]

theorem overtaken_waited :
    ((overtaken.build "f.yaml").run {}).1 = .ok [overtakenFunc] ∧
      Threading.watcher.Spares Prod.fst ∧
      ∃ (log : List Threading.Sight) (t : Threading),
        (∀ y, (Visitor.walk (·.1.fn) [Threading.simplifier, Threading.watcher] (some 0)).run
            ({ fn := overtakenFunc }, y) =
          (Threading.replay Threading.watcher log () t).run ({ fn := overtakenFunc }, y)) ∧
        ∀ before b s after, log = before ++ ⟨.enterBlock b, s⟩ :: after → some b ≠ some 0 →
          Threading.Waited overtakenFunc {} before b s := by
  have hbuild : ((overtaken.build "f.yaml").run {}).1 = .ok [overtakenFunc] := by decide +kernel
  have hspares := Threading.watcher_spares
  obtain ⟨log, t, hrun, hwaited, -⟩ := entered_blocks_were_live hbuild List.mem_cons_self {}
  exact ⟨hbuild, hspares, log, t, fun y => hrun _ _ y hspares, hwaited⟩

/-- Block 1 is entered last, and it is eliminated. -/
theorem overtaken_entered_eliminated :
    ((overtaken.build "f.yaml").run {}).1 = .ok [overtakenFunc] ∧
      Threading.watcher.Spares Prod.fst ∧
      ((Visitor.walk (fun s : Threading × List (BlockRef × Bool) => s.1.fn)
        [Threading.simplifier, Threading.watcher] overtakenFunc.entry).run
          ({ fn := overtakenFunc }, [])).2.2 =
        [(0, false), (2, false), (4, false), (1, true)] :=
  ⟨by decide +kernel, Threading.watcher_spares, by cbv⟩

end FlowGraph
