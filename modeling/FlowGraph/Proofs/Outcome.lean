import Mathlib
import FlowGraph.Pass
import FlowGraph.Proofs.Ensures

/-! What an action leaves behind, whether it returns or breaks off. `Outcome x s Q E` speaks of
both ways: `Q` holds of the result and the state, or `E` of the error and the state. An invariant
that every step keeps holds in both, so it also survives a break-off in the middle of an action. -/

namespace FlowGraph

variable {σ ε α β : Type}

/-- From `s` the action returns with `Q` or breaks off with `E`. -/
def Outcome (x : ExceptT ε (StateM σ) α) (s : σ) (Q : α → σ → Prop) (E : ε → σ → Prop) : Prop :=
  (∀ a, (x.run s).1 = .ok a → Q a (x.run s).2) ∧ ∀ e, (x.run s).1 = .error e → E e (x.run s).2

namespace Outcome

variable {s t : σ} {x : ExceptT ε (StateM σ) α} {Q Q' : α → σ → Prop} {E E' : ε → σ → Prop}
  {I : σ → Prop}

theorem mono (h : Outcome x s Q E) (hq : ∀ a t, Q a t → Q' a t) (he : ∀ e t, E e t → E' e t) :
    Outcome x s Q' E' :=
  ⟨fun a ha => hq a _ (h.1 a ha), fun e hx => he e _ (h.2 e hx)⟩

/-- What holds in both cases holds of the state that is left. -/
theorem state (h : Outcome x s Q E) (hq : ∀ a t, Q a t → I t) (he : ∀ e t, E e t → I t) :
    I (x.run s).2 := by
  cases hx : (x.run s).1 with
  | ok a => exact hq a _ (h.1 a hx)
  | error e => exact he e _ (h.2 e hx)

theorem ofEnsures {x : Action σ α} {E : Fault → σ → Prop} (h : Ensures x s Q) :
    Outcome x s Q E := by
  obtain ⟨a, t, hx, hq⟩ := h
  unfold Outcome
  rw [hx]
  exact ⟨fun b hb => by cases hb; exact hq, nofun⟩

theorem ensures {x : Action σ α} (h : Outcome x s Q fun _ _ => False) : Ensures x s Q := by
  rcases hx : x.run s with ⟨e | a, t⟩
  · exact (h.2 e (by rw [hx])).elim
  · have hq := h.1 a (by rw [hx])
    rw [hx] at hq
    exact ⟨a, t, hx, hq⟩

protected theorem pure {a : α} (h : Q a s) : Outcome (pure a) s Q E :=
  ⟨fun b hb => by cases hb; exact h, nofun⟩

protected theorem throw {e : ε} (h : E e s) : Outcome (throw e) s Q E :=
  ⟨nofun, fun e' he => by cases he; exact h⟩

protected theorem get {Q : σ → σ → Prop} (h : Q s s) : Outcome get s Q E :=
  ⟨fun b hb => by cases hb; exact h, nofun⟩

protected theorem set {Q : Unit → σ → Prop} (h : Q () t) : Outcome (set t) s Q E :=
  ⟨fun _ _ => h, nofun⟩

protected theorem modify {f : σ → σ} {Q : Unit → σ → Prop} (h : Q () (f s)) :
    Outcome (modify f) s Q E :=
  ⟨fun _ _ => h, nofun⟩

/-- A computation without state. -/
protected theorem lift {r : Except ε α} (h : ∀ a, r = .ok a → Q a s)
    (he : ∀ e, r = .error e → E e s) : Outcome (liftM r : ExceptT ε (StateM σ) α) s Q E := by
  cases r with
  | ok a => exact .pure (h a rfl)
  | error e => exact .throw (he e rfl)

protected theorem bind {f : α → ExceptT ε (StateM σ) β} {R : β → σ → Prop}
    (h : Outcome x s (fun a t => Outcome (f a) t R E) E) : Outcome (x >>= f) s R E := by
  unfold Outcome
  rw [run_bind]
  rcases hx : x.run s with ⟨e | a, t⟩
  · refine ⟨nofun, fun e' he => ?_⟩
    cases he
    have hE := h.2 e (by rw [hx])
    rwa [hx] at hE
  · have hrest := h.1 a (by rw [hx])
    rwa [hx] at hrest

/-- All that follows starts from what the first action ensures. -/
theorem andThen {f : α → ExceptT ε (StateM σ) β} {R : β → σ → Prop} (h : Outcome x s Q E)
    (hf : ∀ a t, Q a t → Outcome (f a) t R E) : Outcome (x >>= f) s R E :=
  .bind (h.mono hf fun _ _ he => he)

/-- Actions behind the first one that agree wherever it ends make no difference. -/
theorem run_bind_congr {f g : α → ExceptT ε (StateM σ) β} (h : Outcome x s Q E)
    (hfg : ∀ a t, Q a t → (f a).run t = (g a).run t) : (x >>= f).run s = (x >>= g).run s := by
  rw [run_bind, run_bind]
  rcases hx : x.run s with ⟨e | a, t⟩
  · rfl
  · have hq := h.1 a (by rw [hx])
    rw [hx] at hq
    exact hfg a t hq

/-- A step that may be left out, before the rest. -/
theorem guard {c : Prop} {_ : Decidable c} {x : ExceptT ε (StateM σ) Unit}
    {k : Unit → ExceptT ε (StateM σ) β} {R : β → σ → Prop} (hs : I s)
    (hx : c → Outcome x s (fun _ t => I t) E) (hk : ∀ t, I t → Outcome (k ()) t R E) :
    Outcome (if c then x >>= k else k ()) s R E := by
  split
  · next hc => exact (hx hc).andThen fun _ t ht => hk t ht
  · exact hk s hs

theorem forM {f : α → ExceptT ε (StateM σ) Unit}
    (step : ∀ x t, I t → Outcome (f x) t (fun _ u => I u) E) :
    ∀ (xs : List α) (s : σ), I s → Outcome (xs.forM f) s (fun _ t => I t) E
  | [], _, h => .pure h
  | x :: xs, s, h => (step x s h).andThen fun _ t ht => forM step xs t ht

theorem mapM {f : α → ExceptT ε (StateM σ) β}
    (step : ∀ x t, I t → Outcome (f x) t (fun _ u => I u) E) :
    ∀ (xs : List α) (s : σ), I s → Outcome (xs.mapM f) s (fun _ t => I t) E
  | [], s, h => by
    rw [List.mapM_nil]
    exact .pure h
  | x :: xs, s, h => by
    rw [List.mapM_cons]
    refine (step x s h).andThen fun b t ht => ?_
    exact (mapM step xs t ht).andThen fun bs u hu => .pure hu

end Outcome

/-! ## Walks -/

namespace Visitor

variable {graph : σ → Func} {vs : List (Visitor σ)} {I : σ → Prop} {E : Fault → σ → Prop}

/-- The visitor keeps `I`, and if it breaks off it leaves `E`. -/
structure Keeps (I : σ → Prop) (E : Fault → σ → Prop) (v : Visitor σ) : Prop where
  enterBlock : ∀ b s, I s → Outcome (v.enterBlock b) s (fun _ t => I t) E
  enterOp : ∀ o b s, I s → Outcome (v.enterOp o b) s (fun _ t => I t) E
  leaveBlock : ∀ b s, I s → Outcome (v.leaveBlock b) s (fun _ t => I t) E

variable (h : ∀ v ∈ vs, v.Keeps I E)
include h

theorem forM_outcome {f : Visitor σ → Action σ Unit}
    (hf : ∀ v, v.Keeps I E → ∀ s, I s → Outcome (f v) s (fun _ t => I t) E) :
    ∀ s, I s → Outcome (vs.forM f) s (fun _ t => I t) E := by
  induction vs with
  | nil => exact fun s hs => .pure hs
  | cons v vs ih =>
    intro s hs
    have hrest := ih fun v hv => h v (List.mem_cons_of_mem _ hv)
    exact (hf v (h v List.mem_cons_self) s hs).andThen fun _ t ht => hrest t ht

theorem visitOps_outcome (b : BlockRef) (os : List OpRef) :
    ∀ s, I s → Outcome (visitOps graph vs b os) s (fun _ t => I t) E := by
  induction os with
  | nil => exact fun s hs => .pure hs
  | cons o os ih =>
    intro s hs
    refine (forM_outcome h (fun v hv => hv.enterOp o b) s hs).andThen fun _ t ht => ?_
    exact .bind (.get ((ih t ht).andThen fun _ u hu => .pure hu))

theorem visitBlock_outcome (b : BlockRef) :
    ∀ s, I s → Outcome (visitBlock graph vs b) s (fun _ t => I t) E := by
  intro s hs
  refine (forM_outcome h (fun v hv => hv.enterBlock (some b)) s hs).andThen fun _ t ht => ?_
  refine .bind (.get ((visitOps_outcome h b _ t ht).andThen fun next u hu => ?_))
  exact (forM_outcome h (fun v hv => hv.leaveBlock b) u hu).andThen fun _ _ hv => .pure hv

theorem walkFrom_outcome (unvisited stack : List BlockRef) :
    ∀ s, I s → Outcome (walkFrom graph vs unvisited stack) s (fun _ t => I t) E := by
  induction unvisited, stack using walkFrom.induct with
  | case1 unvisited =>
    intro s hs
    unfold walkFrom
    exact .pure hs
  | case2 unvisited b rest hb ih =>
    intro s hs
    unfold walkFrom
    rw [dif_pos hb]
    exact (visitBlock_outcome h b s hs).andThen fun next t ht => ih next t ht
  | case3 unvisited b rest hb ih =>
    intro s hs
    unfold walkFrom
    rw [dif_neg hb]
    exact ih s hs

/-- A walk keeps what all its visitors keep. It breaks off by itself only if there is no entry. -/
theorem walk_outcome (entry : Option BlockRef) (hmissing : entry = none → ∀ s, I s →
    E .missingBlock s) : ∀ s, I s → Outcome (walk graph vs entry) s (fun _ t => I t) E := by
  intro s hs
  cases entry with
  | none =>
    refine (forM_outcome h (fun v hv => hv.enterBlock none) s hs).andThen fun _ t ht => ?_
    exact .throw (hmissing rfl t ht)
  | some b => exact .bind (.get (walkFrom_outcome h _ _ s hs))

end Visitor

/-! ## Runs -/

/-- A pass of its own does what the threading of all operations does, with nothing eliminated
yet. -/
theorem threadJumps_outcome {w : Work} {Q : Unit → Work → Prop} {E : Fault → Work → Prop}
    (h : Outcome Threading.run { w with } (fun a t => Q a t.toWork) fun f t => E f t.toWork) :
    Outcome threadJumps w Q E := h

/-- Dumps are written and nothing else. -/
abbrev Outputs.Dumps : Outputs → Outputs → Prop :=
  Relation.ReflTransGen fun a b => ∃ text, b = (a.writeDump text).1

theorem Outputs.Dumps.log {a b : Outputs} (h : a.Dumps b) : b.log = a.log := by
  induction h with
  | refl => rfl
  | tail _ hstep ih =>
    obtain ⟨text, rfl⟩ := hstep
    exact ih

/-- The line about a pass over a function, which debug logs get. -/
def Outputs.logPass (out : Outputs) (o : Options) (func pass : Text) (eliminated : Int) : Outputs :=
  if o.level ≤ Level.debug then
    out.writeLog (Log.line Level.debug "pass applied"
      [("func", func), ("pass", pass), ("eliminated", Text.ofInt eliminated)])
  else out

/-- What the line does to the log depends on the log only. -/
theorem Outputs.logPass_log {a b : Outputs} (h : a.log = b.log) (o : Options) (func pass : Text)
    (eliminated : Int) :
    (a.logPass o func pass eliminated).log = (b.logPass o func pass eliminated).log := by
  unfold logPass writeLog
  rw [h]
  split
  · cases b.log <;> rfl
  · exact h

namespace Run

variable {s t u : Run} {o : Options} {m : Moment} {name : Text} {w : Work} {n : Int}
  {r : Except Fault Unit}

/-- The graph and the counters are left alone, and only dumps are written. -/
def Kept (s t : Run) : Prop := t.toWork = s.toWork ∧ s.out.Dumps t.out

theorem Kept.refl (s : Run) : Kept s s := ⟨rfl, .refl⟩

theorem Kept.trans (h : Kept s t) (h' : Kept t u) : Kept s u :=
  ⟨h'.1.trans h.1, h.2.trans h'.2⟩

/-- The pass `name` led to `w`, and the line about it was written, between two sequences of dumps.
It says that `n` blocks were eliminated. -/
structure Logged (o : Options) (name : Text) (w : Work) (n : Int) (s t : Run) : Prop where
  work : t.toWork = w
  log : t.out.log = (s.out.logPass o w.fn.name name n).log
  line : ∃ out, s.out.Dumps out ∧ (out.logPass o w.fn.name name n).Dumps t.out

theorem Logged.kept (h : Logged o name w n s t) (hk : Kept t u) : Logged o name w n s u := by
  obtain ⟨hwork, hlog, out, hbefore, hafter⟩ := h
  exact ⟨hk.1.trans hwork, hk.2.log.trans hlog, out, hbefore, hafter.trans hk.2⟩

/-- How the dump and the check of a graph at one moment can end a run. -/
inductive Stops (o : Options) (m : Moment) (name : Text) (fn : Func) : RunError → Prop
  | lost : (m = .before → o.dumpsBefore name = true) → Stops o m name fn (.dump m name)
  | dump {f : Fault} : fn.dump = .error f → Stops o m name fn (.fault f)
  | check {f : Fault} : fn.verify = .error f → Stops o m name fn (.fault f)
  | complaint {e : VerifyError} : fn.verify = .ok (some e) → Stops o m name fn (.verify m name e)

theorem write_outcome (error : RunError) (text : Text) :
    Outcome (write error text) s (fun _ t => Kept s t) fun e t => e = error ∧ Kept s t := by
  have hkept : Kept s { s with out := (s.out.writeDump text).1 } := ⟨rfl, .single ⟨text, rfl⟩⟩
  refine .bind (.get ?_)
  rcases hwrite : s.out.writeDump text with ⟨out, ok⟩
  rw [hwrite] at hkept
  refine .bind (.set ?_)
  cases ok with
  | false => exact .throw ⟨rfl, hkept⟩
  | true => exact .pure hkept

theorem dump_outcome (hm : m = .before → o.dumpsBefore name = true) :
    Outcome (dump m name) s (fun _ t => Kept s t) fun e t => Kept s t ∧ Stops o m name s.fn e := by
  have hwrite : ∀ text t, Kept s t → Outcome (write (.dump m name) text) t (fun _ u => Kept s u)
      fun e u => Kept s u ∧ Stops o m name s.fn e := fun text t ht =>
    (write_outcome _ text).mono (fun _ u hu => ht.trans hu) fun e u hu =>
      ⟨ht.trans hu.2, hu.1 ▸ .lost hm⟩
  refine .bind (.get ((hwrite _ s (.refl s)).andThen fun _ t ht => ?_))
  cases hentry : s.fn.entry with
  | none =>
    rw [Func.dumpLines, hentry]
    exact .bind (.throw ⟨ht, .dump (by rw [Func.dump, hentry])⟩)
  | some entry =>
    rw [Func.dumpLines, hentry]
    exact .bind (.pure ((Outcome.forM hwrite _ t ht).andThen fun _ u hu => hwrite _ u hu))

theorem verify_outcome : Outcome (verify m name) s (fun _ t => t = s)
    fun e t => t = s ∧ Stops o m name s.fn e := by
  refine .bind (.get ?_)
  cases hverify : s.fn.verify with
  | error f => exact .bind (.throw ⟨rfl, .check hverify⟩)
  | ok c =>
    cases c with
    | none => exact .bind (.pure (.pure rfl))
    | some e => exact .bind (.pure (.throw ⟨rfl, .complaint hverify⟩))

theorem apply_outcome {a : Action Work Unit} (ha : a.run s.toWork = (r, w)) :
    Outcome (apply a) s (fun _ t => r = .ok () ∧ t = { s with toWork := w })
      fun e t => ∃ f, r = .error f ∧ e = .fault f ∧ t = { s with toWork := w } := by
  refine .bind (.get ?_)
  rw [ha]
  refine .bind (.set ?_)
  cases r with
  | ok => exact .pure ⟨rfl, rfl⟩
  | error f => exact .throw ⟨f, rfl, rfl, rfl⟩

theorem report_outcome {before : Nat} {E : RunError → Run → Prop} :
    Outcome (report o name before) s (fun _ t => t = { s with
      out := s.out.logPass o s.fn.name name (s.fn.countDead - before) }) E := by
  unfold report Outputs.logPass
  split
  · exact .modify rfl
  · exact .pure rfl

/-- How a run ends early at a pass that ends with `r` in `w`. -/
inductive Halted (o : Options) (name : Text) (r : Except Fault Unit) (w : Work) (n : Int) (s : Run) :
    RunError → Run → Prop
  | early {e : RunError} {t : Run} : Kept s t → Stops o .before name s.fn e →
      Halted o name r w n s e t
  | fault {f : Fault} {t : Run} : r = .error f → t.toWork = w → Halted o name r w n s (.fault f) t
  | late {e : RunError} {t : Run} : r = .ok () → Logged o name w n s t →
      Stops o .after name w.fn e → Halted o name r w n s e t

/-- One pass, with all that happens around it. Nothing before the pass changes the graph, so the
pass starts where the run does, and nothing behind it does. -/
theorem pass_outcome {p : Pass} (hp : p.apply.run s.toWork = (r, w)) :
    Outcome (Run.pass o p) s
      (fun _ t => r = .ok () ∧ Logged o p.name w (w.fn.countDead - s.fn.countDead) s t)
      (Halted o p.name r w (w.fn.countDead - s.fn.countDead) s) := by
  unfold Run.pass
  refine .guard (I := Kept s) (.refl s) (fun hdump => ?_) fun t ht => ?_
  · exact (dump_outcome fun _ => hdump).mono (fun _ _ ht => ht) fun _ _ ht => .early ht.1 ht.2
  refine .guard (I := Kept s) ht (fun _ => ?_) fun t ht => ?_
  · refine (verify_outcome (o := o)).mono (fun _ u hu => hu ▸ ht) fun e u hu => .early (hu.1 ▸ ht) ?_
    rw [← ht.1]
    exact hu.2
  refine .bind (.get (.bind ((apply_outcome (by rw [ht.1, hp])).mono (fun _ u hu => ?_) ?_)))
  · obtain ⟨hr, hu⟩ := hu
    refine report_outcome.andThen fun _ v hv => ?_
    have hlogged : Logged o p.name w (w.fn.countDead - s.fn.countDead) s v := by
      rw [hv, hu, ht.1]
      exact ⟨rfl, Outputs.logPass_log ht.2.log .., t.out, ht.2, .refl⟩
    refine .guard (I := Logged o p.name w (w.fn.countDead - s.fn.countDead) s) hlogged
      (fun _ => ?_) fun v hv => ?_
    · refine (verify_outcome (o := o)).mono (fun _ u hu => hu ▸ hlogged) fun e u hu =>
        .late hr (hu.1 ▸ hlogged) ?_
      rw [← hlogged.work]
      exact hu.2
    · dsimp only
      split
      · refine (dump_outcome (m := .after) (o := o) nofun).mono (fun _ u hu => ⟨hr, hv.kept hu⟩)
          fun e u hu => .late hr (hv.kept hu.1) ?_
        rw [← hv.work]
        exact hu.2
      · exact .pure ⟨hr, hv⟩
  · rintro e u ⟨f, hr, rfl, rfl⟩
    exact .fault hr rfl

/-- All passes of an optimisation. -/
theorem optimize_outcome (hp : threadJumps.run s.toWork = (r, w)) :
    Outcome (optimize o) s
      (fun _ t => r = .ok () ∧
        Logged o Pass.jumpThreading.name w (w.fn.countDead - s.fn.countDead) s t)
      (Halted o Pass.jumpThreading.name r w (w.fn.countDead - s.fn.countDead) s) :=
  (pass_outcome (p := Pass.jumpThreading) hp).andThen fun _ _ ht => .pure ht

/-! ## What runs keep -/

section

variable {I : Work → Prop} {E : RunError → Prop}

/-- The errors `E` are all that can come of dumps and checks in a state with `I`. -/
structure Admits (I : Work → Prop) (E : RunError → Prop) : Prop where
  lost : ∀ m p, E (.dump m p)
  dump : ∀ w f, I w → w.fn.dump = .error f → E (.fault f)
  check : ∀ w f, I w → w.fn.verify = .error f → E (.fault f)
  complaint : ∀ w m p e, I w → w.fn.verify = .ok (some e) → E (.verify m p e)

theorem Admits.stops (h : Admits I E) {e : RunError} (hw : I w) (hs : Stops o m name w.fn e) :
    E e := by
  cases hs with
  | lost => exact h.lost m name
  | dump hf => exact h.dump w _ hw hf
  | check hf => exact h.check w _ hw hf
  | complaint he => exact h.complaint w m name _ hw he

/-- The run goes on in a state with `I`, or it ends there with an error of `E`. -/
abbrev Stays (I : Work → Prop) (E : RunError → Prop) (x : M Unit) (s : Run) : Prop :=
  Outcome x s (fun _ t => I t.toWork) fun e t => I t.toWork ∧ E e

/-- An optimisation keeps what the pass keeps. -/
theorem optimize_stays (h : Admits I E) (o : Options) (hs : I s.toWork)
    (hp : Outcome threadJumps s.toWork (fun _ w => I w) fun f w => I w ∧ E (.fault f)) :
    Stays I E (optimize o) s := by
  unfold Outcome at hp
  rcases hrun : threadJumps.run s.toWork with ⟨r, w⟩
  rw [hrun] at hp
  refine (optimize_outcome hrun).mono (fun _ t ht => ?_) fun e t he => ?_
  · rw [ht.2.work]
    exact hp.1 () ht.1
  · cases he with
    | early hkept hstops =>
      rw [hkept.1]
      exact ⟨hs, h.stops hs hstops⟩
    | fault hr hwork =>
      rw [hwork]
      exact hp.2 _ hr
    | late hr hlogged hstops =>
      rw [hlogged.work]
      exact ⟨hp.1 () hr, h.stops (hp.1 () hr) hstops⟩

end

end Run

end FlowGraph
