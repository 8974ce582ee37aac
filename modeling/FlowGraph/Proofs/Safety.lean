import Mathlib
import FlowGraph.Proofs.Consistency
import FlowGraph.Proofs.Session
import FlowGraph.Proofs.Threading.Intact

/-! Passes over a loaded function never break off. Later passes start from whatever earlier ones
left: blocks that were eliminated and are still referred to, an entry that was eliminated, edges
that a check complains of. None of this matters, since the graph stays intact. -/

namespace FlowGraph

namespace Func

variable {fn : Func}

/-- A check looks at parents only, and none of them is missing. -/
theorem Intact.verify_ok (h : fn.Intact) (f : Fault) : fn.verify ≠ .error f := by
  intro he
  obtain ⟨entry, hentry⟩ := Option.isSome_iff_exists.mp h.entry
  have hverdict := verify_verdict hentry
  rw [he] at hverdict
  cases hverdict with
  | missing f b listed => exact h.real b listed

theorem Intact.dump_ok (h : fn.Intact) (f : Fault) : fn.dump ≠ .error f := by
  obtain ⟨entry, hentry⟩ := Option.isSome_iff_exists.mp h.entry
  simp [dump, hentry]

end Func

/-- The run does not end because something broke off. -/
def RunError.Orderly (e : RunError) : Prop := ∀ f, e ≠ .fault f

namespace Call

/-- Passes, and single operations of a block that is there. -/
def Threads : Call → Prop
  | simplify _ _ (some _) | threadJumps | optimize _ _ => True
  | _ => False

/-- All graphs that such a call goes through. -/
def moments (s : Session) : Call → List Func
  | simplify simplifier o b =>
    Threading.Watched.moments (Threading.Watched.simplify o b)
      { s.toWork with removed := s.removedBy simplifier }
  | threadJumps | optimize _ _ =>
    Threading.Watched.moments Threading.Watched.run { s.toWork with }
  | _ => [s.fn]

end Call

namespace Session

variable {s : Session} {c : Call}

/-- The graph is intact, and what simplifiers have eliminated still starts with jumps. -/
structure Intact (s : Session) : Prop where
  graph : s.fn.Intact
  jump : ∀ k, ∀ b ∈ s.removedBy k, (s.fn.leadingJump b).isSome

/-- A graph that the call goes through, with the operations of the graph it starts with. -/
structure Passes (s : Session) (c : Call) (fn : Func) : Prop where
  alike : s.fn.Alike fn
  intact : fn.Intact
  shown : fn ∈ c.moments s

theorem Passes.session {w : Work} (h : s.Intact) (hw : s.Passes c w.fn) :
    Intact { s with toWork := w } := by
  refine ⟨hw.intact, fun k b hb => ?_⟩
  rw [hw.alike.leadingJump]
  exact h.jump k b hb

theorem simplify_safely (h : s.Intact) (simplifier : Text) (o : OpRef) (b : BlockRef) :
    Ensures (Threading.simplify o (some b))
      { s.toWork with removed := s.removedBy simplifier } fun _ t =>
        Threading.Safely (Threading.Watched.simplify o (some b))
          { s.toWork with removed := s.removedBy simplifier } t :=
  Threading.simplify_safely o b ⟨.refl _, h.graph, h.jump simplifier⟩

theorem run_safely (h : s.Intact) : Ensures Threading.run { s.toWork with } fun _ t =>
    Threading.Safely Threading.Watched.run { s.toWork with } t :=
  Threading.run_safely ⟨.refl _, h.graph, nofun⟩

/-- Every graph that a pass goes through is intact. -/
theorem moments_intact (hc : c.Threads) (h : s.Intact) : ∀ fn ∈ c.moments s, fn.Intact := by
  cases c with
  | simplify simplifier o b =>
    cases b with
    | none => cases hc
    | some b =>
      obtain ⟨_, t, -, ht⟩ := simplify_safely h simplifier o b
      exact ht.moments
  | threadJumps | optimize _ _ =>
    obtain ⟨_, t, -, ht⟩ := run_safely h
    exact ht.moments
  | _ => cases hc

theorem threadJumps_passes (h : s.Intact)
    (hc : c.moments s = Threading.Watched.moments Threading.Watched.run { s.toWork with }) :
    Ensures threadJumps s.toWork fun _ w => s.Passes c w.fn := by
  refine (threadJumps_outcome (E := fun _ _ => False) (.ofEnsures
    ((run_safely h).mono fun _ t ht => ?_))).ensures
  exact ⟨ht.intact.alike, ht.intact.graph, hc ▸ ht.shown⟩

/-- Dumps and checks of an intact graph do not break off. -/
theorem admits_orderly : Run.Admits (fun w => s.Passes c w.fn) RunError.Orderly where
  lost _ _ := nofun
  dump _ f hw hf := absurd hf (hw.intact.dump_ok f)
  check _ f hw hf := absurd hf (hw.intact.verify_ok f)
  complaint _ _ _ _ _ _ := nofun

theorem run_orderly (hc : c.Threads) (h : s.Intact) :
    Outcome c.run s (fun _ t => t.Intact ∧ t.fn ∈ c.moments s)
      fun e t => (t.Intact ∧ t.fn ∈ c.moments s) ∧ e.Orderly := by
  cases c with
  | simplify simplifier o b =>
    cases b with
    | none => cases hc
    | some b =>
      rw [Call.run]
      refine within_outcome (.ofEnsures ((simplify_safely h simplifier o b).mono
        fun _ t ht => ⟨⟨?_, ?_⟩, ht.shown⟩))
      · exact ht.intact.graph
      · -- the other simplifiers ran on earlier graphs, but leading jumps stay where they are
        intro k b hb
        show (t.fn.leadingJump b).isSome
        rw [ht.intact.alike.leadingJump]
        change b ∈ (if k = simplifier then t.removed else s.removedBy k) at hb
        split at hb
        · exact ht.intact.jump b hb
        · exact h.jump k b hb
  | threadJumps =>
    rw [Call.run]
    refine within_outcome (.ofEnsures ((threadJumps_passes (c := .threadJumps) h rfl).mono ?_))
    exact fun _ w hw => ⟨hw.session h, hw.shown⟩
  | optimize o out =>
    rw [Call.run]
    have hstart : s.Passes (.optimize o out) s.fn := ⟨.refl _, h.graph, List.mem_cons_self⟩
    refine within_outcome ((Run.optimize_stays admits_orderly o hstart
      (.ofEnsures (threadJumps_passes h rfl))).mono ?_ ?_)
    · exact fun _ t ht => ⟨ht.session h, ht.shown⟩
    · exact fun e t ht => ⟨⟨ht.1.session h, ht.1.shown⟩, ht.2⟩
  | _ => cases hc

end Session

/-- On a loaded function any number of passes and of single operations can be threaded, one after
the other: no call breaks off, whether the checks and dumps around it succeed or not, and at every
moment of every call each jump has a target. -/
theorem passes_never_break_off {path : Text} {d : Document} {st : Stats} {fns : List Func}
    {fn : Func} (hbuild : ((d.build path).run st).1 = .ok fns) (hfn : fn ∈ fns) (stats : Stats)
    (calls : List Call) (hcalls : ∀ c ∈ calls, c.Threads) (c : Call) (hc : c.Threads) :
    let s := Session.after calls { fn, stats }
    (∀ f, (c.run.run s).1 ≠ .error (.fault f)) ∧ (c.run.run s).2.fn ∈ c.moments s ∧
      ∀ g ∈ c.moments s, ∀ o, g.op o ≠ .jump none := by
  have hstart : Session.Intact { fn, stats } :=
    ⟨(Document.loaded_of_ok hbuild hfn).intact, nofun⟩
  have hafter : (Session.after calls { fn, stats }).Intact :=
    Session.after_keeps (fun c hc s hs => (Session.run_orderly (hcalls c hc) hs).state
      (fun _ _ ht => ht.1) fun _ _ ht => ht.1.1) hstart
  have hrun := Session.run_orderly hc hafter
  refine ⟨fun f hf => (hrun.2 _ hf).2 f rfl, ?_, fun g hg => ?_⟩
  · exact hrun.state (fun _ _ ht => ht.2) fun _ _ ht => ht.1.2
  · exact (Session.moments_intact hc hafter g hg).jump

/-- The first call leaves an edge to an eliminated block, of which the second one complains. -/
def lateCalls : List Call :=
  [.optimize { verify := true } {}, .optimize { verify := true } {}, .simplify "s" 0 (some 0)]

theorem lateMerge_goes_on :
    ((lateMerge.build "f.yaml").run {}).1 = .ok [lateMergeFunc] ∧
      (∀ c ∈ lateCalls, c.Threads) ∧ Call.threadJumps.Threads ∧
      let s := Session.after lateCalls { fn := lateMergeFunc, stats := {} }
      (∀ f, (Call.threadJumps.run.run s).1 ≠ .error (.fault f)) ∧
        (Call.threadJumps.run.run s).2.fn ∈ Call.threadJumps.moments s ∧
        ∀ g ∈ Call.threadJumps.moments s, ∀ o, g.op o ≠ .jump none := by
  have hbuild : ((lateMerge.build "f.yaml").run {}).1 = .ok [lateMergeFunc] := by decide +kernel
  have hcalls : ∀ c ∈ lateCalls, c.Threads := by simp [lateCalls, Call.Threads]
  exact ⟨hbuild, hcalls, trivial, passes_never_break_off hbuild List.mem_cons_self {} lateCalls hcalls
    .threadJumps trivial⟩

end FlowGraph
