import Mathlib
import FlowGraph.Proofs.ControlFlow

/-! Short cuts over eliminated blocks. Whatever operations are threaded in whatever order, and
whatever phi nodes are rejected on the way, at every moment the eliminated blocks are trampolines
without phi nodes whose jumps lead out of the eliminated blocks. The moments are those that a
watcher of the calls has seen. -/

namespace FlowGraph

namespace Threading

variable {fn₀ : Func} {s : Threading} {b : BlockRef}

/-- In a ring of trampolines at least one block is live. -/
theorem Safe.ring_live (h : Safe s) (hb : s.fn.OnRing b) : ∃ c, s.fn.Leads b c ∧ s.fn.Leads c b ∧
    (s.fn.block c).dead = false ∧ c ∉ s.removed := by
  have hout : ∀ c, (s.fn.block c).dead = false → c ∉ s.removed := by
    intro c hc hm
    rw [h.dead c hm] at hc
    cases hc
  cases hdead : (s.fn.block b).dead with
  | false => exact ⟨b, .refl, .refl, hdead, hout b hdead⟩
  | true =>
    obtain ⟨c, hleads, hc⟩ := h.live b hdead
    exact ⟨c, hleads, hb.leads_back hleads, hc, hout c hc⟩

/-- What holds at a moment of a sequence of calls. -/
structure Sheltered (s : Threading) : Prop where
  dead : ∀ b ∈ s.removed, (s.fn.block b).dead = true
  jump : ∀ b ∈ s.removed, (s.fn.leadingJump b).isSome
  phis : ∀ b ∈ s.removed, (s.fn.block b).phis = []
  /-- Leading jumps lead out of the eliminated blocks. -/
  exits : ∀ b ∈ s.removed, ∃ c, s.fn.Leads b c ∧ c ∉ s.removed
  ring : ∀ b, s.fn.OnRing b → ∃ c, s.fn.Leads b c ∧ s.fn.Leads c b ∧
    (s.fn.block c).dead = false ∧ c ∉ s.removed
  /-- The walk over eliminated blocks ends because it is out of them. With any larger bound it
  ends at the same block. -/
  resolve : ∀ b ∈ s.removed, ∃ jmp m c, s.fn.leadingJump b = some jmp ∧
    target s.fn b jmp = .ok m ∧ resolve s.fn s.removed b jmp = .ok c ∧ c ∉ s.removed ∧
      ∀ steps, s.removed.length ≤ steps → resolveFrom s.fn s.removed steps m = .ok c

theorem Safe.sheltered (h : Safe s) : Sheltered s where
  dead := h.dead
  jump := h.jump
  phis := h.phis
  exits b hb := by
    obtain ⟨c, hthrough, hc⟩ := h.exits b hb
    exact ⟨c, hthrough.leads, hc⟩
  ring b hb := h.ring_live hb
  resolve b hb := by
    obtain ⟨jmp, m, c, hjmp, -, htarget, hrest, hc⟩ := h.resolves hb
    have hwalk : ∀ steps, s.removed.length ≤ steps →
        resolveFrom s.fn s.removed steps m = .ok c :=
      fun steps hle => resolveFrom_of_through hrest hc hle
    refine ⟨jmp, m, c, hjmp, htarget, ?_, hc, hwalk⟩
    simp only [Threading.resolve, htarget]
    exact hwalk _ (Nat.le_refl _)

/-- Calls on operations of their blocks, one after the other. -/
theorem Watched.calls_ensures (hw : fn₀.Loaded) {calls : List (OpRef × BlockRef)} {w : Watched}
    (hcalls : ∀ c ∈ calls, c.1 ∈ (fn₀.block c.2).ops) (hfine : w.Fine)
    (hs : Sound fn₀ (fun _ _ => False) w.state) :
    Ensures (calls.forM fun c => simplify c.1 (some c.2)) w fun _ w' => w'.Fine := by
  refine (Ensures.forM (I := fun rest w => rest ⊆ calls ∧ w.Fine ∧
    Sound fn₀ (fun _ _ => False) w.state) ?_ ⟨fun _ h => h, hfine, hs⟩).mono fun _ _ h => h.2.1
  rintro c rest w ⟨hrest, hfine, hs⟩
  refine (simplify_ensures hw hfine hs (hcalls c (hrest List.mem_cons_self))).mono ?_
  rintro _ w' ⟨hfine', hsimplified⟩
  exact ⟨fun _ hx => hrest (List.mem_cons_of_mem _ hx), hfine', hsimplified.sound⟩

/-- Short cuts never lead to an eliminated block. The watched calls do what the calls do, and all
moments and short cuts that were seen, the last one included, are in order. -/
theorem short_circuits_leave_eliminated {path : Text} {d : Document} {st : Stats}
    {fns : List Func} {fn : Func} (hbuild : ((d.build path).run st).1 = .ok fns) (hfn : fn ∈ fns)
    (stats : Stats) (calls : List (OpRef × BlockRef))
    (hcalls : ∀ c ∈ calls, c.1 ∈ (fn.block c.2).ops) :
    ∃ w : Watched, (calls.forM fun c => Watched.simplify c.1 (some c.2)).run
        ⟨{ fn, stats }, [.state { fn, stats }]⟩ = (.ok (), w) ∧
      (calls.forM fun c => simplify c.1 (some c.2)).run { fn, stats } = (.ok (), w.state) ∧
      .state w.state ∈ w.seen ∧
      (∀ s, .state s ∈ w.seen → Sheltered s) ∧
      (∀ s b dest, .resolved s b dest ∈ w.seen → dest ∉ s.removed ∧ ∀ m, s.fn.next b = some m →
        ∀ steps, s.removed.length ≤ steps → resolveFrom s.fn s.removed steps m = .ok dest) ∧
      ∀ s b dest, .threaded s b dest ∈ w.seen → dest ∉ s.removed := by
  have hw : fn.Loaded := Document.loaded_of_ok hbuild hfn
  have hs := sound_of_loaded hw stats
  obtain ⟨⟨⟩, w, hrun, hfine⟩ := Watched.calls_ensures (w := ⟨{ fn, stats }, [.state { fn, stats }]⟩)
    hw hcalls (Watched.fine_of_safe hs.retired.safe) hs
  have hshows := Watched.Shows.respectsChanges.forM
    (fun c : OpRef × BlockRef => Watched.simplify_shows c.1 (some c.2)) calls
    ⟨{ fn, stats }, [.state { fn, stats }]⟩
  rw [hrun] at hshows
  refine ⟨w, hrun, hshows.symm, hfine.current, fun s hseen => ?_, fun s b dest hseen => ?_,
    fun s b dest hseen => ?_⟩
  · have hsafe : Safe s := hfine.events _ hseen
    exact hsafe.sheltered
  · exact hfine.events _ hseen
  · exact hfine.events _ hseen

theorem ringAndChain_short_circuits :
    ((ringAndChain.build "f.yaml").run {}).1 = .ok [ringAndChainFunc] ∧
      ∃ w : Watched, ([(0, 0), (1, 1), (2, 2)].forM fun c => Watched.simplify c.1 (some c.2)).run
          ⟨{ fn := ringAndChainFunc, stats := {} },
            [.state { fn := ringAndChainFunc, stats := {} }]⟩ = (.ok (), w) ∧
        (∀ s, .state s ∈ w.seen → Sheltered s) ∧
        ∀ s b dest, .threaded s b dest ∈ w.seen → dest ∉ s.removed := by
  have hbuild : ((ringAndChain.build "f.yaml").run {}).1 = .ok [ringAndChainFunc] := by
    decide +kernel
  obtain ⟨w, hrun, -, -, hstates, -, hthreaded⟩ := short_circuits_leave_eliminated hbuild
    List.mem_cons_self {} [(0, 0), (1, 1), (2, 2)] (by decide)
  exact ⟨hbuild, w, hrun, hstates, hthreaded⟩

end Threading

end FlowGraph
