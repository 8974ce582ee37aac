import Mathlib
import FlowGraph.Proofs.Threading.Pass

/-! Control flow before and after a pass. A run through a function enters a block, follows leading
jumps to the first block without one, and goes on at a reference of that block. References may
move along leading jumps, but always to a block downstream, so runs meet the same blocks. -/

namespace FlowGraph

namespace Func

variable {fn : Func} {b c d : BlockRef} {steps k : Nat}

/-! ## Where leading jumps end -/

/-- Follows leading jumps to a block without one, over at most `steps` blocks. -/
def land (fn : Func) : (steps : Nat) → BlockRef → Option BlockRef
  | 0, _ => none
  | steps + 1, b =>
    match fn.leadingJump b with
    | none => some b
    | some _ => (fn.next b).bind (fn.land steps)

/-- The first block without a leading jump. There is none if the jumps go round in a cycle. -/
def landing (fn : Func) (b : BlockRef) : Option BlockRef := fn.land (fn.blocks.length + 1) b

/-- The blocks that start with a jump. -/
def trampolines (fn : Func) : List BlockRef :=
  (List.range fn.blocks.length).filter fun b => (fn.leadingJump b).isSome

theorem mem_trampolines : b ∈ fn.trampolines ↔ (fn.leadingJump b).isSome := by
  rw [trampolines, List.mem_filter, List.mem_range]
  refine ⟨(·.2), fun h => ⟨?_, h⟩⟩
  obtain ⟨o, ho⟩ := Option.isSome_iff_exists.mp h
  exact lt_of_leadingJump ho

theorem mem_trampolines_of_next (hn : fn.next b = some c) : b ∈ fn.trampolines :=
  mem_trampolines.mpr (isSome_leadingJump_of_next hn)

theorem not_mem_trampolines : b ∉ fn.trampolines ↔ fn.leadingJump b = none := by
  rw [mem_trampolines, Option.not_isSome_iff_eq_none]

theorem land_sound (h : fn.land steps b = some d) : fn.Leads b d ∧ fn.leadingJump d = none := by
  induction steps generalizing b with
  | zero => cases h
  | succ steps ih =>
    cases hj : fn.leadingJump b with
    | none =>
      simp only [land, hj, Option.some.injEq] at h
      exact h ▸ ⟨.refl, hj⟩
    | some o =>
      simp only [land, hj] at h
      obtain ⟨c, hn, hc⟩ := Option.bind_eq_some_iff.mp h
      obtain ⟨hleads, hd⟩ := ih hc
      exact ⟨.head hn hleads, hd⟩

theorem land_of_exitsIn (h : fn.ExitsIn fn.trampolines k b d) (hk : k < steps) :
    fn.land steps b = some d := by
  induction h generalizing steps with
  | out hd =>
    cases steps with
    | zero => omega
    | succ steps => simp [land, not_mem_trampolines.mp hd]
  | step hb hn _ ih =>
    cases steps with
    | zero => omega
    | succ steps =>
      obtain ⟨o, ho⟩ := Option.isSome_iff_exists.mp (mem_trampolines.mp hb)
      simp only [land, ho, hn, Option.bind_some]
      exact ih (by omega)

theorem Leads.exitsIn (h : fn.Leads b d) (hd : fn.leadingJump d = none) :
    ∃ k, fn.ExitsIn fn.trampolines k b d := by
  induction h using Relation.ReflTransGen.head_induction_on with
  | refl => exact ⟨0, .out (not_mem_trampolines.mpr hd)⟩
  | head hn _ ih =>
    obtain ⟨k, hk⟩ := ih
    exact ⟨k + 1, .step (mem_trampolines_of_next hn) hn hk⟩

/-- The bound of the walk is never what ends it. -/
theorem landing_eq_some_iff : fn.landing b = some d ↔ fn.Leads b d ∧ fn.leadingJump d = none := by
  refine ⟨land_sound, fun ⟨hleads, hd⟩ => ?_⟩
  obtain ⟨k, hk⟩ := hleads.exitsIn hd
  have hlength : fn.trampolines.length ≤ fn.blocks.length := by
    rw [trampolines]
    simpa using List.length_filter_le _ (List.range fn.blocks.length)
  exact land_of_exitsIn hk (by have := hk.le_length; omega)

/-- A block downstream on a chain that ends is closer to the end. -/
theorem ExitsIn.of_leads (h : fn.ExitsIn fn.trampolines k b d) (hc : fn.Leads b c) :
    ∃ m ≤ k, fn.ExitsIn fn.trampolines m c d := by
  induction hc using Relation.ReflTransGen.head_induction_on generalizing k with
  | refl => exact ⟨k, Nat.le_refl k, h⟩
  | head hn _ ih =>
    cases h with
    | out hd => exact absurd (mem_trampolines_of_next hn) hd
    | step _ hn' htail =>
      cases hn.symm.trans hn'
      obtain ⟨m, hm, hexits⟩ := ih htail
      exact ⟨m, Nat.le_succ_of_le hm, hexits⟩

theorem landing_of_leads (h : fn.Leads b c) : fn.landing c = fn.landing b := by
  apply Option.ext
  intro d
  rw [landing_eq_some_iff, landing_eq_some_iff]
  constructor
  · rintro ⟨hleads, hd⟩
    exact ⟨h.trans hleads, hd⟩
  · rintro ⟨hleads, hd⟩
    obtain ⟨k, hk⟩ := hleads.exitsIn hd
    obtain ⟨m, -, hm⟩ := hk.of_leads h
    exact ⟨hm.through.leads, hd⟩

/-! ## Runs -/

/-- A choice of a reference: the place of the operation in its block, the number of the attribute
and the place of the reference in it. -/
structure Choice where
  op : Nat
  slot : Nat
  place : Nat
deriving DecidableEq, Repr

def choose (fn : Func) (b : BlockRef) (c : Choice) : Option BlockRef :=
  (fn.block b).ops[c.op]?.bind fun o => (fn.slot? o c.slot c.place).bind Target.block

/-- The blocks without a leading jump that a run meets which starts at the given block and makes
the given choices, as far as it gets. -/
def trace (fn : Func) : List Choice → Option BlockRef → List BlockRef
  | [], start => (start.bind fn.landing).toList
  | c :: choices, start =>
    match start.bind fn.landing with
    | none => []
    | some d => d :: fn.trace choices (fn.choose d c)

/-- References under one key that control flow cannot tell apart. -/
def SameLanding (fn fn' : Func) (x y : Target) : Prop :=
  y.key = x.key ∧ Option.Rel (fun b c => fn'.landing c = fn.landing b) x.block y.block

end Func

namespace Threading

variable {fn₀ : Func} {s : Threading} {b c d : BlockRef}

namespace Redirected

theorem leads (h : Redirected fn₀ s) (hb : s.fn.Leads b c) : fn₀.Leads b c := by
  induction hb with
  | refl => exact .refl
  | tail _ hn ih =>
    obtain ⟨m, hm, hthrough⟩ := h.next_through hn
    exact ih.trans (.head hm hthrough.leads)

/-- Each jump leads strictly downstream on the chain that it was on, so the chain still ends
where it ended. -/
theorem leads_of_exitsIn (hw : fn₀.Loaded) (h : Redirected fn₀ s) {k : Nat}
    (hk : fn₀.ExitsIn fn₀.trampolines k b d) : s.fn.Leads b d := by
  induction k using Nat.strongRecOn generalizing b with
  | ind k ih =>
    cases hk with
    | out => exact .refl
    | @step _ m _ k hb hn htail =>
      have hjump : (s.fn.leadingJump b).isSome := by
        rw [h.alike.leadingJump]
        exact Func.mem_trampolines.mp hb
      obtain ⟨c, hc⟩ := h.next_isSome hw hjump
      obtain ⟨m', hm', hthrough⟩ := h.next_through hc
      cases hn.symm.trans hm'
      obtain ⟨k', hk', hexits⟩ := htail.of_leads hthrough.leads
      exact .head hc (ih k' (by omega) hexits)

theorem landing (hw : fn₀.Loaded) (h : Redirected fn₀ s) (b : BlockRef) :
    s.fn.landing b = fn₀.landing b := by
  apply Option.ext
  intro d
  rw [Func.landing_eq_some_iff, Func.landing_eq_some_iff, h.alike.leadingJump]
  constructor
  · rintro ⟨hleads, hd⟩
    exact ⟨h.leads hleads, hd⟩
  · rintro ⟨hleads, hd⟩
    obtain ⟨k, hk⟩ := hleads.exitsIn hd
    exact ⟨h.leads_of_exitsIn hw hk, hd⟩

theorem sameLanding (hw : fn₀.Loaded) (h : Redirected fn₀ s) (o : OpRef) (i j : Nat) :
    Option.Rel (fn₀.SameLanding s.fn) (fn₀.slot? o i j) (s.fn.slot? o i j) := by
  have moved : ∀ x y : Option BlockRef, Option.Rel (fn₀.Through s.removed) x y →
      Option.Rel (fun b c => s.fn.landing c = fn₀.landing b) x y := by
    intro x y hxy
    cases hxy with
    | none => exact .none
    | some hthrough => exact .some ((h.landing hw _).trans (Func.landing_of_leads hthrough.leads))
  have hrel := h.slots o i j
  generalize fn₀.slot? o i j = x at hrel
  generalize s.fn.slot? o i j = y at hrel
  cases hrel with
  | none => exact .none
  | some hm => exact .some ⟨hm.1, moved _ _ hm.2⟩

end Redirected

end Threading

/-! ## Runs meet the same blocks -/

namespace Func

variable {fn fn' : Func}

theorem landing_choose (hops : ∀ b, (fn'.block b).ops = (fn.block b).ops)
    (hslots : ∀ o i j, Option.Rel (fn.SameLanding fn') (fn.slot? o i j) (fn'.slot? o i j))
    (b : BlockRef) (c : Choice) :
    (fn'.choose b c).bind fn'.landing = (fn.choose b c).bind fn.landing := by
  simp only [choose, hops]
  cases (fn.block b).ops[c.op]? with
  | none => rfl
  | some o =>
    simp only [Option.bind_some]
    have hrel := hslots o c.slot c.place
    generalize fn.slot? o c.slot c.place = x at hrel
    generalize fn'.slot? o c.slot c.place = y at hrel
    cases hrel with
    | none => rfl
    | @some x y hxy =>
      obtain ⟨kx, bx⟩ := x
      obtain ⟨ky, by'⟩ := y
      obtain ⟨-, hblock⟩ := hxy
      cases hblock with
      | none => rfl
      | some hland => exact hland

theorem trace_eq (hops : ∀ b, (fn'.block b).ops = (fn.block b).ops)
    (hslots : ∀ o i j, Option.Rel (fn.SameLanding fn') (fn.slot? o i j) (fn'.slot? o i j))
    (choices : List Choice) : ∀ start start' : Option BlockRef,
      start'.bind fn'.landing = start.bind fn.landing →
      fn'.trace choices start' = fn.trace choices start := by
  induction choices with
  | nil =>
    intro start start' h
    rw [trace, trace, h]
  | cons c choices ih =>
    intro start start' h
    rw [trace, trace, h]
    cases start.bind fn.landing with
    | none => rfl
    | some d => exact congrArg (d :: ·) (ih _ _ (landing_choose hops hslots d c))

end Func

/-- A pass moves every reference along leading jumps only, and every run through the function
meets the same blocks as before. -/
theorem pass_preserves_control_flow {path : Text} {d : Document} {st : Stats}
    {fns : List Func} {fn : Func} (hbuild : ((d.build path).run st).1 = .ok fns) (hfn : fn ∈ fns)
    (stats : Stats) : ∃ w, threadJumps.run ⟨fn, stats⟩ = (.ok (), w) ∧
      (∀ b, (w.fn.block b).ops = (fn.block b).ops ∧ w.fn.landing b = fn.landing b ∧
        ∀ o ∈ (fn.block b).ops, ∀ i j,
          Option.Rel (fn.SameLanding w.fn) (fn.slot? o i j) (w.fn.slot? o i j)) ∧
      ∀ choices, w.fn.trace choices w.fn.entry = fn.trace choices fn.entry := by
  have hw : fn.Loaded := Document.loaded_of_ok hbuild hfn
  obtain ⟨entry, hentry, -⟩ := hw.entry
  obtain ⟨t, hrun, hpassed⟩ := Threading.threadJumps_passed hw hentry stats
  have hred := hpassed.sound.redirected
  have hslots := hred.sameLanding hw
  refine ⟨t.toWork, hrun, fun b => ⟨hred.alike.blockOps b, hred.landing hw b, ?_⟩, fun choices => ?_⟩
  · intro o _ i j
    exact hslots o i j
  · refine Func.trace_eq hred.alike.blockOps hslots choices _ _ ?_
    rw [hred.alike.entry, hentry]
    exact hred.landing hw entry

/-- Two trampolines that lead to each other, and one with a phi node that can be merged. -/
def ringAndChain : Document where
  functions := [{
    name := "f"
    blocks := [
      { label := "e", ops := [{ kind := "jumpif", cond := "p", onTrue := "a", onFalse := "c" }] },
      { label := "a", ops := [{ kind := "jump", target := "b" }] },
      { label := "b", ops := [{ kind := "jump", target := "a" }] },
      { label := "c", phis := [{ result := "r" }], ops := [{ kind := "jump", target := "d" }] },
      { label := "d", phis := [{ result := "t", operands := ["r"] }],
        ops := [{ kind := "return", value := "t" }] }] }]

def ringAndChainFunc : Func where
  name := "f"
  entry := some 0
  blocks := [
    { id := 1, ops := [0] },
    { id := 2, ops := [1], parents := [some 0, some 2] },
    { id := 3, ops := [2], parents := [some 1] },
    { id := 4, ops := [3], phis := [0], parents := [some 0] },
    { id := 5, ops := [4], phis := [1], parents := [some 3] }]
  ops := [.branch (some 0) (some 1) (some 3), .jump (some 2), .jump (some 1), .jump (some 4),
    .ret (some 2)]
  phis := [⟨some 1, []⟩, ⟨some 2, [some 1]⟩]
  values := ["p", "r", "t"]

theorem ringAndChain_control_flow :
    ((ringAndChain.build "f.yaml").run {}).1 = .ok [ringAndChainFunc] ∧
      ∃ w, threadJumps.run ⟨ringAndChainFunc, {}⟩ = (.ok (), w) ∧
        (∀ b, (w.fn.block b).ops = (ringAndChainFunc.block b).ops ∧
          w.fn.landing b = ringAndChainFunc.landing b ∧
          ∀ o ∈ (ringAndChainFunc.block b).ops, ∀ i j,
            Option.Rel (ringAndChainFunc.SameLanding w.fn) (ringAndChainFunc.slot? o i j)
              (w.fn.slot? o i j)) ∧
        ∀ choices, w.fn.trace choices w.fn.entry =
          ringAndChainFunc.trace choices ringAndChainFunc.entry := by
  have hbuild : ((ringAndChain.build "f.yaml").run {}).1 = .ok [ringAndChainFunc] := by
    decide +kernel
  exact ⟨hbuild, pass_preserves_control_flow hbuild List.mem_cons_self {}⟩

end FlowGraph
