import Mathlib
import FlowGraph.Proofs.Consistency
import FlowGraph.Proofs.ControlFlow

/-! The exact result of a pass that rejects no phi nodes. A chain of leading jumps ends at a block
without one or runs into a ring of trampolines. In the first case every reference into the chain
is moved to its end. In the second case one block of the ring survives, with a jump to itself, and
the references are moved there; it is the same block for all chains into the ring, because its
jump can lead back to it only past eliminated blocks. -/

namespace FlowGraph

namespace Func

variable {fn : Func} {b c d s x : BlockRef}

/-- A ring never comes to a block without a leading jump. -/
theorem OnRing.landing (h : fn.OnRing b) : fn.landing b = none := by
  apply Option.eq_none_iff_forall_ne_some.mpr
  intro d hd
  obtain ⟨hleads, hjump⟩ := landing_eq_some_iff.mp hd
  have hnext : fn.next d = none := by simp [next, hjump]
  rcases Relation.ReflTransGen.cases_head (h.leads_back hleads) with rfl | ⟨y, hy, -⟩
  · obtain ⟨m, hm, -⟩ := h
    rw [hnext] at hm
    cases hm
  · rw [hnext] at hy
    cases hy

/-- The block `s` of the ring that the chain of `b` runs into is what is left of the ring in
`fn'`: it is live and jumps to itself. -/
structure Survivor (fn fn' : Func) (b s : BlockRef) : Prop where
  leads : fn.Leads b s
  ring : fn.OnRing s
  live : fn'.isLive s = true
  loop : fn'.next s = some s

end Func

namespace Threading

variable {fn₀ : Func} {t : Threading} {b c x s s' entry : BlockRef} {stats : Stats}

/-- A block that by now jumps to itself jumped into a chain of blocks that are eliminated. -/
theorem Redirected.ring (h : Redirected fn₀ t) (hn : t.fn.next s = some s)
    (hx : fn₀.Leads s x) : x = s ∨ (x ∈ t.removed ∧ fn₀.Through t.removed x s) := by
  obtain ⟨m, hm, hthrough⟩ := h.next_through hn
  have hstep : ∀ y, fn₀.Through t.removed y s → y = s ∨ (y ∈ t.removed ∧ fn₀.Through t.removed y s) := by
    intro y hy
    by_cases hys : y = s
    · exact .inl hys
    · exact .inr ⟨hy.mem_of_ne (Ne.symm hys), hy⟩
  induction hx with
  | refl => exact .inl rfl
  | tail _ hn' ih =>
    rcases ih with rfl | ⟨-, hy⟩
    · cases hm.symm.trans hn'
      exact hstep m hthrough
    · rcases Relation.ReflTransGen.cases_head hy with rfl | ⟨z, hz, hrest⟩
      · cases hm.symm.trans hn'
        exact hstep m hthrough
      · cases hn'.symm.trans hz.2
        exact hstep _ hrest

theorem Redirected.onRing (h : Redirected fn₀ t) (hn : t.fn.next s = some s) : fn₀.OnRing s := by
  obtain ⟨m, hm, hthrough⟩ := h.next_through hn
  exact ⟨m, hm, hthrough.leads⟩

/-- One block survives of a ring, whichever chain leads into it. -/
theorem Sound.survivor_unique {pending : BlockRef → BlockRef → Prop} (h : Sound fn₀ pending t)
    (hs : fn₀.Survivor t.fn b s) (hs' : fn₀.Survivor t.fn c s') (hb : fn₀.Leads b x)
    (hc : fn₀.Leads c x) : s' = s := by
  have hxs : fn₀.Leads x s := (hb.total hs.leads).elim id fun hsx => hs.ring.leads_back hsx
  have hxs' : fn₀.Leads x s' := (hc.total hs'.leads).elim id fun hsx => hs'.ring.leads_back hsx
  have hss' : fn₀.Leads s s' := (hxs.total hxs').elim id fun h => hs'.ring.leads_back h
  rcases h.redirected.ring hs.loop hss' with heq | ⟨hm, -⟩
  · exact heq
  · exact absurd hm (h.retired.not_mem_of_isLive hs'.live)

/-! ## Where references end -/

/-- The reference to `b` was moved along its chain to the settled block `c`. -/
theorem Sound.landing_of_settled {pending : BlockRef → BlockRef → Prop} (h : Sound fn₀ pending t)
    (hthrough : fn₀.Through t.removed b c) (hset : Settled t.fn c) {d : BlockRef}
    (hd : fn₀.landing b = some d) : c = d := by
  have hc : fn₀.landing c = some d := (Func.landing_of_leads hthrough.leads).trans hd
  rcases hset with hjump | hloop
  · rw [h.redirected.alike.leadingJump] at hjump
    have := Func.landing_eq_some_iff.mpr ⟨Func.Leads.refl, hjump⟩
    exact Option.some.inj (this.symm.trans hc)
  · rw [(h.redirected.onRing hloop).landing] at hc
    cases hc

theorem Sound.survivor_of_settled {pending : BlockRef → BlockRef → Prop} (h : Sound fn₀ pending t)
    (hthrough : fn₀.Through t.removed b c) (hset : Settled t.fn c) (hlt : c < t.fn.blocks.length)
    (hd : fn₀.landing b = none) : fn₀.Survivor t.fn b c := by
  have hout := hset.not_mem h.retired
  rw [← h.retired.dead] at hout
  rcases hset with hjump | hloop
  · rw [h.redirected.alike.leadingJump] at hjump
    have := Func.landing_eq_some_iff.mpr ⟨hthrough.leads, hjump⟩
    rw [hd] at this
    cases this
  · exact ⟨hthrough.leads, h.redirected.onRing hloop, Func.isLive_iff.mpr ⟨hlt, by simpa using hout⟩,
      hloop⟩

/-- Without rejections the references of a reachable block end at settled blocks. -/
theorem Passed.reachable_ends (hw : fn₀.Loaded) (h : Passed fn₀ entry stats t)
    (he : t.stats.phiRejects = stats.phiRejects) :
    ∀ b ∈ t.fn.reachable entry, ∀ o ∈ (fn₀.block b).ops, ∀ i j k x,
      fn₀.slot? o i j = some ⟨k, some x⟩ → ∃ c, t.fn.slot? o i j = some ⟨k, some c⟩ ∧
        fn₀.Through t.removed x c ∧ Settled t.fn c ∧ c < t.fn.blocks.length := by
  intro b hb o ho i j k x hslot
  obtain ⟨c, hc, hthrough⟩ := h.sound.redirected.slot_of hslot
  rw [← h.sound.redirected.alike.blockOps] at ho
  have hset := (h.reachable_settled he hb).2 c ⟨o, ho, i, j, k, hc⟩
  exact ⟨c, hc, hthrough, hset, h.sound.redirected.bound hw hc⟩

end Threading

/-- The result of a pass without rejections over a function with the given entry. -/
structure Exact (fn : Func) (entry : BlockRef) (w : Work) : Prop where
  /-- A reference into a chain that ends holds the end of the chain. -/
  landed : ∀ b ∈ w.fn.reachable entry, ∀ o ∈ (fn.block b).ops, ∀ i j k t d,
    fn.slot? o i j = some ⟨k, some t⟩ → fn.landing t = some d →
      w.fn.slot? o i j = some ⟨k, some d⟩
  /-- A reference into a chain that runs into a ring holds the survivor of the ring. -/
  ringed : ∀ b ∈ w.fn.reachable entry, ∀ o ∈ (fn.block b).ops, ∀ i j k t,
    fn.slot? o i j = some ⟨k, some t⟩ → fn.landing t = none →
      ∃ s, w.fn.slot? o i j = some ⟨k, some s⟩ ∧ fn.Survivor w.fn t s
  unique : ∀ t t' x s s', fn.Survivor w.fn t s → fn.Survivor w.fn t' s' → fn.Leads t x →
    fn.Leads t' x → s' = s
  settled : ∀ b ∈ w.fn.reachable entry, b ≠ entry → ∀ c, w.fn.next b = some c → c = b
  parents : ∀ p ∈ w.fn.reachable entry, ∀ b ∈ w.fn.reachable entry, (w.fn.block p).dead = false →
    (w.fn.block b).dead = false → (some p ∈ (w.fn.block b).parents ↔ w.fn.Refers p b)
  nodup : ∀ b, (w.fn.block b).parents.Nodup

/-- A pass without rejections, above all one over a function without phi nodes, ends every
reachable reference at the end of its chain. -/
theorem pass_exact_without_rejections {path : Text} {d : Document} {st : Stats}
    {fns : List Func} {fn : Func} (hbuild : ((d.build path).run st).1 = .ok fns) (hfn : fn ∈ fns)
    (stats : Stats) : ∃ entry w, fn.entry = some entry ∧
      threadJumps.run ⟨fn, stats⟩ = (.ok (), w) ∧
      ((∀ b, (fn.block b).phis = []) → w.stats.phiRejects = stats.phiRejects) ∧
      (w.stats.phiRejects = stats.phiRejects → Exact fn entry w) := by
  have hw : fn.Loaded := Document.loaded_of_ok hbuild hfn
  obtain ⟨entry, hentry, -⟩ := hw.entry
  obtain ⟨t, hrun, hpassed⟩ := Threading.threadJumps_passed hw hentry stats
  have hsound := hpassed.sound
  refine ⟨entry, t.toWork, hentry, hrun, hpassed.evolves.accepts, fun he => ?_⟩
  have hends := hpassed.reachable_ends hw he
  refine ⟨?_, ?_, ?_, ?_, ?_, hsound.linked.nodup⟩
  · intro b hb o ho i j k x d hslot hd
    obtain ⟨c, hc, hthrough, hset, -⟩ := hends b hb o ho i j k x hslot
    rw [hc, hsound.landing_of_settled hthrough hset hd]
  · intro b hb o ho i j k x hslot hd
    obtain ⟨c, hc, hthrough, hset, hlt⟩ := hends b hb o ho i j k x hslot
    exact ⟨c, hc, hsound.survivor_of_settled hthrough hset hlt hd⟩
  · intro x x' y s s' hs hs' hx hx'
    exact hsound.survivor_unique hs hs' hx hx'
  · intro b hb hne c hn
    rcases (hpassed.reachable_settled he hb).1.resolve_left hne with hjump | hloop
    · have hsome := Func.isSome_leadingJump_of_next hn
      rw [hjump] at hsome
      cases hsome
    · exact Option.some.inj (hn.symm.trans hloop)
  · intro p _ b _ hp hb
    have hout : ∀ x, (t.fn.block x).dead = false → x ∉ t.removed := by
      intro x hx
      rw [← hsound.retired.dead, hx]
      simp
    exact ⟨fun hm => (hsound.linked.edge p b (hout p hp) (hout b hb) hm).resolve_right id,
      hsound.linked.parent p b (hout p hp)⟩

theorem ringAndChain_exact :
    ((ringAndChain.build "f.yaml").run {}).1 = .ok [ringAndChainFunc] ∧
      ∃ entry w, threadJumps.run ⟨ringAndChainFunc, {}⟩ = (.ok (), w) ∧
        w.stats.phiRejects = 0 ∧ Exact ringAndChainFunc entry w := by
  have hbuild : ((ringAndChain.build "f.yaml").run {}).1 = .ok [ringAndChainFunc] := by
    decide +kernel
  have hrejects : (threadJumps.run ⟨ringAndChainFunc, {}⟩).2.stats.phiRejects = 0 := by cbv
  obtain ⟨entry, w, -, hrun, -, hexact⟩ :=
    pass_exact_without_rejections hbuild List.mem_cons_self {}
  rw [hrun] at hrejects
  exact ⟨hbuild, entry, w, hrun, hrejects, hexact hrejects⟩

end FlowGraph
