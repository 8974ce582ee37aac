import Mathlib
import FlowGraph.Proofs.Threading.Invariant
import FlowGraph.Proofs.Threading.Watch

/-! What becomes of a reference to a trampoline once the jump of the trampoline is threaded: it
stays, or the trampoline is eliminated and the reference goes to where the jump leads. Each of
the two is described once, so that nothing later opens the actions again. -/

namespace FlowGraph

namespace Threading

variable {fn₀ : Func} {s t : Threading} {b c d dest bb : BlockRef} {jmp : OpRef}

/-! ## Merging phi nodes -/

theorem mergeInto_eq (fn : Func) (p consumer : PhiRef) :
    ∃ phis, mergeInto fn p consumer = { fn with phis } := ⟨_, rfl⟩

/-- A merge changes phi nodes only, and clears those of the trampoline. -/
theorem mergePhis_eq_some {fn fn' : Func} (h : mergePhis fn b dest = some fn') :
    ∃ phis, fn' = ({ fn with phis } : Func).modifyBlock b fun bb => { bb with phis := [] } := by
  have merged : ∀ (ps : List (PhiRef × PhiRef)) (fn : Func),
      ∃ phis, ps.foldl (fun fn pc => mergeInto fn pc.1 pc.2) fn = { fn with phis } := by
    intro ps
    induction ps with
    | nil => intro fn; exact ⟨fn.phis, rfl⟩
    | cons p ps ih =>
      intro fn
      obtain ⟨phis, hp⟩ := mergeInto_eq fn p.1 p.2
      obtain ⟨phis', hps⟩ := ih { fn with phis }
      exact ⟨phis', by rw [List.foldl_cons, hp, hps]⟩
  unfold mergePhis at h
  obtain ⟨consumers, -, h⟩ := Option.bind_eq_some_iff.mp h
  obtain ⟨phis, hphis⟩ := merged (((fn.block b).phis).zip consumers) fn
  cases h
  exact ⟨phis, by rw [hphis]⟩

/-- The phi nodes of `b` were merged into others, so that `b` has none any more. -/
structure Merged (b : BlockRef) (fn fn' : Func) : Prop where
  alike : fn.Alike fn'
  op : ∀ o, fn'.op o = fn.op o
  dead : ∀ c, (fn'.block c).dead = (fn.block c).dead
  phis : ∀ c, (fn'.block c).phis = if c = b then [] else (fn.block c).phis
  parents : ∀ c, (fn'.block c).parents = (fn.block c).parents

theorem mergePhis_merged {fn fn' : Func} (h : mergePhis fn b dest = some fn')
    (hb : b < fn.blocks.length) : Merged b fn fn' := by
  obtain ⟨phis, rfl⟩ := mergePhis_eq_some h
  have halike : fn.Alike { fn with phis } :=
    ⟨rfl, rfl, rfl, rfl, fun _ => rfl, fun _ => rfl, fun _ => rfl⟩
  have hblock := Func.block_modifyBlock_of_lt { fn with phis } hb
    fun bb => { bb with phis := [] }
  refine ⟨halike.trans (.modifyBlock (f := fun bb => { bb with phis := [] }) (fun _ => rfl)
    (fun _ => rfl) _ b), fun _ => rfl, ?_, ?_, ?_⟩
  all_goals
    intro c
    rw [hblock]
    split
    · rename_i hc; subst hc; rfl
    · rfl

/-- Without phi nodes there is nothing to reject. -/
theorem mergePhis_eq_none {fn : Func} (h : mergePhis fn b dest = none) :
    (fn.block b).phis ≠ [] := by
  intro hn
  simp [mergePhis, hn] at h

/-! ## The two ways out of a trampoline -/

/-- The edge to the trampoline stays and only counters move: the trampoline jumps to itself, or
its phi nodes are rejected. -/
structure Stays (b dest : BlockRef) (s t : Threading) : Prop where
  fn : t.fn = s.fn
  removed : t.removed = s.removed
  cause : (dest = b ∧ t.stats.phiRejects = s.stats.phiRejects) ∨
    (t.stats.phiRejects = s.stats.phiRejects + 1 ∧ (s.fn.block b).phis ≠ [])

/-- The block `b` carries the mark of an eliminated block. -/
structure Marked (b : BlockRef) (fn fn' : Func) : Prop where
  alike : fn.Alike fn'
  op : ∀ o, fn'.op o = fn.op o
  dead : ∀ c, (fn'.block c).dead = true ↔ (fn.block c).dead = true ∨ c = b
  phis : ∀ c, (fn'.block c).phis = (fn.block c).phis
  parents : ∀ c, (fn'.block c).parents = (fn.block c).parents

theorem marked_refl {fn : Func} (h : (fn.block b).dead = true) : Marked b fn fn :=
  ⟨.refl _, fun _ => rfl, fun _ => ⟨.inl, fun hc => hc.elim id (· ▸ h)⟩, fun _ => rfl, fun _ => rfl⟩

theorem modifyBlock_marked {fn : Func} (hb : b < fn.blocks.length) :
    Marked b fn (fn.modifyBlock b fun bb => { bb with dead := true }) := by
  have hblock := Func.block_modifyBlock_of_lt fn hb fun bb => { bb with dead := true }
  refine ⟨.modifyBlock (f := fun bb => { bb with dead := true }) (fun _ => rfl) (fun _ => rfl) _ _,
    fun _ => rfl, ?_, ?_, ?_⟩
  all_goals
    intro c
    rw [hblock]
    split
    · rename_i hc; subst hc; simp
    · rename_i hc; simp [hc]

/-- The block `b` is marked and listed as eliminated, unless it was before. -/
structure Eliminates (b : BlockRef) (s t : Threading) : Prop where
  marked : Marked b s.fn t.fn
  removed : ∀ c, c ∈ t.removed ↔ c ∈ s.removed ∨ c = b
  rejects : t.stats.phiRejects = s.stats.phiRejects

/-- Parents move last, after the trampoline `b` was cleared in `u` and eliminated in `v`. -/
theorem retires_of_eliminates {u v : Threading} (hd : d < s.fn.blocks.length)
    (hnodup : ∀ c, (s.fn.block c).parents.Nodup) (hmerged : Merged b s.fn u.fn)
    (hremoved : u.removed = s.removed) (hrejects : u.stats.phiRejects = s.stats.phiRejects)
    (he : Eliminates b u v)
    (ht : t = { v with fn := (v.fn.removeParent d (some b)).addParent d (some bb) }) :
    Retires [b] d bb s t := by
  subst ht
  have hmarked := he.marked
  have hparents : ∀ c, (v.fn.block c).parents = (s.fn.block c).parents :=
    fun c => (hmarked.parents c).trans (hmerged.parents c)
  have hnodup' : ∀ c, (v.fn.block c).parents.Nodup := fun c => hparents c ▸ hnodup c
  have halike : s.fn.Alike v.fn := hmerged.alike.trans hmarked.alike
  have hd' : d < v.fn.blocks.length := halike.blocks ▸ hd
  have halike' := Func.alike_removeParent v.fn d (some b)
  refine ⟨?_, ?_, he.rejects.trans hrejects, ?_, ?_, ?_, ?_, ?_⟩
  · exact (halike.trans halike').trans (Func.alike_addParent _ _ _)
  · intro o
    exact (hmarked.op o).trans (hmerged.op o)
  · intro c
    rw [he.removed, hremoved]
    simp
  · intro c
    rw [Func.dead_addParent, Func.dead_removeParent, hmarked.dead, hmerged.dead]
    simp
  · intro c
    rw [Func.phis_addParent, Func.phis_removeParent, hmarked.phis, hmerged.phis]
    simp
  · intro c
    exact Func.nodup_addParent (Func.nodup_removeParent (hnodup' c))
  · intro c q
    rw [Func.mem_addParent (halike'.blocks ▸ hd'), Func.mem_removeParent hd' (hnodup' d), hparents]
    simp

/-- A reference to an eliminated block goes to `dest`, which gains a parent. -/
theorem retires_of_shortCircuit (hd : d < s.fn.blocks.length)
    (hnodup : ∀ c, (s.fn.block c).parents.Nodup) (hfn : t.fn = s.fn.addParent d (some bb))
    (hremoved : t.removed = s.removed) (hrejects : t.stats.phiRejects = s.stats.phiRejects) :
    Retires [] d bb s t := by
  refine ⟨?_, ?_, hrejects, by simp [hremoved], ?_, ?_, ?_, ?_⟩
  · rw [hfn]
    exact Func.alike_addParent _ _ _
  · intro o
    rw [hfn]
    rfl
  · intro c
    rw [hfn, Func.dead_addParent]
    simp
  · intro c
    rw [hfn, Func.phis_addParent]
    simp
  · intro c
    rw [hfn]
    exact Func.nodup_addParent (hnodup c)
  · intro c q
    rw [hfn, Func.mem_addParent hd]
    simp

/-! ## What the watcher sees -/

/-- What holds of the eliminated blocks at every moment. A block is marked shortly before it is
listed, so marked blocks are spoken of as well. -/
structure Safe (s : Threading) : Prop where
  dead : ∀ b ∈ s.removed, (s.fn.block b).dead = true
  jump : ∀ b ∈ s.removed, (s.fn.leadingJump b).isSome
  phis : ∀ b ∈ s.removed, (s.fn.block b).phis = []
  exits : ∀ b ∈ s.removed, ∃ d, s.fn.Through s.removed b d ∧ d ∉ s.removed
  live : ∀ b, (s.fn.block b).dead = true →
    ∃ d, s.fn.Leads b d ∧ (s.fn.block d).dead = false

theorem Retired.safe (h : Retired s) : Safe s where
  dead b hb := (h.dead b).mpr hb
  jump := h.jump
  phis := h.phis
  exits := h.exits
  live b hb := by
    obtain ⟨d, hthrough, hd⟩ := h.exits b ((h.dead b).mp hb)
    exact ⟨d, hthrough.leads, by simpa using mt (h.dead d).mp hd⟩

theorem Safe.of_same (h : Safe s) (hremoved : t.removed = s.removed) (ha : s.fn.Alike t.fn)
    (hop : ∀ o, t.fn.op o = s.fn.op o)
    (hdead : ∀ c, (t.fn.block c).dead = (s.fn.block c).dead)
    (hphis : ∀ c, (t.fn.block c).phis = [] ∨ (t.fn.block c).phis = (s.fn.block c).phis) :
    Safe t := by
  refine ⟨?_, ?_, ?_, ?_, ?_⟩
  · intro b hb
    rw [hdead]
    exact h.dead b (hremoved ▸ hb)
  · intro b hb
    rw [ha.leadingJump]
    exact h.jump b (hremoved ▸ hb)
  · intro b hb
    exact (hphis b).elim id (·.trans (h.phis b (hremoved ▸ hb)))
  · intro b hb
    rw [hremoved] at hb ⊢
    obtain ⟨d, hthrough, hd⟩ := h.exits b hb
    exact ⟨d, hthrough.congr (ha.next hop), hd⟩
  · intro b hb
    rw [hdead] at hb
    obtain ⟨d, hleads, hd⟩ := h.live b hb
    exact ⟨d, hleads.congr (ha.next hop), (hdead d).trans hd⟩

theorem Safe.count (h : Safe s) (stats : Stats) : Safe { s with stats } :=
  ⟨h.dead, h.jump, h.phis, h.exits, h.live⟩

/-- A trampoline that leads to `d` is marked. -/
theorem Safe.mark (h : Safe s) (hlisted : ∀ c, (s.fn.block c).dead = true → c ∈ s.removed)
    (hremoved : t.removed = s.removed) (hm : Marked b s.fn t.fn)
    (hn : s.fn.next b = some d) (hd : d ∉ s.removed) (hne : d ≠ b) : Safe t := by
  have hnext := hm.alike.next hm.op
  have hlive : ∀ c, c ∉ s.removed → c ≠ b → (t.fn.block c).dead = false := by
    intro c hc hcb
    have hnot : ¬(t.fn.block c).dead = true := fun hc' =>
      ((hm.dead c).mp hc').elim (fun hc' => hc (hlisted c hc')) hcb
    simpa using hnot
  refine ⟨?_, ?_, ?_, ?_, ?_⟩
  · intro c hc
    exact (hm.dead c).mpr (.inl (h.dead c (hremoved ▸ hc)))
  · intro c hc
    rw [hm.alike.leadingJump]
    exact h.jump c (hremoved ▸ hc)
  · intro c hc
    rw [hm.phis]
    exact h.phis c (hremoved ▸ hc)
  · intro c hc
    rw [hremoved] at hc ⊢
    obtain ⟨e, hthrough, he⟩ := h.exits c hc
    exact ⟨e, hthrough.congr hnext, he⟩
  · intro c hc
    have hstep : t.fn.Leads b d := .head ((hnext b).trans hn) .refl
    rcases (hm.dead c).mp hc with hc | rfl
    · obtain ⟨e, hthrough, he⟩ := h.exits c (hlisted c hc)
      have hleads : t.fn.Leads c e := (hthrough.congr hnext).leads
      by_cases heb : e = b
      · subst heb
        exact ⟨d, hleads.trans hstep, hlive d hd hne⟩
      · exact ⟨e, hleads, hlive e he heb⟩
    · exact ⟨d, hstep, hlive d hd hne⟩

/-- A marked trampoline without phi nodes that leads to `d` joins the eliminated blocks. -/
theorem Safe.eliminate (h : Safe s) (hfn : t.fn = s.fn) (hremoved : t.removed = s.removed ++ [b])
    (hdead : (s.fn.block b).dead = true) (hphis : (s.fn.block b).phis = [])
    (hn : s.fn.next b = some d) (hd : d ∉ s.removed) (hne : d ≠ b) : Safe t := by
  have hl : ∀ c, c ∈ t.removed ↔ c ∈ s.removed ∨ c ∈ [b] := by simp [hremoved]
  have hcases : ∀ c ∈ t.removed, c ∈ s.removed ∨ c = b := fun c hc => by simpa using (hl c).mp hc
  have hexits := Func.exits_of_grown hl (by simpa using hn) (by simp [hl, hd, hne]) h.exits
  refine ⟨?_, ?_, ?_, by rw [hfn]; exact hexits, by rw [hfn]; exact h.live⟩
  · intro c hc
    rw [hfn]
    rcases hcases c hc with hm | rfl
    · exact h.dead c hm
    · exact hdead
  · intro c hc
    rw [hfn]
    rcases hcases c hc with hm | rfl
    · exact h.jump c hm
    · exact Func.isSome_leadingJump_of_next hn
  · intro c hc
    rw [hfn]
    rcases hcases c hc with hm | rfl
    · exact h.phis c hm
    · exact hphis

/-- The walk over eliminated blocks that starts at one of them ends at a block that is not. -/
theorem Safe.resolves (h : Safe s) (hb : b ∈ s.removed) : ∃ jmp m c,
    s.fn.leadingJump b = some jmp ∧ s.fn.next b = some m ∧ target s.fn b jmp = .ok m ∧
      s.fn.Through s.removed m c ∧ c ∉ s.removed := by
  obtain ⟨c, hthrough, hc⟩ := h.exits b hb
  rcases Relation.ReflTransGen.cases_head hthrough with rfl | ⟨m, hv, hrest⟩
  · exact absurd hb hc
  · obtain ⟨jmp, hjmp, htarget⟩ := target_of_next hv.2
    exact ⟨jmp, m, c, hjmp, hv.2, htarget, hrest, hc⟩

/-- What is to hold of an event. A short cut ends at a block that is not eliminated, and with
any larger number of steps it would end there as well. -/
def Event.Fine : Event → Prop
  | .state s => Safe s
  | .resolved s b dest => dest ∉ s.removed ∧ ∀ c, s.fn.next b = some c →
      ∀ n, s.removed.length ≤ n → resolveFrom s.fn s.removed n c = .ok dest
  | .threaded s _ dest => dest ∉ s.removed

/-- All events are as they should be, and the state that is current was seen. -/
structure Watched.Fine (w : Watched) : Prop where
  events : ∀ e ∈ w.seen, e.Fine
  current : .state w.state ∈ w.seen

namespace Watched

theorem Fine.append {w : Watched} (h : w.Fine) {e : Event} (he : e.Fine) :
    ∀ e' ∈ w.seen ++ [e], e'.Fine := by
  intro e' he'
  rcases List.mem_append.mp he' with he' | he'
  · exact h.events e' he'
  · cases List.mem_singleton.mp he'
    exact he

theorem fine_of_safe (h : Safe s) : Fine ⟨s, [.state s]⟩ := by
  refine ⟨fun e he => ?_, List.mem_cons_self⟩
  cases List.mem_singleton.mp he
  exact h

theorem change_ensures {w : Watched} {f : Threading → Threading} {Q : Unit → Watched → Prop}
    (hfine : w.Fine) (hs : Safe (f w.state))
    (h : ∀ w' : Watched, w'.Fine → w'.state = f w.state → Q () w') :
    Ensures (modify f : M Unit) w Q :=
  ⟨(), _, rfl, h _ ⟨hfine.append hs, by simp⟩ rfl⟩

theorem count_ensures {w : Watched} {f : Stats → Stats} {Q : Unit → Watched → Prop}
    (hfine : w.Fine) (hs : Safe w.state)
    (h : ∀ w' : Watched, w'.Fine → w'.state = { w.state with stats := f w.state.stats } → Q () w') :
    Ensures (count f : M Unit) w Q :=
  change_ensures hfine (hs.count _) h

theorem note_ensures {w : Watched} {e : Threading → Event} {Q : Unit → Watched → Prop}
    (hfine : w.Fine) (he : (e w.state).Fine)
    (h : ∀ w' : Watched, w'.Fine → w'.state = w.state → Q () w') :
    Ensures (note e) w Q :=
  .modify (h _ ⟨hfine.append he, List.mem_append_left _ hfine.current⟩ rfl)

theorem get_ensures {w : Watched} {Q : Threading → Watched → Prop} (h : Q w.state w) :
    Ensures (getThe Threading) w Q := ⟨_, _, rfl, h⟩

theorem eliminate_ensures {w : Watched} (hfine : w.Fine) (hs : Safe w.state)
    (hlisted : ∀ c, (w.state.fn.block c).dead = true → c ∈ w.state.removed)
    (hphis : (w.state.fn.block b).phis = []) (hn : w.state.fn.next b = some d)
    (hd : d ∉ w.state.removed) (hne : d ≠ b) :
    Ensures (eliminate b) w fun _ w' => w'.Fine ∧ Safe w'.state ∧
      Eliminates b w.state w'.state := by
  refine .bind (get_ensures ?_)
  split
  · rename_i hb
    exact .pure ⟨hfine, hs, marked_refl (hs.dead b hb),
      fun c => ⟨.inl, fun hc => hc.elim id (· ▸ hb)⟩, rfl⟩
  · obtain ⟨jmp, hjmp⟩ := Option.isSome_iff_exists.mp (Func.isSome_leadingJump_of_next hn)
    have hm := modifyBlock_marked (Func.lt_of_leadingJump hjmp)
    have hs₁ : Safe { w.state with
        fn := w.state.fn.modifyBlock b fun bb => { bb with dead := true } } :=
      hs.mark hlisted rfl hm hn hd hne
    refine .bind (change_ensures hfine hs₁ fun w₁ hfine₁ h₁ => ?_)
    have hs₂ : Safe { w₁.state with removed := w₁.state.removed ++ [b] } := by
      rw [h₁]
      exact hs₁.eliminate rfl rfl ((hm.dead b).mpr (.inr rfl)) ((hm.phis b).trans hphis)
        ((hm.alike.next hm.op b).trans hn) hd hne
    refine .bind (change_ensures hfine₁ hs₂ fun w₂ hfine₂ h₂ => ?_)
    refine count_ensures hfine₂ (h₂ ▸ hs₂) fun w₃ hfine₃ h₃ => ⟨hfine₃, ?_, ?_⟩
    · rw [h₃, h₂]
      exact hs₂.count _
    · rw [h₃, h₂, h₁]
      exact ⟨hm, by simp, rfl⟩

/-- A trampoline is passed over only for the block that it leads to, and stays only if it leads
to itself or has phi nodes. -/
theorem bypass_ensures {w : Watched} (hfine : w.Fine) (hr : Retired w.state)
    (hnodup : ∀ c, (w.state.fn.block c).parents.Nodup)
    (hjmp : w.state.fn.leadingJump b = some jmp) (hn : w.state.fn.next b = some d)
    (hd : d ∉ w.state.removed) (hlt : d < w.state.fn.blocks.length) :
    Ensures (bypass (some bb) b jmp) w fun c w' => w'.Fine ∧
      ((c = b ∧ b ∉ w.state.removed ∧ Stays b d w.state w'.state) ∨
        (c = d ∧ d ≠ b ∧ Retires [b] d bb w.state w'.state)) := by
  obtain ⟨jmp', hjmp', htarget⟩ := target_of_next hn
  cases hjmp.symm.trans hjmp'
  have hs := hr.safe
  refine .bind (get_ensures (.bind (.ok htarget ?_)))
  split
  · -- a jump of a block to itself
    rename_i hdb
    refine .bind (count_ensures hfine hs fun w' hfine' hw' => .pure ⟨hfine', .inl ⟨rfl, hdb ▸ hd, ?_⟩⟩)
    exact ⟨by rw [hw'], by rw [hw'], .inl ⟨hdb, by rw [hw']⟩⟩
  · rename_i hdb
    cases hmerge : mergePhis w.state.fn b d with
    | none =>
      have hphis := mergePhis_eq_none hmerge
      have hb : b ∉ w.state.removed := fun hm => hphis (hr.phis b hm)
      refine .bind (count_ensures hfine hs fun w' hfine' hw' => .pure ⟨hfine', .inl ⟨rfl, hb, ?_⟩⟩)
      exact ⟨by rw [hw'], by rw [hw'], .inr ⟨by rw [hw'], hphis⟩⟩
    | some fn =>
      have hmerged := mergePhis_merged hmerge (Func.lt_of_leadingJump hjmp)
      have hs₁ : Safe { w.state with fn := fn } := by
        refine hs.of_same rfl hmerged.alike hmerged.op hmerged.dead fun c => ?_
        rw [hmerged.phis]
        split
        · exact .inl rfl
        · exact .inr rfl
      refine .bind (change_ensures hfine hs₁ fun w₁ hfine₁ h₁ => ?_)
      refine .bind (count_ensures hfine₁ (h₁ ▸ hs₁) fun w₂ hfine₂ h₂ => ?_)
      have hs₂ : Safe w₂.state := by rw [h₂, h₁]; exact hs₁.count _
      have hfn₂ : w₂.state.fn = fn := by rw [h₂, h₁]
      have hremoved₂ : w₂.state.removed = w.state.removed := by rw [h₂, h₁]
      have hrejects₂ : w₂.state.stats.phiRejects = w.state.stats.phiRejects := by rw [h₂, h₁]
      rw [← hfn₂] at hmerged
      have heliminate := eliminate_ensures (b := b) (d := d) hfine₂ hs₂ (fun c hc => ?_)
        (by rw [hmerged.phis, if_pos rfl]) (by rw [hmerged.alike.next hmerged.op, hn])
        (hremoved₂ ▸ hd) hdb
      · refine .bind (heliminate.mono fun _ w₃ h₃ => ?_)
        obtain ⟨hfine₃, hs₃, heliminates⟩ := h₃
        have hs₄ : Safe { w₃.state with
            fn := (w₃.state.fn.removeParent d (some b)).addParent d (some bb) } := by
          refine hs₃.of_same rfl ((Func.alike_removeParent _ d (some b)).trans
            (Func.alike_addParent _ d (some bb))) (fun _ => rfl) (fun c => ?_) fun c => .inr ?_
          · rw [Func.dead_addParent, Func.dead_removeParent]
          · rw [Func.phis_addParent, Func.phis_removeParent]
        refine .bind (change_ensures hfine₃ hs₄ fun w₄ hfine₄ h₄ => .pure ⟨hfine₄, ?_⟩)
        exact .inr ⟨rfl, hdb, retires_of_eliminates hlt hnodup hmerged hremoved₂ hrejects₂
          heliminates h₄⟩
      · rw [hmerged.dead, hr.dead] at hc
        exact hremoved₂ ▸ hc

end Watched

end Threading

end FlowGraph
