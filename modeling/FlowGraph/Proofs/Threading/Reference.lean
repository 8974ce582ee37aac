import Mathlib
import FlowGraph.Proofs.Threading.Bypass

/-! What takes the place of one reference. The recursion enters by `Follows`: what the threading
of the jump of a trampoline does as long as the operations outside `idle` are being threaded
further out. With such a follower a reference ends at a block that is not eliminated, and where no
jump leads on unless a trampoline was rejected. -/

namespace FlowGraph

namespace Threading

variable {fn₀ : Func} {s t u : Threading} {b c d p bb : BlockRef} {o jmp : OpRef} {i j : Nat}
  {P : BlockRef → Prop} {idle : List OpRef} {pending : BlockRef → BlockRef → Prop}

/-! ## What every step keeps -/

structure Sound (fn₀ : Func) (pending : BlockRef → BlockRef → Prop) (s : Threading) : Prop where
  redirected : Redirected fn₀ s
  retired : Retired s
  linked : Linked pending s

theorem Sound.mono {pending' : BlockRef → BlockRef → Prop} (h : Sound fn₀ pending s)
    (hp : ∀ p b, pending p b → pending' p b) : Sound fn₀ pending' s where
  redirected := h.redirected
  retired := h.retired
  linked := ⟨h.linked.nodup, h.linked.real, h.linked.parent,
    fun p b hpr hbr hm => (h.linked.edge p b hpr hbr hm).imp id (hp p b)⟩

/-- From an earlier state to a later one only trampolines of the kind `P` are rejected: there are no
rejections, or all blocks with phi nodes are of that kind. -/
def RejectsOnly (P : BlockRef → Prop) (s t : Threading) : Prop :=
  t.stats.phiRejects = s.stats.phiRejects ∨ ∀ b, (s.fn.block b).phis ≠ [] → P b

/-- From an earlier state to a later one while the operations outside `idle` are busy. -/
structure Advances (P : BlockRef → Prop) (idle : List OpRef) (s t : Threading) : Prop where
  evolves : Evolves s t
  busy : ∀ o ∉ idle, t.fn.op o = s.fn.op o
  quiet : RejectsOnly P s t → Quiet P idle s → Quiet P idle t

theorem Advances.refl (idle : List OpRef) (s : Threading) : Advances P idle s s :=
  ⟨.refl s, fun _ _ => rfl, fun _ h => h⟩

/-- Rejections are never taken back, so none happen in two parts if none happen in all. -/
theorem Evolves.rejects_eq (h : Evolves s t) (h' : Evolves t u)
    (he : u.stats.phiRejects = s.stats.phiRejects) :
    t.stats.phiRejects = s.stats.phiRejects ∧ u.stats.phiRejects = t.stats.phiRejects := by
  have := h.rejects
  have := h'.rejects
  omega

theorem Evolves.phis_ne_nil (h : Evolves s t) (hb : (t.fn.block b).phis ≠ []) :
    (s.fn.block b).phis ≠ [] :=
  (h.phis b).resolve_left hb ▸ hb

theorem Evolves.rejectsOnly (h : Evolves s t) (h' : Evolves t u) (he : RejectsOnly P s u) :
    RejectsOnly P s t ∧ RejectsOnly P t u := by
  rcases he with he | hP
  · exact (h.rejects_eq h' he).imp .inl .inl
  · exact ⟨.inr hP, .inr fun b hb => hP b (h.phis_ne_nil hb)⟩

theorem Advances.trans (h : Advances P idle s t) (h' : Advances P idle t u) :
    Advances P idle s u where
  evolves := h.evolves.trans h'.evolves
  busy o ho := (h'.busy o ho).trans (h.busy o ho)
  quiet he hq :=
    have hes := h.evolves.rejectsOnly h'.evolves he
    h'.quiet hes.2 (h.quiet hes.1 hq)

theorem Advances.held (h : Advances P idle s t) (hh : Held idle s.fn d) : Held idle t.fn d :=
  hh.transfer h.evolves.alike h.busy

theorem Retires.advances {gone : List BlockRef} {dest : BlockRef} (h : Retires gone dest bb s t)
    (hgone : Quiet P idle s → ∀ b ∈ gone, s.fn.next b = some dest ∧
      (Firm P s.fn dest ∨ Held idle s.fn dest)) : Advances P idle s t :=
  ⟨h.evolves, fun o _ => h.op o, fun _ hq => h.quiet hq (hgone hq)⟩

theorem Retires.sound {gone : List BlockRef} {dest : BlockRef} (h : Retires gone dest bb s t)
    (hs : Sound fn₀ pending s) (hdest : dest ∉ t.removed)
    (hgone : ∀ b ∈ gone, s.fn.next b = some dest) :
    Sound fn₀ (fun p c => pending p c ∨ (p = bb ∧ c = dest)) t :=
  ⟨h.redirected hs.redirected, h.retired hs.retired hdest hgone, h.linked hs.linked⟩

theorem Stays.sound (h : Stays b d s t) (hs : Sound fn₀ pending s) : Sound fn₀ pending t := by
  obtain ⟨⟨fn, stats⟩, removed⟩ := t
  obtain ⟨rfl, rfl, -⟩ := h
  exact ⟨⟨hs.redirected.alike, hs.redirected.slots, hs.redirected.phis⟩,
    ⟨hs.retired.dead, hs.retired.jump, hs.retired.phis, hs.retired.exits⟩,
    ⟨hs.linked.nodup, hs.linked.real, hs.linked.parent, hs.linked.edge⟩⟩

theorem Stays.advances (h : Stays b d s t) : Advances P idle s t := by
  refine ⟨⟨?_, ?_, ?_, ?_, ?_, ?_, ?_, ?_⟩, ?_, ?_⟩
  · rw [h.fn]; exact .refl _
  · rw [h.removed]; exact fun _ hb => hb
  · rcases h.cause with hc | hc
    · exact Nat.le_of_eq hc.2.symm
    · rw [hc.1]; exact Nat.le_succ _
  · intro hn
    rcases h.cause with hc | hc
    · exact hc.2
    · exact absurd (hn _) hc.2
  · intro b; rw [h.fn]; exact .inr rfl
  · intro o i j k b hs _; rw [h.fn]; exact hs
  · intro b hn; rw [h.fn]; exact hn
  · intro b p hp _; rw [h.fn]; exact hp
  · intro o _; rw [h.fn]
  · intro _ hq; unfold Quiet; rw [h.fn, h.removed]; exact hq

/-! ## One reference -/

/-- No jump that is being threaded further out leads to an eliminated block. -/
def Clear (idle : List OpRef) (s : Threading) : Prop := ∀ d, Held idle s.fn d → d ∉ s.removed

/-- The reference `c` takes the place of `b` in an operation of `bb`, which is still to be
written. -/
structure Threaded (P : BlockRef → Prop) (fn₀ : Func) (idle : List OpRef)
    (pending : BlockRef → BlockRef → Prop) (bb b c : BlockRef) (s t : Threading) : Prop where
  sound : Sound fn₀ (fun p x => pending p x ∨ (p = bb ∧ x = c)) t
  advances : Advances P idle s t
  through : fn₀.Through t.removed b c
  out : c ∉ t.removed
  registered : bb ∈ t.removed ∨ some bb ∈ (t.fn.block c).parents
  firm : RejectsOnly P s t → Quiet P idle s →
    (Firm P t.fn c ∨ (c ≠ b ∧ Held idle t.fn c)) ∧ (b ∈ t.removed ∨ Firm P t.fn b)

/-- What a follower does to the jump `jmp` of the trampoline `b`: nothing if the jump is busy,
else it makes the jump lead to a block that is not eliminated. -/
def Follows (P : BlockRef → Prop) (fn₀ : Func) (idle : List OpRef)
    (follow : OpRef → BlockRef → Watched.M Unit) : Prop :=
  ∀ (w : Watched) pending jmp b, w.Fine → Sound fn₀ pending w.state →
    w.state.fn.leadingJump b = some jmp → Clear idle w.state →
    Ensures (follow jmp b) w fun _ w' => w'.Fine ∧ Sound fn₀ pending w'.state ∧
      Advances P idle w.state w'.state ∧ (jmp ∉ idle → w'.state = w.state) ∧
      (jmp ∈ idle → ∀ d, w'.state.fn.next b = some d → d ∉ w'.state.removed ∧
        (RejectsOnly P w.state w'.state → Quiet P idle w.state →
          Firm P w'.state.fn d ∨ Held idle w'.state.fn d))

/-- A reference that stays as it is. -/
theorem Threaded.stay (hs : Sound fn₀ pending t) (ha : Advances P idle s t) (hb : b ∉ t.removed)
    (hreg : bb ∈ t.removed ∨ some bb ∈ (t.fn.block b).parents)
    (hfirm : RejectsOnly P s t → Firm P t.fn b) :
    Threaded P fn₀ idle pending bb b b s t where
  sound := hs.mono fun _ _ => .inl
  advances := ha
  through := .refl
  out := hb
  registered := hreg
  firm he _ := ⟨.inl (hfirm he), .inr (hfirm he)⟩

/-- A reference to a trampoline that stays, after its jump was followed in the state `t`. -/
theorem Threaded.stays (ha : Advances P idle s t) (hs : Sound fn₀ pending t) (hb : b ∉ t.removed)
    (hreg : bb ∈ s.removed ∨ some bb ∈ (s.fn.block b).parents) (hn : t.fn.next b = some d)
    (h : Stays b d t u) : Threaded P fn₀ idle pending bb b b s u := by
  refine .stay (h.sound hs) (ha.trans h.advances) ?_ ?_ ?_
  · rw [h.removed]
    exact hb
  · rw [h.removed, h.fn]
    rcases hreg with hm | hm
    · exact .inl (ha.evolves.removed hm)
    · exact Classical.or_iff_not_imp_left.mpr fun hbb => ha.evolves.parents b bb hm hbb
  · intro he
    rw [h.fn]
    rcases h.cause with ⟨rfl, -⟩ | ⟨hrejects, hphis⟩
    · exact .inl (.inr hn)
    · rcases he with he | hP
      · have := ha.evolves.rejects
        omega
      · exact .inr (hP b (ha.evolves.phis_ne_nil hphis))

/-- A reference to an eliminated block goes where that leads by now. -/
theorem Threaded.shortCircuit (hs : Sound fn₀ pending s) (hb : b ∈ s.removed)
    (hthrough : s.fn.Through s.removed b c) (hc : c ∉ s.removed) (h : Retires [] c bb s t) :
    Threaded P fn₀ idle pending bb b c s t where
  sound := h.sound hs (by simpa [h.removed] using hc) (by simp)
  advances := h.advances (by simp)
  through := (hs.redirected.through hthrough).mono h.subset
  out := by simpa [h.removed] using hc
  registered := .inr h.registered
  firm _ hq := by
    have hne : c ≠ b := by rintro rfl; exact hc hb
    refine ⟨?_, .inl (h.subset hb)⟩
    rcases hq.exit hb hthrough hc with hfirm | hheld
    · exact .inl (hfirm.evolves h.evolves)
    · exact .inr ⟨hne, hheld.transfer h.alike fun o _ => h.op o⟩

/-- A reference to a trampoline goes to the block `c` where its jump leads after it was
followed, in the state `t`, and the trampoline is eliminated. -/
theorem Threaded.bypass (ha : Advances P idle s t) (hs : Sound fn₀ pending t)
    (hn : t.fn.next b = some c) (hc : c ∉ t.removed) (hne : c ≠ b)
    (hfirm : RejectsOnly P s t → Quiet P idle s →
      Firm P t.fn c ∨ Held idle t.fn c)
    (h : Retires [b] c bb t u) : Threaded P fn₀ idle pending bb b c s u := by
  have hb : b ∈ u.removed := (h.removed b).mpr (.inr (by simp))
  have hout : c ∉ u.removed := by
    intro hm
    rcases (h.removed c).mp hm with hm | hm
    · exact hc hm
    · exact hne (List.mem_singleton.mp hm)
  have hsound := h.sound hs hout (by simpa using hn)
  have hlift : RejectsOnly P s u → Quiet P idle s →
      Firm P u.fn c ∨ Held idle u.fn c := by
    intro he hq
    rcases hfirm (ha.evolves.rejectsOnly h.evolves he).1 hq with hfirm | hheld
    · exact .inl (hfirm.evolves h.evolves)
    · exact .inr (hheld.transfer h.alike fun o _ => h.op o)
  refine ⟨hsound, ?_, ?_, hout, .inr h.registered, ?_⟩
  · refine ⟨ha.evolves.trans h.evolves, fun o ho => (h.op o).trans (ha.busy o ho), ?_⟩
    intro he hq
    have het := (ha.evolves.rejectsOnly h.evolves he).1
    exact h.quiet (ha.quiet het hq) (by simpa using ⟨hn, hfirm het hq⟩)
  · exact hsound.redirected.through (.head hb ((h.next b).trans hn) .refl)
  · intro he hq
    exact ⟨(hlift he hq).imp id fun hheld => ⟨hne, hheld⟩, .inl hb⟩

namespace Watched

variable {follow : OpRef → BlockRef → M Unit} {w : Watched}

/-- A reference to an eliminated block takes the short cut. -/
theorem threadBlock_of_removed (hw : fn₀.Loaded) (hfine : w.Fine) (hs : Sound fn₀ pending w.state)
    (hb : b ∈ w.state.removed) :
    Ensures (threadBlock follow (some bb) b) w fun c w' =>
      w'.Fine ∧ Threaded P fn₀ idle pending bb b c w.state w'.state := by
  obtain ⟨jmp, m, c, hjmp, hm, htarget, hrest, hc⟩ := hs.retired.safe.resolves hb
  have hthrough : w.state.fn.Through w.state.removed b c := .head hb hm hrest
  have hresolve : resolve w.state.fn w.state.removed b jmp = .ok c := by
    simp only [resolve, htarget]
    exact resolveFrom_of_through hrest hc (Nat.le_refl _)
  have hlt : c < w.state.fn.blocks.length := by
    rcases Relation.ReflTransGen.cases_tail hthrough with rfl | ⟨x, -, hv⟩
    · exact absurd hb hc
    · exact hs.redirected.next_lt hw hv.2
  refine .bind (get_ensures ?_)
  simp only [hjmp, if_pos hb]
  refine .bind (get_ensures (.bind (.ok hresolve (.bind ?_))))
  refine note_ensures hfine ⟨hc, ?_⟩ fun w₁ hfine₁ h₁ => ?_
  · intro m' hm' n hle
    cases hm.symm.trans hm'
    exact resolveFrom_of_through hrest hc hle
  have hs₂ : Safe { w₁.state with fn := w₁.state.fn.addParent c (some bb) } := by
    rw [h₁]
    exact hs.retired.safe.of_same rfl (Func.alike_addParent _ c (some bb)) (fun _ => rfl)
      (fun x => Func.dead_addParent _) fun x => .inr (Func.phis_addParent _)
  refine .bind (change_ensures hfine₁ hs₂ fun w₂ hfine₂ h₂ => ?_)
  refine .bind (count_ensures hfine₂ (h₂ ▸ hs₂) fun w₃ hfine₃ h₃ => .pure ⟨hfine₃, ?_⟩)
  refine .shortCircuit hs hb hthrough hc (retires_of_shortCircuit hlt hs.linked.nodup ?_ ?_ ?_)
  all_goals rw [h₃, h₂, h₁]

/-- The jump of a trampoline is followed first, and then the trampoline is passed over or stays. -/
theorem threadBlock_of_jump (hw : fn₀.Loaded) (hfollow : Follows P fn₀ idle follow)
    (hfine : w.Fine) (hs : Sound fn₀ pending w.state)
    (hreg : bb ∈ w.state.removed ∨ some bb ∈ (w.state.fn.block b).parents)
    (hclear : Clear idle w.state) (hb : b ∉ w.state.removed)
    (hjmp : w.state.fn.leadingJump b = some jmp) :
    Ensures (threadBlock follow (some bb) b) w fun c w' =>
      w'.Fine ∧ Threaded P fn₀ idle pending bb b c w.state w'.state := by
  refine .bind (get_ensures ?_)
  simp only [hjmp, if_neg hb]
  refine .bind ((hfollow w pending jmp b hfine hs hjmp hclear).mono fun _ w₁ h₁ => ?_)
  obtain ⟨hfine₁, hs₁, ha, hbusy, hidle⟩ := h₁
  have hjmp₁ : w₁.state.fn.leadingJump b = some jmp :=
    (ha.evolves.alike.leadingJump b).trans hjmp
  obtain ⟨d, hn⟩ := hs₁.redirected.next_isSome hw (b := b) (by rw [hjmp₁]; rfl)
  -- a busy jump holds its target; an idle one was made to lead to a good place
  have hd : d ∉ w₁.state.removed ∧
      (RejectsOnly P w.state w₁.state → Quiet P idle w.state →
        Firm P w₁.state.fn d ∨ Held idle w₁.state.fn d) := by
    by_cases hj : jmp ∈ idle
    · exact hidle hj d hn
    · have hheld : Held idle w₁.state.fn d := ⟨b, jmp, hjmp₁, hj, hn⟩
      refine ⟨?_, fun _ _ => .inr hheld⟩
      have hsame := hbusy hj
      rw [hsame] at hheld ⊢
      exact hclear d hheld
  refine (bypass_ensures hfine₁ hs₁.retired hs₁.linked.nodup hjmp₁ hn hd.1
    (hs₁.redirected.next_lt hw hn)).mono fun c w₂ h₂ => ?_
  rcases h₂ with ⟨hfine₂, ⟨rfl, hb₁, hstays⟩ | ⟨rfl, hne, hretires⟩⟩
  · exact ⟨hfine₂, .stays ha hs₁ hb₁ hreg hn hstays⟩
  · exact ⟨hfine₂, .bypass ha hs₁ hn hd.1 hne hd.2 hretires⟩

theorem threadBlock_ensures (hw : fn₀.Loaded) (hfollow : Follows P fn₀ idle follow)
    (hfine : w.Fine) (hs : Sound fn₀ pending w.state)
    (hreg : bb ∈ w.state.removed ∨ some bb ∈ (w.state.fn.block b).parents)
    (hclear : b ∉ w.state.removed → Clear idle w.state) :
    Ensures (threadBlock follow (some bb) b) w fun c w' =>
      w'.Fine ∧ Threaded P fn₀ idle pending bb b c w.state w'.state := by
  by_cases hb : b ∈ w.state.removed
  · exact threadBlock_of_removed hw hfine hs hb
  · cases hjmp : w.state.fn.leadingJump b with
    | none =>
      refine .bind (get_ensures ?_)
      simp only [hjmp]
      exact .pure ⟨hfine, .stay hs (.refl _ _) hb hreg fun _ => .inl (.inl hjmp)⟩
    | some jmp => exact threadBlock_of_jump hw hfollow hfine hs hreg (hclear hb) hb hjmp

theorem thread_ensures (hw : fn₀.Loaded) (hfollow : Follows P fn₀ idle follow)
    (hfine : w.Fine) (hs : Sound fn₀ pending w.state)
    (hreg : bb ∈ w.state.removed ∨ some bb ∈ (w.state.fn.block b).parents)
    (hclear : b ∉ w.state.removed → Clear idle w.state) :
    Ensures (thread follow (some bb) (some b)) w fun x w' => ∃ c, x = some c ∧
      w'.Fine ∧ Threaded P fn₀ idle pending bb b c w.state w'.state := by
  refine .bind ((threadBlock_ensures hw hfollow hfine hs hreg hclear).mono fun c w₁ h₁ => ?_)
  obtain ⟨hfine₁, hthreaded⟩ := h₁
  refine .bind (note_ensures hfine₁ hthreaded.out fun w₂ hfine₂ h₂ => .pure ⟨c, rfl, hfine₂, ?_⟩)
  rw [h₂]
  exact hthreaded

end Watched

end Threading

end FlowGraph
