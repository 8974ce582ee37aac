import Mathlib
import FlowGraph.Proofs.Elementwise
import FlowGraph.Proofs.Threading.Reference

/-! The threading of one operation, with all that it sets off: its references one after the
other, written back attribute by attribute. The follower of an operation is the threading of
other operations with one more that is busy, so that an induction over the idle operations shows
of every follower what `Follows` asks for. -/

namespace FlowGraph

namespace Threading

variable {fn₀ : Func} {s t u : Threading} {b c d p bb : BlockRef} {o jmp : OpRef} {i j : Nat}
  {P : BlockRef → Prop} {idle : List OpRef} {pending : BlockRef → BlockRef → Prop}

/-! ## The references of an attribute -/

/-- The reference `y` takes the place of `x` in an operation of `bb`: what is left of `Threaded`
when further references have been threaded. -/
structure Rewritten (P : BlockRef → Prop) (fn₀ : Func) (idle : List OpRef) (bb : BlockRef)
    (s t : Threading) (x y : Target) : Prop where
  moved : Moved fn₀ t.removed x y
  registered : ∀ c, y.block = some c → bb ∈ t.removed ∨ some bb ∈ (t.fn.block c).parents
  firm : RejectsOnly P s t → Quiet P idle s →
    ∀ b c, x.block = some b → y.block = some c →
      (Firm P t.fn c ∨ (c ≠ b ∧ Held idle t.fn c)) ∧ (b ∈ t.removed ∨ Firm P t.fn b)

theorem Rewritten.advances {x y : Target} (h : Rewritten P fn₀ idle bb s t x y)
    (hst : Evolves s t) (ha : Advances P idle t u) : Rewritten P fn₀ idle bb s u x y where
  moved := h.moved.mono ha.evolves.removed
  registered c hc := by
    rcases h.registered c hc with hm | hm
    · exact .inl (ha.evolves.removed hm)
    · exact Classical.or_iff_not_imp_left.mpr fun hbb => ha.evolves.parents c bb hm hbb
  firm he hq b c hb hc := by
    obtain ⟨hfst, hsnd⟩ := h.firm (hst.rejectsOnly ha.evolves he).1 hq b c hb hc
    refine ⟨?_, ?_⟩
    · rcases hfst with hfirm | ⟨hne, hheld⟩
      · exact .inl (hfirm.evolves ha.evolves)
      · exact .inr ⟨hne, ha.held hheld⟩
    · exact hsnd.imp (fun hm => ha.evolves.removed hm) fun hfirm => hfirm.evolves ha.evolves

theorem Threaded.rewritten {k : Int} (h : Threaded P fn₀ idle pending bb b c s t)
    (hsu : Evolves u s) (hq : RejectsOnly P u s → Quiet P idle u → Quiet P idle s) :
    Rewritten P fn₀ idle bb u t ⟨k, some b⟩ ⟨k, some c⟩ where
  moved := ⟨rfl, .some h.through⟩
  registered := by
    rintro _ ⟨⟩
    exact h.registered
  firm := by
    rintro he hqu _ _ ⟨⟩ ⟨⟩
    obtain ⟨hus, hst⟩ := hsu.rejectsOnly h.advances.evolves he
    exact h.firm hst (hq hus hqu)

theorem rewritten_none {k : Int} : Rewritten P fn₀ idle bb s t ⟨k, none⟩ ⟨k, none⟩ where
  moved := ⟨rfl, .none⟩
  registered := by rintro _ ⟨⟩
  firm := by rintro _ _ _ _ ⟨⟩

theorem moved_keys {l : List BlockRef} {ts tt : List Target}
    (h : List.Forall₂ (Moved fn₀ l) ts tt) : tt.map Target.key = ts.map Target.key := by
  induction h with
  | nil => rfl
  | cons hm _ ih => rw [List.map_cons, List.map_cons, ih, hm.1]

theorem Moved.block_left {l : List BlockRef} {x y : Target} (h : Moved fn₀ l x y)
    (hy : y.block = some c) : ∃ b, x.block = some b := by
  have hrel := h.2
  rw [hy] at hrel
  cases hx : x.block with
  | none => rw [hx] at hrel; cases hrel
  | some b => exact ⟨b, rfl⟩

theorem Moved.block_right {l : List BlockRef} {x y : Target} (h : Moved fn₀ l x y)
    (hx : x.block = some b) : ∃ c, y.block = some c := by
  have hrel := h.2
  rw [hx] at hrel
  cases hy : y.block with
  | none => rw [hy] at hrel; cases hrel
  | some c => exact ⟨c, rfl⟩

section

variable {a : Attribute} {tt : List Target}

/-- The references to be written are firm, or held by another jump than the one that is written. -/
theorem firm_of_rewritten
    (hr : List.Forall₂ (Rewritten P fn₀ (idle.erase o) bb s t) a.slot.targets tt)
    (ha : (t.fn.op o).attributes[i]? = some a)
    (he : RejectsOnly P s t) (hq : Quiet P idle s) :
    ∀ y ∈ tt, ∀ c, y.block = some c → Firm P t.fn c ∨ Held idle t.fn c := by
  intro y hy c hc
  obtain ⟨x, hx, hxy⟩ := forall₂_mem_right hr hy
  obtain ⟨b, hb⟩ := hxy.moved.block_left hc
  rcases (hxy.firm he hq.erase b c hb hc).1 with hfirm | ⟨hne, hheld⟩
  · exact .inl hfirm
  · rcases hheld.of_erase with hheld | ⟨z, hz, hn⟩
    · exact .inr hheld
    · -- the jump itself held `c` only if that was its reference
      rw [(Func.targets_of_next hz hn ha).2, List.mem_singleton] at hx
      subst hx
      exact absurd (Option.some.inj hb) hne

/-- The block that a jump led to is firm or eliminated by the time when the jump is written. -/
theorem firm_of_jump
    (hr : List.Forall₂ (Rewritten P fn₀ (idle.erase o) bb s t) a.slot.targets tt)
    (ha : (t.fn.op o).attributes[i]? = some a)
    (he : RejectsOnly P s t) (hq : Quiet P idle s)
    (hj : t.fn.leadingJump b = some o) (hn : t.fn.next b = some d) :
    d ∈ t.removed ∨ Firm P t.fn d := by
  rw [(Func.targets_of_next hj hn ha).2] at hr
  cases hr with
  | cons hxy _ =>
    obtain ⟨c, hc⟩ := hxy.moved.block_right rfl
    exact (hxy.firm he hq.erase d c rfl hc).2

end

/-- References found for an operation of `bb` but not yet written back. -/
def Found (pending : BlockRef → BlockRef → Prop) (bb : BlockRef) (tt : List Target) :
    BlockRef → BlockRef → Prop :=
  fun p c => pending p c ∨ (p = bb ∧ ∃ x ∈ tt, x.block = some c)

/-- No jump is ever busy, since `idle` holds every leading jump. -/
def NoneHeld (fn₀ : Func) (idle : List OpRef) : Prop :=
  ∀ b jmp, fn₀.leadingJump b = some jmp → jmp ∈ idle

theorem NoneHeld.not_held (h : NoneHeld fn₀ idle) (hs : Redirected fn₀ s) : ¬Held idle s.fn d := by
  rintro ⟨b, jmp, hjmp, hidle, -⟩
  rw [hs.alike.leadingJump] at hjmp
  exact hidle (h b jmp hjmp)

theorem NoneHeld.clear (h : NoneHeld fn₀ idle) (hs : Redirected fn₀ s) : Clear idle s :=
  fun _ hheld => absurd hheld (h.not_held hs)

/-- In the middle of the references `ts` of an attribute: `done` has taken the place of the front
of them, `rest` is still to come. Where one reference is threaded after another, no jump may be
held, for the threading of the first may eliminate what the jump leads to. -/
structure Rewriting (P : BlockRef → Prop) (fn₀ : Func) (idle : List OpRef)
    (pending : BlockRef → BlockRef → Prop) (bb : BlockRef) (ts : List Target) (s : Threading)
    (rest done : List Target) (w : Watched) : Prop where
  fine : w.Fine
  sound : Sound fn₀ (Found pending bb done) w.state
  advances : Advances P idle s w.state
  out : ts.length ≤ 1 → ∀ y ∈ done, ∀ c, y.block = some c → c ∉ w.state.removed
  clear : ∀ x ∈ rest, ∀ b, x.block = some b → b ∉ w.state.removed → Clear idle w.state
  split : ∃ front, ts = front ++ rest ∧
    List.Forall₂ (Rewritten P fn₀ idle bb s w.state) front done

namespace Watched

variable {follow : OpRef → BlockRef → M Unit} {w : Watched}

theorem threadTarget_ensures (hw : fn₀.Loaded) (hfollow : Follows P fn₀ idle follow)
    (hfine : w.Fine) (hs : Sound fn₀ pending w.state) {x : Target}
    (hreg : ∀ b, x.block = some b → bb ∈ w.state.removed ∨ some bb ∈ (w.state.fn.block b).parents)
    (hclear : ∀ b, x.block = some b → b ∉ w.state.removed → Clear idle w.state)
    (ha : Advances P idle s w.state) :
    Ensures (threadTarget follow (some bb) x) w fun y w' => w'.Fine ∧
      Sound fn₀ (fun p c => pending p c ∨ (p = bb ∧ y.block = some c)) w'.state ∧
      Advances P idle w.state w'.state ∧ Rewritten P fn₀ idle bb s w'.state x y ∧
      ∀ c, y.block = some c → c ∉ w'.state.removed := by
  obtain ⟨k, _ | b⟩ := x
  · refine .bind (.pure (.pure ⟨hfine, hs.mono fun _ _ => .inl, .refl _ _, rewritten_none, ?_⟩))
    rintro _ ⟨⟩
  · refine .bind ((thread_ensures hw hfollow hfine hs (hreg b rfl) (hclear b rfl)).mono ?_)
    rintro _ w₁ ⟨c, rfl, hfine₁, hthreaded⟩
    refine .pure ⟨hfine₁, hthreaded.sound.mono ?_, hthreaded.advances,
      hthreaded.rewritten ha.evolves ha.quiet, ?_⟩
    · rintro p x (hp | ⟨rfl, rfl⟩)
      · exact .inl hp
      · exact .inr ⟨rfl, rfl⟩
    · rintro _ ⟨⟩
      exact hthreaded.out

theorem rewriting_step (hw : fn₀.Loaded) (hfollow : Follows P fn₀ idle follow) (ho : o ∉ idle)
    (hbb : o ∈ (s.fn.block bb).ops) {ts rest done : List Target} {x : Target}
    (hts : ∀ x ∈ ts, ∃ i j, s.fn.slot? o i j = some x)
    (hone : ts.length ≤ 1 ∨ NoneHeld fn₀ idle)
    (h : Rewriting P fn₀ idle pending bb ts s (x :: rest) done w) :
    Ensures (threadTarget follow (some bb) x) w fun y w' =>
      Rewriting P fn₀ idle pending bb ts s rest (done ++ [y]) w' := by
  obtain ⟨front, hfront, hdone⟩ := h.split
  have hslot : ∃ i j, w.state.fn.slot? o i j = some x := by
    obtain ⟨i, j, hx⟩ := hts x (by simp [hfront])
    exact ⟨i, j, by rw [Func.slot?, h.advances.busy o ho]; exact hx⟩
  have hreg : ∀ b, x.block = some b →
      bb ∈ w.state.removed ∨ some bb ∈ (w.state.fn.block b).parents := by
    intro b hb
    obtain ⟨i, j, hx⟩ := hslot
    obtain ⟨k, _⟩ := x
    cases hb
    refine Classical.or_iff_not_imp_left.mpr fun hm => h.sound.linked.parent bb b hm ?_
    exact ⟨o, by rw [h.advances.evolves.alike.blockOps]; exact hbb, i, j, k, hx⟩
  refine (threadTarget_ensures hw hfollow h.fine h.sound hreg (h.clear x (by simp))
    h.advances).mono ?_
  rintro y w' ⟨hfine', hs', ha', hy, hout⟩
  have hfirst : ts.length ≤ 1 → front = [] ∧ rest = [] := by
    intro hle
    rw [hfront, List.length_append, List.length_cons] at hle
    exact ⟨List.length_eq_zero_iff.mp (by omega), List.length_eq_zero_iff.mp (by omega)⟩
  refine ⟨hfine', hs'.mono ?_, h.advances.trans ha', ?_, ?_, front ++ [x], by simp [hfront], ?_⟩
  · rintro p c ((hp | ⟨rfl, z, hz, hc⟩) | ⟨rfl, hc⟩)
    · exact .inl hp
    · exact .inr ⟨rfl, z, List.mem_append_left _ hz, hc⟩
    · exact .inr ⟨rfl, y, by simp, hc⟩
  · intro hle z hz c hc
    obtain ⟨rfl, -⟩ := hfirst hle
    cases hdone
    cases List.mem_singleton.mp hz
    exact hout c hc
  · intro z hz _ _ _
    rcases hone with hle | hnone
    · rw [(hfirst hle).2] at hz
      cases hz
    · exact hnone.clear hs'.redirected
  · refine List.rel_append ?_ (.cons hy .nil)
    exact hdone.imp fun _ _ hr => hr.advances h.advances.evolves ha'

theorem mapM_threadTarget_ensures (hw : fn₀.Loaded) (hfollow : Follows P fn₀ idle follow)
    (hfine : w.Fine) (hs : Sound fn₀ pending w.state) (ho : o ∉ idle)
    (hbb : o ∈ (w.state.fn.block bb).ops) {ts : List Target}
    (hts : ∀ x ∈ ts, ∃ i j, w.state.fn.slot? o i j = some x)
    (hclear : ∀ x ∈ ts, ∀ b, x.block = some b → b ∉ w.state.removed → Clear idle w.state)
    (hone : ts.length ≤ 1 ∨ NoneHeld fn₀ idle) :
    Ensures (ts.mapM (threadTarget follow (some bb))) w fun tt w' => w'.Fine ∧
      Sound fn₀ (Found pending bb tt) w'.state ∧ Advances P idle w.state w'.state ∧
      List.Forall₂ (Rewritten P fn₀ idle bb w.state w'.state) ts tt ∧
      (ts.length ≤ 1 → ∀ y ∈ tt, ∀ c, y.block = some c → c ∉ w'.state.removed) := by
  have hinit : Rewriting P fn₀ idle pending bb ts w.state ts [] w :=
    ⟨hfine, hs.mono fun _ _ => .inl, .refl _ _, by simp, hclear, [], rfl, .nil⟩
  refine (Ensures.mapM (I := Rewriting P fn₀ idle pending bb ts w.state)
    (fun _ _ _ _ h => rewriting_step hw hfollow ho hbb hts hone h) hinit).mono fun tt w' h => ?_
  obtain ⟨front, hfront, hdone⟩ := h.split
  obtain rfl : ts = front := by simpa using hfront
  exact ⟨h.fine, h.sound, h.advances, hdone, h.out⟩

/-- References are written back under the keys that they were read under. -/
theorem writeBack_ensures {a : Attribute} {tt : List Target} (hw : fn₀.Loaded) (hfine : w.Fine)
    (hs : Sound fn₀ (Found pending bb tt) w.state)
    (ha : (w.state.fn.op o).attributes[i]? = some a)
    (howner : ∀ p, o ∈ (w.state.fn.block p).ops ↔ p = bb)
    (hmoved : List.Forall₂ (Moved fn₀ w.state.removed) a.slot.targets tt)
    (hreg : ∀ x ∈ tt, ∀ c, x.block = some c →
      bb ∈ w.state.removed ∨ some bb ∈ (w.state.fn.block c).parents)
    (hlead : ∀ b, w.state.fn.leadingJump b = some o →
      i = 0 ∧ ∀ x ∈ tt, ∀ d, x.block = some d → d ∉ w.state.removed) :
    Ensures (writeBack o i tt) w fun _ w' => w'.Fine ∧ Stores fn₀ o i tt w.state w'.state ∧
      Sound fn₀ pending w'.state := by
  obtain ⟨fn', hstore, hblocks, -, halike, hother, hslot⟩ :=
    Func.store_of_keys ha (moved_keys hmoved)
  have hstores : Stores fn₀ o i tt w.state { w.state with fn := fn' } := by
    refine ⟨halike, hblocks, rfl, rfl, hother, hslot, fun j => ?_⟩
    simp only [Func.slot?, Op.slot?, ha, Option.bind_some]
    exact forall₂_getElem? hmoved j
  have hred := hstores.redirected hs.redirected
  have hret := hstores.retired hs.retired hred hw (by
    intro b hb d hn
    obtain ⟨jmp, k, hjmp, hy⟩ := Func.next_eq_some hn
    cases (halike.leadingJump b).symm.trans hjmp |>.symm.trans hb
    obtain ⟨rfl, hout⟩ := hlead b hb
    rw [hstores.slot, if_pos rfl] at hy
    exact hout _ (List.mem_of_getElem? hy) d rfl)
  have hlinked : Linked pending { w.state with fn := fn' } :=
    hstores.linked hs.linked howner hreg
  refine .bind (get_ensures ?_)
  rw [hstore]
  refine .bind (change_ensures hfine hret.safe fun w' hfine' h' => .pure ⟨hfine', ?_⟩)
  rw [h']
  exact ⟨hstores, hred, hret, hlinked⟩

/-! ## One attribute -/

/-- What the threading of attribute `i` of an operation leaves behind. -/
structure Attributed (P : BlockRef → Prop) (fn₀ : Func) (idle : List OpRef)
    (pending : BlockRef → BlockRef → Prop) (o : OpRef) (i : Nat) (s : Threading) (w : Watched) :
    Prop where
  fine : w.Fine
  sound : Sound fn₀ pending w.state
  advances : Advances P idle s w.state
  other : ∀ i' j, i' ≠ i → w.state.fn.slot? o i' j = s.fn.slot? o i' j
  out : (s.fn.op o).isJump = true → ∀ j k c, w.state.fn.slot? o i j = some ⟨k, some c⟩ →
    c ∉ w.state.removed
  firm : RejectsOnly P s w.state → Quiet P idle s →
    ∀ j k c, w.state.fn.slot? o i j = some ⟨k, some c⟩ →
      Firm P w.state.fn c ∨ Held idle w.state.fn c

/-- While the operation itself is busy too, nothing more is held than the reference of a jump. -/
theorem clear_erase {a : Attribute} (ha : (s.fn.op o).attributes[i]? = some a)
    (hclear : Clear idle s) {x : Target} (hx : x ∈ a.slot.targets) (hb : x.block = some b)
    (hout : b ∉ s.removed) : Clear (idle.erase o) s := by
  intro d hheld
  rcases hheld.of_erase with hheld | ⟨z, hz, hn⟩
  · exact hclear d hheld
  · rw [(Func.targets_of_next hz hn ha).2, List.mem_singleton] at hx
    subst hx
    cases hb
    exact hout

/-- The references `tt` were found in the state `t` and written back. -/
theorem attributed_of_stores {a : Attribute} {tt : List Target} (ho : o ∈ idle)
    (hnodup : idle.Nodup) (hret : Retired t) (hadv : Advances P (idle.erase o) s t)
    (ha : (s.fn.op o).attributes[i]? = some a)
    (hr : List.Forall₂ (Rewritten P fn₀ (idle.erase o) bb s t) a.slot.targets tt)
    (hout : a.slot.targets.length ≤ 1 → ∀ y ∈ tt, ∀ c, y.block = some c → c ∉ t.removed)
    (hstores : Stores fn₀ o i tt t w.state) (hfine : w.Fine) (hs : Sound fn₀ pending w.state) :
    Attributed P fn₀ idle pending o i s w := by
  have hop : t.fn.op o = s.fn.op o := hadv.busy o hnodup.not_mem_erase
  have ha₁ : (t.fn.op o).attributes[i]? = some a := by rw [hop]; exact ha
  have hjump : (s.fn.op o).isJump = true → i = 0 ∧ a.slot.targets.length ≤ 1 :=
    fun hj => Op.attributes_of_isJump hj ha
  have hevolves := hstores.evolves hret
  have hslot : ∀ j, w.state.fn.slot? o i j = tt[j]? := fun j => by rw [hstores.slot, if_pos rfl]
  have hnew : RejectsOnly P s w.state → Quiet P idle s →
      ∀ y ∈ tt, ∀ c, y.block = some c → Firm P w.state.fn c ∨ Held idle w.state.fn c := by
    intro he hq y hy c hc
    have he₁ := (hadv.evolves.rejectsOnly hevolves he).1
    rcases firm_of_rewritten hr ha₁ he₁ hq y hy c hc with hfirm | hheld
    · exact .inl (hfirm.evolves hevolves)
    · exact .inr (hstores.held ho hheld)
  refine ⟨hfine, hs, ⟨hadv.evolves.trans hevolves, ?_, ?_⟩, ?_, ?_, ?_⟩
  · intro o' ho'
    have hne : o' ≠ o := fun he => ho' (he ▸ ho)
    rw [hstores.other o' hne, hadv.busy o' fun hm => ho' (List.mem_of_mem_erase hm)]
  · intro he hq
    have he₁ := (hadv.evolves.rejectsOnly hevolves he).1
    refine hstores.quiet hret ho (hadv.quiet he₁ hq.erase)
      (fun x d hx hn => firm_of_jump hr ha₁ he₁ hq hx hn) fun x d hx hn => ?_
    obtain ⟨jmp, k, hjmp, hy⟩ := Func.next_eq_some hn
    cases hx.symm.trans hjmp
    obtain ⟨rfl, -⟩ := hjump (by
      rw [← hop, ← hstores.alike.isJump]; exact (Func.leadingJump_eq_some hx).2)
    rw [hslot] at hy
    exact hnew he hq _ (List.mem_of_getElem? hy) d rfl
  · intro i' j hi
    rw [hstores.slot, if_neg hi, Func.slot?, hop, Func.slot?]
  · intro hj j k c hy
    rw [hslot] at hy
    rw [hstores.removed]
    exact hout (hjump hj).2 _ (List.mem_of_getElem? hy) c rfl
  · intro he hq j k c hy
    rw [hslot] at hy
    exact hnew he hq _ (List.mem_of_getElem? hy) c rfl

theorem threadAttribute_ensures (hw : fn₀.Loaded) (ho : o ∈ idle) (hnodup : idle.Nodup)
    (hfollow : Follows P fn₀ (idle.erase o) follow) (hfine : w.Fine)
    (hs : Sound fn₀ pending w.state) (howner : o ∈ (fn₀.block bb).ops)
    (hmode : ((w.state.fn.op o).isJump = true ∧ Clear idle w.state) ∨
      ((w.state.fn.op o).isJump = false ∧ NoneHeld fn₀ (idle.erase o))) :
    Ensures (threadAttribute follow o (some bb) i) w fun _ w' =>
      Attributed P fn₀ idle pending o i w.state w' := by
  have hbusy : o ∉ idle.erase o := hnodup.not_mem_erase
  refine .bind (get_ensures ?_)
  cases ha : (w.state.fn.op o).attributes[i]? with
  | none =>
    have hnone : ∀ j, w.state.fn.slot? o i j = none := fun j => by simp [Func.slot?, Op.slot?, ha]
    exact .pure ⟨hfine, hs, .refl _ _, fun _ _ _ => rfl, by simp [hnone], by simp [hnone]⟩
  | some a =>
    have hjump : (w.state.fn.op o).isJump = true → i = 0 ∧ a.slot.targets.length ≤ 1 :=
      fun hj => Op.attributes_of_isJump hj ha
    have hclear : ∀ x ∈ a.slot.targets, ∀ b, x.block = some b → b ∉ w.state.removed →
        Clear (idle.erase o) w.state := by
      intro x hx b hb hout
      rcases hmode with ⟨-, hclear⟩ | ⟨-, hnone⟩
      · exact clear_erase ha hclear hx hb hout
      · exact hnone.clear hs.redirected
    have hone : a.slot.targets.length ≤ 1 ∨ NoneHeld fn₀ (idle.erase o) :=
      hmode.imp (fun h => (hjump h.1).2) (·.2)
    refine .bind ((mapM_threadTarget_ensures hw hfollow hfine hs hbusy
      (by rw [hs.redirected.alike.blockOps]; exact howner) (fun x hx => ?_) hclear hone).mono ?_)
    · obtain ⟨j, hj⟩ := List.mem_iff_getElem?.mp hx
      exact ⟨i, j, by simp [Func.slot?, Op.slot?, ha, hj]⟩
    rintro tt w₁ ⟨hfine₁, hs₁, hadv, hr, hout⟩
    have hop : w₁.state.fn.op o = w.state.fn.op o := hadv.busy o hbusy
    refine (writeBack_ensures hw hfine₁ hs₁ (by rw [hop]; exact ha) ?_
      (hr.imp fun _ _ h => h.moved) ?_ ?_).mono ?_
    · intro p
      rw [hs₁.redirected.alike.blockOps]
      exact ⟨fun hp => hw.owner p bb o hp howner, fun hp => hp ▸ howner⟩
    · intro y hy c hc
      obtain ⟨x, -, hxy⟩ := forall₂_mem_right hr hy
      exact hxy.registered c hc
    · intro b hb
      obtain ⟨hi, hle⟩ := hjump (by rw [← hop]; exact (Func.leadingJump_eq_some hb).2)
      exact ⟨hi, hout hle⟩
    rintro _ w₂ ⟨hfine₂, hstores, hs₂⟩
    exact attributed_of_stores ho hnodup hs₁.retired hadv ha hr hout hstores hfine₂ hs₂

/-! ## One operation -/

theorem threadOp_jump_ensures (hw : fn₀.Loaded) (ho : o ∈ idle) (hnodup : idle.Nodup)
    (hfollow : Follows P fn₀ (idle.erase o) follow) (hfine : w.Fine)
    (hs : Sound fn₀ pending w.state) (howner : o ∈ (fn₀.block bb).ops)
    (hjump : (w.state.fn.op o).isJump = true) (hclear : Clear idle w.state) :
    Ensures (threadOp follow o (some bb)) w fun _ w' =>
      Attributed P fn₀ idle pending o 0 w.state w' := by
  refine .bind (get_ensures ?_)
  have hcount : (w.state.fn.op o).attributes.length = 1 := by
    cases hop : w.state.fn.op o with
    | jump t => rfl
    | _ => rw [hop] at hjump; cases hjump
  rw [hcount]
  exact .bind ((threadAttribute_ensures hw ho hnodup hfollow hfine hs howner
    (.inl ⟨hjump, hclear⟩)).mono fun _ _ h => .pure h)

/-- Attributes are threaded one after the other; what is firm in one stays so. -/
theorem threadOp_ensures (hw : fn₀.Loaded) (ho : o ∈ idle) (hnodup : idle.Nodup)
    (hfollow : Follows P fn₀ (idle.erase o) follow) (hfine : w.Fine)
    (hs : Sound fn₀ pending w.state) (howner : o ∈ (fn₀.block bb).ops)
    (hjump : (w.state.fn.op o).isJump = false) (hnone : NoneHeld fn₀ (idle.erase o)) :
    Ensures (threadOp follow o (some bb)) w fun _ w' => w'.Fine ∧ Sound fn₀ pending w'.state ∧
      Advances P idle w.state w'.state ∧
      (RejectsOnly P w.state w'.state → Quiet P idle w.state →
        ∀ i j k c, w'.state.fn.slot? o i j = some ⟨k, some c⟩ →
          Firm P w'.state.fn c ∨ Held idle w'.state.fn c) := by
  refine .bind (get_ensures ?_)
  refine (Ensures.forM (I := fun rest w' => w'.Fine ∧ Sound fn₀ pending w'.state ∧
    Advances P idle w.state w'.state ∧
    (RejectsOnly P w.state w'.state → Quiet P idle w.state →
      ∀ i ∉ rest, ∀ j k c, w'.state.fn.slot? o i j = some ⟨k, some c⟩ →
        Firm P w'.state.fn c ∨ Held idle w'.state.fn c)) ?_ ⟨hfine, hs, .refl _ _, ?_⟩).mono ?_
  · rintro i rest w₁ ⟨hfine₁, hs₁, hadv, hdone⟩
    have hjump₁ : (w₁.state.fn.op o).isJump = false :=
      (hadv.evolves.alike.isJump o).trans hjump
    refine (threadAttribute_ensures hw ho hnodup hfollow hfine₁ hs₁ howner
      (.inr ⟨hjump₁, hnone⟩)).mono fun _ w₂ h => ?_
    refine ⟨h.fine, h.sound, hadv.trans h.advances, fun he hq i' hi' j k c hslot => ?_⟩
    obtain ⟨he₁, he₂⟩ := hadv.evolves.rejectsOnly h.advances.evolves he
    by_cases hi : i' = i
    · subst hi
      exact h.firm he₂ (hadv.quiet he₁ hq) j k c hslot
    · rw [h.other i' j hi] at hslot
      rcases hdone he₁ hq i' (by simp [hi, hi']) j k c hslot with hfirm | hheld
      · exact .inl (hfirm.evolves h.advances.evolves)
      · exact .inr (h.advances.held hheld)
  · intro _ _ i hi j k c hslot
    have hout : (w.state.fn.op o).attributes[i]? = none :=
      List.getElem?_eq_none (by simpa using hi)
    simp [Func.slot?, Op.slot?, hout] at hslot
  · rintro _ w' ⟨hfine', hs', hadv, hdone⟩
    exact ⟨hfine', hs', hadv, fun he hq i => hdone he hq i (by simp)⟩

/-! ## The recursion -/

/-- Every follower of the pass is one. The induction is over the operations that are idle, of
which each nested call has one less. -/
theorem simplifyIdle_follows (hw : fn₀.Loaded) (idle : List OpRef) (hnodup : idle.Nodup) :
    Follows P fn₀ idle fun jmp b => simplifyIdle idle jmp (some b) := by
  induction hn : idle.length generalizing idle with
  | zero =>
    intro w pending jmp b hfine hs _ _
    obtain rfl : idle = [] := List.length_eq_zero_iff.mp hn
    unfold simplifyIdle
    exact .pure ⟨hfine, hs, .refl _ _, fun _ => rfl, by simp⟩
  | succ n ih =>
    intro w pending jmp b hfine hs hjmp hclear
    dsimp only
    unfold simplifyIdle
    by_cases hidle : jmp ∈ idle
    · rw [dif_pos hidle]
      have hfollow := ih (idle.erase jmp) (hnodup.erase jmp)
        (by rw [List.length_erase_of_mem hidle, hn]; rfl)
      obtain ⟨howner, hjump⟩ := Func.leadingJump_eq_some hjmp
      rw [hs.redirected.alike.blockOps] at howner
      refine (threadOp_jump_ensures hw hidle hnodup hfollow hfine hs howner hjump hclear).mono ?_
      intro _ w' h
      refine ⟨h.fine, h.sound, h.advances, fun hbusy => absurd hidle hbusy, fun _ d hn => ?_⟩
      obtain ⟨jmp', k, hjmp', hslot⟩ := Func.next_eq_some hn
      rw [h.advances.evolves.alike.leadingJump] at hjmp'
      cases hjmp.symm.trans hjmp'
      exact ⟨h.out hjump 0 k d hslot, fun he hq => h.firm he hq 0 k d hslot⟩
    · rw [dif_neg hidle]
      exact .pure ⟨hfine, hs, .refl _ _, fun _ => rfl, fun hm => absurd hm hidle⟩

end Watched

/-- Eliminated blocks lead, one after the other, to settled blocks. -/
def Calm (s : Threading) : Prop :=
  ∀ b ∈ s.removed, ∀ d, s.fn.next b = some d → d ∈ s.removed ∨ Settled s.fn d

/-- Eliminated blocks lead, one after the other, to firm blocks. -/
def CalmFor (P : BlockRef → Prop) (s : Threading) : Prop :=
  ∀ b ∈ s.removed, ∀ d, s.fn.next b = some d → d ∈ s.removed ∨ Firm P s.fn d

theorem firm_false {fn : Func} : Firm (fun _ => False) fn b ↔ Settled fn b := or_iff_left id

theorem calmFor_false : CalmFor (fun _ => False) s ↔ Calm s := by
  simp only [CalmFor, Calm, firm_false]

theorem NoneHeld.quiet_iff (h : NoneHeld fn₀ idle) (hs : Redirected fn₀ s) :
    Quiet P idle s ↔ CalmFor P s := by
  constructor
  · intro hq b hb d hn
    rcases hq b hb d hn with hm | hfirm | hheld
    · exact .inl hm
    · exact .inr hfirm
    · exact absurd hheld (h.not_held hs)
  · intro hc b hb d hn
    exact (hc b hb d hn).imp id .inl

/-- What the threading of an operation leaves behind when nothing else is being threaded. -/
structure Simplified (fn₀ : Func) (o : OpRef) (s t : Threading) : Prop where
  sound : Sound fn₀ (fun _ _ => False) t
  evolves : Evolves s t
  calmFor : ∀ P, RejectsOnly P s t → CalmFor P s → CalmFor P t
  firm : ∀ P, RejectsOnly P s t → CalmFor P s →
    ∀ i j k c, t.fn.slot? o i j = some ⟨k, some c⟩ → Firm P t.fn c

theorem Simplified.calm (h : Simplified fn₀ o s t)
    (he : t.stats.phiRejects = s.stats.phiRejects) (hc : Calm s) : Calm t :=
  calmFor_false.mp (h.calmFor _ (.inl he) (calmFor_false.mpr hc))

theorem Simplified.settled (h : Simplified fn₀ o s t)
    (he : t.stats.phiRejects = s.stats.phiRejects) (hc : Calm s) (i j : Nat) (k : Int)
    (c : BlockRef) (hslot : t.fn.slot? o i j = some ⟨k, some c⟩) : Settled t.fn c :=
  firm_false.mp (h.firm _ (.inl he) (calmFor_false.mpr hc) i j k c hslot)

theorem NoneHeld.simplified (hnone : NoneHeld fn₀ idle) (hs : Redirected fn₀ s)
    (hsound : Sound fn₀ (fun _ _ => False) t) (hadv : ∀ P, Advances P idle s t)
    (hfirm : ∀ P, RejectsOnly P s t → Quiet P idle s →
      ∀ i j k c, t.fn.slot? o i j = some ⟨k, some c⟩ → Firm P t.fn c ∨ Held idle t.fn c) :
    Simplified fn₀ o s t where
  sound := hsound
  evolves := (hadv fun _ => True).evolves
  calmFor P he hc := (hnone.quiet_iff hsound.redirected).mp
    ((hadv P).quiet he ((hnone.quiet_iff hs).mpr hc))
  firm P he hc i j k c hslot :=
    (hfirm P he ((hnone.quiet_iff hs).mpr hc) i j k c hslot).resolve_right
      (hnone.not_held hsound.redirected)

namespace Watched

variable {w : Watched}

theorem simplifyIdle_ensures (P : BlockRef → Prop) (hw : fn₀.Loaded) (hnodup : idle.Nodup)
    (hnone : NoneHeld fn₀ idle) (hfine : w.Fine) (hs : Sound fn₀ (fun _ _ => False) w.state)
    (hidle : o ∈ idle) (howner : o ∈ (fn₀.block bb).ops) :
    Ensures (simplifyIdle idle o (some bb)) w fun _ w' => w'.Fine ∧
      Sound fn₀ (fun _ _ => False) w'.state ∧ Advances P idle w.state w'.state ∧
      (RejectsOnly P w.state w'.state → Quiet P idle w.state →
        ∀ i j k c, w'.state.fn.slot? o i j = some ⟨k, some c⟩ →
          Firm P w'.state.fn c ∨ Held idle w'.state.fn c) := by
  have hfollow := simplifyIdle_follows (P := P) hw _ (hnodup.erase o)
  unfold simplifyIdle
  rw [dif_pos hidle]
  cases hjump : (w.state.fn.op o).isJump with
  | true =>
    refine (threadOp_jump_ensures hw hidle hnodup hfollow hfine hs howner hjump
      (hnone.clear hs.redirected)).mono fun _ w' h => ?_
    refine ⟨h.fine, h.sound, h.advances, fun he hq i j k c hslot => ?_⟩
    by_cases hi : i = 0
    · subst hi
      exact h.firm he hq j k c hslot
    · rw [h.other i j hi] at hslot
      obtain ⟨a, ha, -⟩ := Option.bind_eq_some_iff.mp hslot
      exact absurd (Op.attributes_of_isJump hjump ha).1 hi
  | false =>
    have hnone' : NoneHeld fn₀ (idle.erase o) := by
      intro b jmp hjmp
      have hne : jmp ≠ o := by
        rintro rfl
        have := (Func.leadingJump_eq_some hjmp).2
        rw [← hs.redirected.alike.isJump, hjump] at this
        cases this
      exact (List.mem_erase_of_ne hne).mpr (hnone b jmp hjmp)
    exact threadOp_ensures hw hidle hnodup hfollow hfine hs howner hjump hnone'

theorem simplify_ensures (hw : fn₀.Loaded) (hfine : w.Fine)
    (hs : Sound fn₀ (fun _ _ => False) w.state) (howner : o ∈ (fn₀.block bb).ops) :
    Ensures (simplify o (some bb)) w fun _ w' =>
      w'.Fine ∧ Simplified fn₀ o w.state w'.state := by
  refine .bind (get_ensures ?_)
  rw [hs.redirected.alike.ops]
  have hidle : o ∈ List.range fn₀.ops.length := List.mem_range.mpr (hw.opLt bb o howner)
  have hnone : NoneHeld fn₀ (List.range fn₀.ops.length) := fun b jmp hjmp =>
    List.mem_range.mpr (hw.opLt b jmp (Func.leadingJump_eq_some hjmp).1)
  refine (Ensures.all fun P => simplifyIdle_ensures P hw List.nodup_range hnone hfine hs hidle
    howner).mono fun _ w' h => ?_
  obtain ⟨hfine', hs', -⟩ := h fun _ => True
  exact ⟨hfine', hnone.simplified hs.redirected hs' (fun P => (h P).2.2.1) fun P => (h P).2.2.2⟩

end Watched

end Threading

end FlowGraph
