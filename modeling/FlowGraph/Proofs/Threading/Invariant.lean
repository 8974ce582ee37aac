import Mathlib
import FlowGraph.Proofs.Chain
import FlowGraph.Proofs.Loaded

/-! What holds of the state of a pass between any two of its steps, and what no step takes back.

`Redirected` compares the graph with the one the pass began with: every reference leads where it
led, past eliminated blocks only. `Retired` says what an eliminated block is, above all that its
jumps lead out of the eliminated blocks. `Linked` ties parents to edges; its exceptions are the
references that have been found but not yet written back. `Evolves` relates an earlier state to
a later one. -/

namespace FlowGraph

namespace Threading

variable {fn₀ : Func} {s t u : Threading} {b c d p : BlockRef} {o : OpRef} {i j : Nat} {k : Int}

/-- A reference that may have been moved past the listed blocks, along the jumps of `fn₀`. -/
def Moved (fn₀ : Func) (removed : List BlockRef) (x y : Target) : Prop :=
  y.key = x.key ∧ Option.Rel (fn₀.Through removed) x.block y.block

theorem Moved.mono {l l' : List BlockRef} {x y : Target} (hl : l ⊆ l') (h : Moved fn₀ l x y) :
    Moved fn₀ l' x y := by
  obtain ⟨kx, bx⟩ := x
  obtain ⟨ky, by'⟩ := y
  obtain ⟨hkey, hblock⟩ := h
  refine ⟨hkey, ?_⟩
  cases hblock with
  | none => exact .none
  | some hthrough => exact .some (hthrough.mono hl)

theorem Moved.trans {l : List BlockRef} {x y z : Target} (h : Moved fn₀ l x y)
    (h' : Moved fn₀ l y z) : Moved fn₀ l x z := by
  obtain ⟨kx, bx⟩ := x
  obtain ⟨ky, by'⟩ := y
  obtain ⟨kz, bz⟩ := z
  refine ⟨h'.1.trans h.1, ?_⟩
  cases h.2 with
  | none => cases h'.2; exact .none
  | some hxy =>
    cases h'.2 with
    | some hyz => exact .some (hxy.trans hyz)

theorem rel_moved_mono {l l' : List BlockRef} {x y : Option Target} (hl : l ⊆ l')
    (h : Option.Rel (Moved fn₀ l) x y) : Option.Rel (Moved fn₀ l') x y := by
  cases h with
  | none => exact .none
  | some h => exact .some (h.mono hl)

theorem rel_moved_trans {l : List BlockRef} {x y z : Option Target}
    (h : Option.Rel (Moved fn₀ l) x y) (h' : Option.Rel (Moved fn₀ l) y z) :
    Option.Rel (Moved fn₀ l) x z := by
  cases h with
  | none => cases h'; exact .none
  | some h => cases h' with
    | some h' => exact .some (h.trans h')

structure Redirected (fn₀ : Func) (s : Threading) : Prop where
  alike : fn₀.Alike s.fn
  slots : ∀ o i j, Option.Rel (Moved fn₀ s.removed) (fn₀.slot? o i j) (s.fn.slot? o i j)
  phis : ∀ b, (s.fn.block b).phis = [] ∨ (s.fn.block b).phis = (fn₀.block b).phis

structure Retired (s : Threading) : Prop where
  dead : ∀ b, (s.fn.block b).dead = true ↔ b ∈ s.removed
  jump : ∀ b ∈ s.removed, (s.fn.leadingJump b).isSome
  phis : ∀ b ∈ s.removed, (s.fn.block b).phis = []
  exits : ∀ b ∈ s.removed, ∃ d, s.fn.Through s.removed b d ∧ d ∉ s.removed

/-- Parents and edges agree between blocks that are not eliminated, apart from the parents in
`pending`, whose edge is still to be written. -/
structure Linked (pending : BlockRef → BlockRef → Prop) (s : Threading) : Prop where
  nodup : ∀ b, (s.fn.block b).parents.Nodup
  real : ∀ b, none ∉ (s.fn.block b).parents
  parent : ∀ p b, p ∉ s.removed → s.fn.Refers p b → some p ∈ (s.fn.block b).parents
  edge : ∀ p b, p ∉ s.removed → b ∉ s.removed → some p ∈ (s.fn.block b).parents →
    s.fn.Refers p b ∨ pending p b

/-- From an earlier state to a later one: blocks stay eliminated, references to the others
stay, a jump of a block to itself stays, and only an eliminated block stops being a parent.
Nothing is rejected where there are no phi nodes. -/
structure Evolves (s t : Threading) : Prop where
  alike : s.fn.Alike t.fn
  removed : s.removed ⊆ t.removed
  rejects : s.stats.phiRejects ≤ t.stats.phiRejects
  accepts : (∀ b, (s.fn.block b).phis = []) → t.stats.phiRejects = s.stats.phiRejects
  phis : ∀ b, (t.fn.block b).phis = [] ∨ (t.fn.block b).phis = (s.fn.block b).phis
  slots : ∀ o i j k b, s.fn.slot? o i j = some ⟨k, some b⟩ → b ∉ t.removed →
    t.fn.slot? o i j = some ⟨k, some b⟩
  loops : ∀ b, s.fn.next b = some b → t.fn.next b = some b
  parents : ∀ b p, some p ∈ (s.fn.block b).parents → p ∉ t.removed →
    some p ∈ (t.fn.block b).parents

theorem Evolves.refl (s : Threading) : Evolves s s where
  alike := .refl _
  removed := fun _ h => h
  rejects := Nat.le_refl _
  accepts _ := rfl
  phis _ := .inr rfl
  slots _ _ _ _ _ h _ := h
  loops _ h := h
  parents _ _ h _ := h

theorem Evolves.trans (h : Evolves s t) (h' : Evolves t u) : Evolves s u where
  alike := h.alike.trans h'.alike
  removed := fun _ hb => h'.removed (h.removed hb)
  rejects := Nat.le_trans h.rejects h'.rejects
  accepts hn := by
    rw [h'.accepts fun b => (h.phis b).elim id (·.trans (hn b)), h.accepts hn]
  phis b := by
    rcases h'.phis b with he | he
    · exact .inl he
    · exact (h.phis b).imp he.trans he.trans
  slots o i j k b hs hb := h'.slots o i j k b (h.slots o i j k b hs fun hm => hb (h'.removed hm)) hb
  loops b hb := h'.loops b (h.loops b hb)
  parents b p hp hr := h'.parents b p (h.parents b p hp fun hm => hr (h'.removed hm)) hr

/-! ## References and chains in the graph of a pass -/

namespace Redirected

theorem slot_of (h : Redirected fn₀ s) (hs : fn₀.slot? o i j = some ⟨k, some b⟩) :
    ∃ c, s.fn.slot? o i j = some ⟨k, some c⟩ ∧ fn₀.Through s.removed b c := by
  have hrel := h.slots o i j
  rw [hs] at hrel
  rcases hy : s.fn.slot? o i j with _ | ⟨k', _ | c⟩ <;> rw [hy] at hrel <;> cases hrel
  · rename_i hm
    cases hm.2
  · rename_i hm
    obtain ⟨rfl, hblock⟩ := hm
    cases hblock with
    | some hthrough => exact ⟨c, rfl, hthrough⟩

theorem slot_from (h : Redirected fn₀ s) (hs : s.fn.slot? o i j = some ⟨k, some c⟩) :
    ∃ b, fn₀.slot? o i j = some ⟨k, some b⟩ ∧ fn₀.Through s.removed b c := by
  have hrel := h.slots o i j
  rw [hs] at hrel
  rcases hx : fn₀.slot? o i j with _ | ⟨k', _ | b⟩ <;> rw [hx] at hrel <;> cases hrel
  · rename_i hm
    cases hm.2
  · rename_i hm
    obtain ⟨rfl, hblock⟩ := hm
    cases hblock with
    | some hthrough => exact ⟨b, rfl, hthrough⟩

/-- A leading jump goes where it went at first, past eliminated blocks. -/
theorem next_through (h : Redirected fn₀ s) (hn : s.fn.next b = some c) :
    ∃ m, fn₀.next b = some m ∧ fn₀.Through s.removed m c := by
  obtain ⟨jmp, k, hjmp, hy⟩ := Func.next_eq_some hn
  obtain ⟨m, hm, hthrough⟩ := h.slot_from hy
  exact ⟨m, by simp [Func.next, ← h.alike.leadingJump, hjmp, hm], hthrough⟩

/-- Every trampoline leads somewhere. -/
theorem next_isSome (h : Redirected fn₀ s) (hw : fn₀.Loaded)
    (hj : (s.fn.leadingJump b).isSome) : ∃ c, s.fn.next b = some c := by
  obtain ⟨jmp, hjmp⟩ := Option.isSome_iff_exists.mp hj
  have hjmp₀ : fn₀.leadingJump b = some jmp := by rw [← h.alike.leadingJump]; exact hjmp
  obtain ⟨m, hop⟩ := hw.jump jmp (Func.leadingJump_eq_some hjmp₀).2
  obtain ⟨c, hc, -⟩ := h.slot_of (o := jmp) (i := 0) (j := 0) (by rw [Func.slot?_jump hop]; rfl)
  exact ⟨c, by simp [Func.next, hjmp, hc]⟩

theorem through (h : Redirected fn₀ s) (hb : s.fn.Through s.removed b c) :
    fn₀.Through s.removed b c := by
  induction hb with
  | refl => exact .refl
  | tail _ hv ih =>
    obtain ⟨m, hm, hthrough⟩ := h.next_through hv.2
    exact ih.trans (hthrough.head hv.1 hm)

theorem bound (h : Redirected fn₀ s) (hw : fn₀.Loaded)
    (hs : s.fn.slot? o i j = some ⟨k, some b⟩) : b < s.fn.blocks.length := by
  obtain ⟨m, hm, hthrough⟩ := h.slot_from hs
  rw [h.alike.blocks]
  induction hthrough with
  | refl => exact hw.bound o i j k m hm
  | tail _ hv _ =>
    obtain ⟨jmp, k', -, hy⟩ := Func.next_eq_some hv.2
    exact hw.bound jmp 0 0 k' _ hy

theorem next_lt (h : Redirected fn₀ s) (hw : fn₀.Loaded) (hn : s.fn.next b = some c) :
    c < s.fn.blocks.length := by
  obtain ⟨jmp, k, -, hy⟩ := Func.next_eq_some hn
  exact h.bound hw hy

end Redirected

/-- An eliminated block cannot jump to itself. -/
theorem Retired.not_mem_of_loop (h : Retired s) (hn : s.fn.next b = some b) : b ∉ s.removed := by
  intro hb
  obtain ⟨d, hthrough, hd⟩ := h.exits b hb
  obtain ⟨k, hk⟩ := hthrough.exitsIn hd
  exact hk.next_ne hb hn

theorem Retired.not_mem_of_no_jump (h : Retired s) (hj : s.fn.leadingJump b = none) :
    b ∉ s.removed := by
  intro hb
  have := h.jump b hb
  rw [hj] at this
  cases this

/-! ## Steps that leave all references alone -/

/-- Blocks may be eliminated that lead to `dest`; `dest` loses them as parents and gains `bb`. -/
structure Retires (gone : List BlockRef) (dest bb : BlockRef) (s t : Threading) : Prop where
  alike : s.fn.Alike t.fn
  op : ∀ o, t.fn.op o = s.fn.op o
  rejects : t.stats.phiRejects = s.stats.phiRejects
  removed : ∀ c, c ∈ t.removed ↔ c ∈ s.removed ∨ c ∈ gone
  dead : ∀ c, (t.fn.block c).dead = true ↔ (s.fn.block c).dead = true ∨ c ∈ gone
  phis : ∀ c, (t.fn.block c).phis = if c ∈ gone then [] else (s.fn.block c).phis
  nodup : ∀ c, (t.fn.block c).parents.Nodup
  parents : ∀ c q, q ∈ (t.fn.block c).parents ↔
    (q ∈ (s.fn.block c).parents ∧ ∀ b ∈ gone, ¬(c = dest ∧ q = some b)) ∨ (c = dest ∧ q = some bb)

namespace Retires

variable {gone : List BlockRef} {dest bb : BlockRef}

theorem slot? (h : Retires gone dest bb s t) (o : OpRef) (i j : Nat) :
    t.fn.slot? o i j = s.fn.slot? o i j := by
  rw [Func.slot?, h.op, Func.slot?]

theorem next (h : Retires gone dest bb s t) (b : BlockRef) : t.fn.next b = s.fn.next b := by
  simp only [Func.next, h.alike.leadingJump, h.slot?]

theorem subset (h : Retires gone dest bb s t) : s.removed ⊆ t.removed :=
  fun c hc => (h.removed c).mpr (.inl hc)

theorem refers (h : Retires gone dest bb s t) (p b : BlockRef) :
    t.fn.Refers p b ↔ s.fn.Refers p b := by
  simp only [Func.Refers, h.alike.blockOps, h.slot?]

theorem redirected (h : Retires gone dest bb s t) (hs : Redirected fn₀ s) : Redirected fn₀ t where
  alike := hs.alike.trans h.alike
  slots o i j := by
    rw [h.slot?]
    exact rel_moved_mono h.subset (hs.slots o i j)
  phis b := by
    rw [h.phis]
    split
    · exact .inl rfl
    · exact hs.phis b

theorem retired (h : Retires gone dest bb s t) (hs : Retired s) (hdest : dest ∉ t.removed)
    (hgone : ∀ b ∈ gone, s.fn.next b = some dest) : Retired t where
  dead c := by rw [h.dead, h.removed, hs.dead]
  jump c hc := by
    rw [h.alike.leadingJump]
    rcases (h.removed c).mp hc with hc | hc
    · exact hs.jump c hc
    · exact Func.isSome_leadingJump_of_next (hgone c hc)
  phis c hc := by
    rw [h.phis]
    split
    · rfl
    · rename_i hn
      exact hs.phis c (((h.removed c).mp hc).resolve_right hn)
  exits b hb := by
    obtain ⟨d, hthrough, hd⟩ := Func.exits_of_grown h.removed hgone hdest hs.exits b hb
    exact ⟨d, hthrough.congr h.next, hd⟩

theorem linked {pending : BlockRef → BlockRef → Prop} (h : Retires gone dest bb s t)
    (hs : Linked pending s) : Linked (fun p c => pending p c ∨ (p = bb ∧ c = dest)) t where
  nodup := h.nodup
  real c hn := by
    rcases (h.parents c none).mp hn with ⟨hn, -⟩ | ⟨-, hn⟩
    · exact hs.real c hn
    · cases hn
  parent p c hp hr := by
    have hps : p ∉ s.removed := fun hm => hp (h.subset hm)
    refine (h.parents c _).mpr (.inl ⟨hs.parent p c hps ((h.refers p c).mp hr), ?_⟩)
    rintro b hb ⟨-, he⟩
    cases he
    exact hp ((h.removed p).mpr (.inr hb))
  edge p c hp hc hm := by
    have hps : p ∉ s.removed := fun hm => hp (h.subset hm)
    have hcs : c ∉ s.removed := fun hm => hc (h.subset hm)
    rcases (h.parents c _).mp hm with ⟨hm, -⟩ | ⟨hcd, he⟩
    · rcases hs.edge p c hps hcs hm with hr | hpend
      · exact .inl ((h.refers p c).mpr hr)
      · exact .inr (.inl hpend)
    · cases he
      exact .inr (.inr ⟨rfl, hcd⟩)

theorem evolves (h : Retires gone dest bb s t) : Evolves s t where
  alike := h.alike
  removed := h.subset
  rejects := Nat.le_of_eq h.rejects.symm
  accepts _ := h.rejects
  phis c := by
    rw [h.phis]
    split
    · exact .inl rfl
    · exact .inr rfl
  slots o i j k b hs _ := (h.slot? o i j).trans hs
  loops b hb := (h.next b).trans hb
  parents c p hp hr := by
    refine (h.parents c _).mpr (.inl ⟨hp, ?_⟩)
    rintro b hb ⟨-, he⟩
    cases he
    exact hr ((h.removed p).mpr (.inr hb))

theorem registered (h : Retires gone dest bb s t) : some bb ∈ (t.fn.block dest).parents :=
  (h.parents dest _).mpr (.inr ⟨rfl, rfl⟩)

end Retires

/-! ## Writing references back -/

/-- Attribute `i` of an operation takes the references `tt`, which lead on from those it had. -/
structure Stores (fn₀ : Func) (o : OpRef) (i : Nat) (tt : List Target) (s t : Threading) :
    Prop where
  alike : s.fn.Alike t.fn
  blocks : t.fn.blocks = s.fn.blocks
  removed : t.removed = s.removed
  rejects : t.stats.phiRejects = s.stats.phiRejects
  other : ∀ o', o' ≠ o → t.fn.op o' = s.fn.op o'
  slot : ∀ i' j, t.fn.slot? o i' j = if i' = i then tt[j]? else s.fn.slot? o i' j
  moved : ∀ j, Option.Rel (Moved fn₀ s.removed) (s.fn.slot? o i j) tt[j]?

namespace Stores

variable {tt : List Target} {bb : BlockRef}

theorem slot_ne (h : Stores fn₀ o i tt s t) {o' : OpRef} (ho : o' ≠ o) (i' j : Nat) :
    t.fn.slot? o' i' j = s.fn.slot? o' i' j := by
  rw [Func.slot?, h.other o' ho, Func.slot?]

theorem next_ne (h : Stores fn₀ o i tt s t) (hb : s.fn.leadingJump b ≠ some o) :
    t.fn.next b = s.fn.next b := by
  simp only [Func.next, h.alike.leadingJump]
  cases hj : s.fn.leadingJump b with
  | none => rfl
  | some jmp =>
    have hne : jmp ≠ o := fun he => hb (he ▸ hj)
    simp only [Option.bind_some, h.slot_ne hne]

theorem redirected (h : Stores fn₀ o i tt s t) (hs : Redirected fn₀ s) : Redirected fn₀ t where
  alike := hs.alike.trans h.alike
  slots o' i' j := by
    rw [h.removed]
    by_cases ho : o' = o
    · subst ho
      rw [h.slot]
      split
      · rename_i hi
        subst hi
        exact rel_moved_trans (hs.slots o' i' j) (h.moved j)
      · exact hs.slots o' i' j
    · rw [h.slot_ne ho]
      exact hs.slots o' i' j
  phis b := by rw [Func.block, h.blocks]; exact hs.phis b

/-- A reference to a block that is not eliminated is written as it was read. -/
theorem slot_kept (h : Stores fn₀ o i tt s t) {o' : OpRef} {i' : Nat}
    (hs : s.fn.slot? o' i' j = some ⟨k, some b⟩) (hb : b ∉ s.removed) :
    t.fn.slot? o' i' j = some ⟨k, some b⟩ := by
  by_cases ho : o' = o
  · subst ho
    rw [h.slot]
    split
    · rename_i hi
      subst hi
      have hrel := h.moved j
      rw [hs] at hrel
      rcases hz : tt[j]? with _ | ⟨k', _ | z⟩ <;> rw [hz] at hrel <;> cases hrel
      · rename_i hm
        cases hm.2
      · rename_i hm
        obtain ⟨rfl, hblock⟩ := hm
        cases hblock with
        | some hthrough => rw [hthrough.eq_of_not_mem hb]
    · exact hs
  · rw [h.slot_ne ho]
    exact hs

theorem retired (h : Stores fn₀ o i tt s t) (hs : Retired s) (hr : Redirected fn₀ t)
    (hw : fn₀.Loaded)
    (hlead : ∀ b, s.fn.leadingJump b = some o → ∀ d, t.fn.next b = some d → d ∉ s.removed) :
    Retired t where
  dead b := by rw [Func.block, h.blocks, h.removed]; exact hs.dead b
  jump b hb := by rw [h.alike.leadingJump]; exact hs.jump b (h.removed ▸ hb)
  phis b hb := by rw [Func.block, h.blocks]; exact hs.phis b (h.removed ▸ hb)
  exits := by
    intro b hb
    rw [h.removed] at hb ⊢
    obtain ⟨d, hthrough, hd⟩ := hs.exits b hb
    clear hb
    induction hthrough using Relation.ReflTransGen.head_induction_on with
    | refl => exact ⟨d, .refl, hd⟩
    | @head b c hv _ ih =>
      by_cases hj : s.fn.leadingJump b = some o
      · -- the jump that is written leads out at once
        obtain ⟨e, he⟩ := hr.next_isSome hw (b := b) (by rw [h.alike.leadingJump, hj]; rfl)
        exact ⟨e, .head hv.1 he .refl, hlead b hj e he⟩
      · obtain ⟨e, hthrough, he⟩ := ih
        exact ⟨e, hthrough.head hv.1 ((h.next_ne hj).trans hv.2), he⟩

theorem linked {pending : BlockRef → BlockRef → Prop} (h : Stores fn₀ o i tt s t)
    (hs : Linked (fun p c => pending p c ∨ (p = bb ∧ ∃ x ∈ tt, x.block = some c)) s)
    (howner : ∀ p, o ∈ (s.fn.block p).ops ↔ p = bb)
    (hreg : ∀ x ∈ tt, ∀ c, x.block = some c →
      bb ∈ s.removed ∨ some bb ∈ (s.fn.block c).parents) : Linked pending t := by
  have hblock : ∀ b, t.fn.block b = s.fn.block b := fun b => by rw [Func.block, h.blocks, Func.block]
  refine ⟨?_, ?_, ?_, ?_⟩
  · intro b; rw [hblock]; exact hs.nodup b
  · intro b; rw [hblock]; exact hs.real b
  · rintro p c hp ⟨o', ho', i', j, k, hslot⟩
    rw [hblock] at ho' ⊢
    rw [h.removed] at hp
    by_cases ho : o' = o
    · subst ho
      obtain rfl := (howner p).mp ho'
      rw [h.slot] at hslot
      split at hslot
      · exact (hreg _ (List.mem_of_getElem? hslot) c rfl).resolve_left hp
      · exact hs.parent p c hp ⟨o', ho', i', j, k, hslot⟩
    · rw [h.slot_ne ho] at hslot
      exact hs.parent p c hp ⟨o', ho', i', j, k, hslot⟩
  · intro p c hp hc hm
    rw [h.removed] at hp hc
    rw [hblock] at hm
    rcases hs.edge p c hp hc hm with ⟨o', ho', i', j, k, hslot⟩ | hpend | ⟨rfl, x, hx, hxc⟩
    · exact .inl ⟨o', by rw [hblock]; exact ho', i', j, k, h.slot_kept hslot hc⟩
    · exact .inr hpend
    · obtain ⟨j, hj⟩ := List.mem_iff_getElem?.mp hx
      obtain ⟨k, _⟩ := x
      cases hxc
      exact .inl ⟨o, by rw [hblock]; exact (howner p).mpr rfl, i, j, k, by rw [h.slot, if_pos rfl]; exact hj⟩

theorem evolves (h : Stores fn₀ o i tt s t) (hs : Retired s) : Evolves s t where
  alike := h.alike
  removed := by rw [h.removed]; exact fun _ hb => hb
  rejects := Nat.le_of_eq h.rejects.symm
  accepts _ := h.rejects
  phis b := .inr (by rw [Func.block, h.blocks, Func.block])
  slots o i j k b hslot hb := h.slot_kept hslot (h.removed ▸ hb)
  loops b hn := by
    have hb := hs.not_mem_of_loop hn
    obtain ⟨jmp, k, hjmp, hy⟩ := Func.next_eq_some hn
    simp [Func.next, h.alike.leadingJump, hjmp, h.slot_kept hy hb]
  parents b p hp _ := by rw [Func.block, h.blocks]; exact hp

end Stores

/-! ## Where a pass without rejections leads -/

/-- A block that a reference to it can never be moved past. -/
def Settled (fn : Func) (b : BlockRef) : Prop := fn.leadingJump b = none ∨ fn.next b = some b

/-- A block that is settled, or of the kind `P` that may stay as it is. -/
def Firm (P : BlockRef → Prop) (fn : Func) (b : BlockRef) : Prop := Settled fn b ∨ P b

/-- A block that a jump leads to whose threading has begun further out. -/
def Held (idle : List OpRef) (fn : Func) (d : BlockRef) : Prop :=
  ∃ b jmp, fn.leadingJump b = some jmp ∧ jmp ∉ idle ∧ fn.next b = some d

/-- Eliminated blocks lead, one after the other, to firm blocks, or to blocks held by a jump that
is being threaded. -/
def Quiet (P : BlockRef → Prop) (idle : List OpRef) (s : Threading) : Prop :=
  ∀ b ∈ s.removed, ∀ d, s.fn.next b = some d →
    d ∈ s.removed ∨ Firm P s.fn d ∨ Held idle s.fn d

variable {P : BlockRef → Prop} {idle : List OpRef}

theorem Settled.evolves (h : Settled s.fn b) (he : Evolves s t) : Settled t.fn b := by
  rcases h with h | h
  · exact .inl ((he.alike.leadingJump b).trans h)
  · exact .inr (he.loops b h)

theorem Firm.evolves (h : Firm P s.fn b) (he : Evolves s t) : Firm P t.fn b :=
  h.imp_left fun hset => hset.evolves he

theorem Held.transfer {fn fn' : Func} (h : Held idle fn d) (ha : fn.Alike fn')
    (hbusy : ∀ o ∉ idle, fn'.op o = fn.op o) : Held idle fn' d := by
  obtain ⟨b, jmp, hjmp, hidle, hn⟩ := h
  refine ⟨b, jmp, (ha.leadingJump b).trans hjmp, hidle, ?_⟩
  rw [← hn]
  simp only [Func.next, ha.leadingJump, hjmp, Option.bind_some, Func.slot?, hbusy jmp hidle]

theorem Held.erase {fn : Func} (h : Held idle fn d) : Held (idle.erase o) fn d := by
  obtain ⟨b, jmp, hjmp, hidle, hn⟩ := h
  exact ⟨b, jmp, hjmp, fun hm => hidle (List.mem_of_mem_erase hm), hn⟩

/-- When one more operation is busy, only its own jump holds anything new. -/
theorem Held.of_erase {fn : Func} (h : Held (idle.erase o) fn d) :
    Held idle fn d ∨ ∃ b, fn.leadingJump b = some o ∧ fn.next b = some d := by
  obtain ⟨b, jmp, hjmp, hidle, hn⟩ := h
  by_cases ho : jmp = o
  · exact .inr ⟨b, ho ▸ hjmp, hn⟩
  · exact .inl ⟨b, jmp, hjmp, fun hm => hidle ((List.mem_erase_of_ne ho).mpr hm), hn⟩

theorem Quiet.erase (h : Quiet P idle s) : Quiet P (idle.erase o) s :=
  fun b hb d hn => (h b hb d hn).imp id (Or.imp id Held.erase)

theorem Stores.held {tt : List Target} (h : Stores fn₀ o i tt s t) (ho : o ∈ idle)
    (hh : Held idle s.fn d) : Held idle t.fn d :=
  hh.transfer h.alike fun _ ho' => h.other _ fun he => ho' (he ▸ ho)

/-- When the threading of an operation ends, its jump no longer holds what it led to, and leads
to a place that others hold or that is firm. -/
theorem Stores.quiet {tt : List Target} (h : Stores fn₀ o i tt s t) (hs : Retired s)
    (ho : o ∈ idle) (hq : Quiet P (idle.erase o) s)
    (hold : ∀ x d, s.fn.leadingJump x = some o → s.fn.next x = some d →
      d ∈ s.removed ∨ Firm P s.fn d)
    (hnew : ∀ x d, t.fn.leadingJump x = some o → t.fn.next x = some d →
      Firm P t.fn d ∨ Held idle t.fn d) : Quiet P idle t := by
  intro b hb d hn
  have hevolves := h.evolves hs
  by_cases hj : s.fn.leadingJump b = some o
  · exact .inr (hnew b d ((h.alike.leadingJump b).trans hj) hn)
  · rw [h.next_ne hj] at hn
    rcases hq b (h.removed ▸ hb) d hn with hm | hset | hheld
    · exact .inl (hevolves.removed hm)
    · exact .inr (.inl (hset.evolves hevolves))
    · rcases hheld.of_erase with hheld | ⟨x, hx, hnx⟩
      · exact .inr (.inr (h.held ho hheld))
      · exact (hold x d hx hnx).imp (fun hm => hevolves.removed hm)
          fun hset => .inl (hset.evolves hevolves)

theorem Quiet.exit (h : Quiet P idle s) (hb : b ∈ s.removed)
    (hthrough : s.fn.Through s.removed b d) (hd : d ∉ s.removed) :
    Firm P s.fn d ∨ Held idle s.fn d := by
  rcases Relation.ReflTransGen.cases_tail hthrough with rfl | ⟨x, -, hv⟩
  · exact absurd hb hd
  · exact (h x hv.1 d hv.2).resolve_left hd

theorem Retires.quiet {gone : List BlockRef} {dest bb : BlockRef}
    (h : Retires gone dest bb s t) (hq : Quiet P idle s)
    (hgone : ∀ b ∈ gone, s.fn.next b = some dest ∧
      (Firm P s.fn dest ∨ Held idle s.fn dest)) : Quiet P idle t := by
  intro b hb d hn
  rw [h.next] at hn
  have hlift : Firm P s.fn d ∨ Held idle s.fn d →
      Firm P t.fn d ∨ Held idle t.fn d := by
    rintro (hs | hh)
    · exact .inl (hs.evolves h.evolves)
    · exact .inr (hh.transfer h.alike fun o _ => h.op o)
  rcases (h.removed b).mp hb with hb | hb
  · rcases hq b hb d hn with hm | hd
    · exact .inl (h.subset hm)
    · exact .inr (hlift hd)
  · obtain ⟨hnext, hd⟩ := hgone b hb
    cases hnext.symm.trans hn
    exact .inr (hlift hd)

end Threading

end FlowGraph
