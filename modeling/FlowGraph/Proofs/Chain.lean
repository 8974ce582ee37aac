import Mathlib
import FlowGraph.Proofs.Edges
import FlowGraph.Threading

/-! Chains of leading jumps. `Through` follows them as long as they start at blocks of a given
list. A chain that leaves the list does so within as many steps as the list has elements, since
it never comes back to a block that it has passed; so a bounded walk finds the way out. -/

namespace FlowGraph

namespace Func

open Relation

variable {fn fn' : Func} {l l' : List BlockRef} {b c d : BlockRef} {k m : Nat}

/-- The leading jump of a block of the list. -/
def Via (fn : Func) (l : List BlockRef) (b c : BlockRef) : Prop := b ∈ l ∧ fn.next b = some c

/-- Leading jumps, taken at blocks of the list only. -/
def Through (fn : Func) (l : List BlockRef) : BlockRef → BlockRef → Prop :=
  ReflTransGen (fn.Via l)

theorem Through.refl : fn.Through l b b := ReflTransGen.refl

theorem Through.trans (h : fn.Through l b c) (h' : fn.Through l c d) : fn.Through l b d :=
  ReflTransGen.trans h h'

theorem Through.head (hb : b ∈ l) (hn : fn.next b = some c) (h : fn.Through l c d) :
    fn.Through l b d := ReflTransGen.head ⟨hb, hn⟩ h

theorem Through.mono (hl : l ⊆ l') (h : fn.Through l b c) : fn.Through l' b c :=
  ReflTransGen.mono (fun _ _ hv => ⟨hl hv.1, hv.2⟩) _ _ h

theorem Through.eq_of_not_mem (h : fn.Through l b c) (hb : b ∉ l) : c = b := by
  rcases ReflTransGen.cases_head h with rfl | ⟨x, hx, -⟩
  · rfl
  · exact absurd hx.1 hb

theorem Through.mem_of_ne (h : fn.Through l b c) (hne : c ≠ b) : b ∈ l :=
  Classical.byContradiction fun hb => hne (h.eq_of_not_mem hb)

theorem Through.congr (hn : ∀ b, fn'.next b = fn.next b) (h : fn.Through l b c) :
    fn'.Through l b c := ReflTransGen.mono (fun x _ hv => ⟨hv.1, (hn x).trans hv.2⟩) _ _ h

/-- Leading jumps, taken anywhere. -/
def Leads (fn : Func) : BlockRef → BlockRef → Prop := ReflTransGen fun b c => fn.next b = some c

theorem Leads.refl : fn.Leads b b := ReflTransGen.refl

theorem Leads.trans (h : fn.Leads b c) (h' : fn.Leads c d) : fn.Leads b d := ReflTransGen.trans h h'

theorem Leads.head (hn : fn.next b = some c) (h : fn.Leads c d) : fn.Leads b d :=
  ReflTransGen.head hn h

theorem Leads.congr (hn : ∀ b, fn'.next b = fn.next b) (h : fn.Leads b c) : fn'.Leads b c :=
  ReflTransGen.mono (fun x _ hv => (hn x).trans hv) _ _ h

theorem Through.leads (h : fn.Through l b c) : fn.Leads b c :=
  ReflTransGen.mono (fun _ _ hv => hv.2) _ _ h

theorem Leads.total (hc : fn.Leads b c) (hd : fn.Leads b d) : fn.Leads c d ∨ fn.Leads d c :=
  ReflTransGen.total_of_right_unique
    (fun _ _ _ h h' => Option.some.inj (h.symm.trans h')) hc hd

/-- Leading jumps lead from the block back to it. -/
def OnRing (fn : Func) (b : BlockRef) : Prop := ∃ m, fn.next b = some m ∧ fn.Leads m b

theorem OnRing.leads_back (h : fn.OnRing b) (hc : fn.Leads b c) : fn.Leads c b := by
  obtain ⟨m, hm, hback⟩ := h
  induction hc with
  | refl => exact .refl
  | tail _ hn ih =>
    rcases ReflTransGen.cases_head ih with rfl | ⟨y, hy, hrest⟩
    · cases hm.symm.trans hn
      exact hback
    · cases hn.symm.trans hy
      exact hrest

/-- Blocks that lead to `d` may join the list: ways out that ended at one of them go on. -/
theorem exits_of_grown {gone : List BlockRef} (hl : ∀ c, c ∈ l' ↔ c ∈ l ∨ c ∈ gone)
    (hgone : ∀ b ∈ gone, fn.next b = some d) (hd : d ∉ l')
    (h : ∀ b ∈ l, ∃ c, fn.Through l b c ∧ c ∉ l) :
    ∀ b ∈ l', ∃ c, fn.Through l' b c ∧ c ∉ l' := by
  have hout : ∀ b ∈ gone, fn.Through l' b d := fun b hb =>
    .head ((hl b).mpr (.inr hb)) (hgone b hb) .refl
  intro b hb
  rcases (hl b).mp hb with hb | hb
  · obtain ⟨c, hthrough, hc⟩ := h b hb
    have hlift : fn.Through l' b c := hthrough.mono fun x hx => (hl x).mpr (.inl hx)
    by_cases hg : c ∈ gone
    · exact ⟨d, hlift.trans (hout c hg), hd⟩
    · exact ⟨c, hlift, fun hm => ((hl c).mp hm).elim hc hg⟩
  · exact ⟨d, hout b hb, hd⟩

/-- A step-counted way out of a list of blocks. -/
inductive ExitsIn (fn : Func) (l : List BlockRef) : Nat → BlockRef → BlockRef → Prop
  | out {d : BlockRef} : d ∉ l → ExitsIn fn l 0 d d
  | step {b c d : BlockRef} {k : Nat} : b ∈ l → fn.next b = some c → ExitsIn fn l k c d →
      ExitsIn fn l (k + 1) b d

theorem ExitsIn.through (h : fn.ExitsIn l k b d) : fn.Through l b d := by
  induction h with
  | out => exact .refl
  | step hb hn _ ih => exact ih.head hb hn

theorem Through.exitsIn (h : fn.Through l b d) (hd : d ∉ l) : ∃ k, fn.ExitsIn l k b d := by
  induction h using ReflTransGen.head_induction_on with
  | refl => exact ⟨0, .out hd⟩
  | head hv _ ih =>
    obtain ⟨k, hk⟩ := ih
    exact ⟨k + 1, .step hv.1 hv.2 hk⟩

/-- Jumps are deterministic: both the way out and its length are unique. -/
theorem ExitsIn.unique {d' : BlockRef} (h : fn.ExitsIn l k b d) (h' : fn.ExitsIn l m b d') :
    m = k ∧ d' = d := by
  induction h generalizing m d' with
  | out hd =>
    cases h' with
    | out => exact ⟨rfl, rfl⟩
    | step hb => exact absurd hb hd
  | step hb hn _ ih =>
    cases h' with
    | out hd => exact absurd hb hd
    | step _ hn' h' =>
      cases hn.symm.trans hn'
      obtain ⟨rfl, rfl⟩ := ih h'
      exact ⟨rfl, rfl⟩

/-- A shorter way out cannot pass a block that needs more steps. -/
theorem ExitsIn.avoid (h : fn.ExitsIn l k c d) (h' : fn.ExitsIn l m b d) (hlt : k < m) :
    fn.ExitsIn (l.filter (· ≠ b)) k c d := by
  induction h with
  | out hd => exact .out (by simp [hd])
  | @step c x d k hc hn htail ih =>
    have hne : c ≠ b := by
      rintro rfl
      have := ((ExitsIn.step hc hn htail).unique h').1
      omega
    exact .step (by simp [hc, hne]) hn (ih h' (by omega))

theorem ExitsIn.le_length (h : fn.ExitsIn l k b d) : k ≤ l.length := by
  induction k generalizing l b with
  | zero => omega
  | succ k ih =>
    cases h with
    | @step _ c _ _ hb hn htail =>
      have hk := ih (htail.avoid (.step hb hn htail) (Nat.lt_succ_self k))
      have hlt : (l.filter (· ≠ b)).length < l.length :=
        List.length_filter_lt_length_iff_exists.mpr ⟨b, hb, by simp⟩
      omega

/-- A block whose jump leads back to itself is never left. -/
theorem ExitsIn.next_ne (h : fn.ExitsIn l k b d) (hb : b ∈ l) : fn.next b ≠ some b := by
  intro hn
  cases h with
  | out hd => exact hd hb
  | step _ hn' htail =>
    cases hn.symm.trans hn'
    have := ((ExitsIn.step hb hn htail).unique htail).1
    omega

end Func

namespace Threading

variable {fn : Func} {removed : List BlockRef} {b c d : BlockRef} {k steps : Nat}

theorem target_of_next (h : fn.next b = some c) :
    ∃ jmp, fn.leadingJump b = some jmp ∧ target fn b jmp = .ok c := by
  obtain ⟨jmp, hjmp⟩ := Option.isSome_iff_exists.mp (Func.isSome_leadingJump_of_next h)
  refine ⟨jmp, hjmp, ?_⟩
  have hj := (Func.leadingJump_eq_some hjmp).2
  cases hop : fn.op jmp with
  | jump t =>
    rw [Func.next_of_leadingJump hjmp hop] at h
    simp [target, hop, h]
  | _ => simp [hop, Op.isJump] at hj

/-- With enough steps the walk over eliminated blocks ends at the block where they lead. -/
theorem resolveFrom_of_exitsIn (h : fn.ExitsIn removed k b d) (hk : k ≤ steps) :
    resolveFrom fn removed steps b = .ok d := by
  induction h generalizing steps with
  | out hd =>
    cases steps with
    | zero => rfl
    | succ steps => simp [resolveFrom, hd]
  | @step b c d k hb hn _ ih =>
    cases steps with
    | zero => omega
    | succ steps =>
      obtain ⟨jmp, hjmp, ht⟩ := target_of_next hn
      simp only [resolveFrom, hb, if_true, hjmp, ht]
      exact ih (by omega)

/-- The bound of the walk is never what ends it: any larger one gives the same block. -/
theorem resolveFrom_of_through (h : fn.Through removed b d) (hd : d ∉ removed)
    (hsteps : removed.length ≤ steps) : resolveFrom fn removed steps b = .ok d := by
  obtain ⟨k, hk⟩ := h.exitsIn hd
  exact resolveFrom_of_exitsIn hk (Nat.le_trans hk.le_length hsteps)

end Threading

end FlowGraph
