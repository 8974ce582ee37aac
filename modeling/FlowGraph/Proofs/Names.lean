import Mathlib
import FlowGraph.Fault

/-! Decimal numbers as text, and the names made from them. A number can be read off its digits, so
blocks with different numbers have different names. -/

namespace FlowGraph

namespace Text

theorem utf8EncodeChar_of_isDigit {c : Char} (h : c.isDigit = true) :
    ∃ b, String.utf8EncodeChar c = [b] ∧ b.toNat = c.toNat ∧ isDigit b = true := by
  have hrange : 48 ≤ c.val.toNat ∧ c.val.toNat ≤ 57 := by
    simpa [Char.isDigit, UInt32.le_iff_toNat_le] using h
  have hbyte : c.val.toUInt8.toNat = c.val.toNat := by
    rw [UInt32.toNat_toUInt8]
    omega
  refine ⟨c.val.toUInt8, String.utf8EncodeChar_eq_singleton ?_, hbyte, ?_⟩
  · rw [Char.utf8Size_eq_one_iff, UInt32.le_iff_toNat_le]
    exact Nat.le_trans hrange.2 (by decide)
  · simp only [isDigit, Bool.and_eq_true, decide_eq_true_eq, UInt8.le_iff_toNat_le, hbyte]
    exact hrange

/-- The bytes of a number are the codes of its digits. -/
theorem ofNat_spec (n : Nat) :
    (ofNat n).map UInt8.toNat = (Nat.toDigits 10 n).map Char.toNat ∧
      ∀ b ∈ ofNat n, isDigit b = true := by
  have hdigits : ∀ c ∈ Nat.toDigits 10 n, c.isDigit = true :=
    fun c hc => Nat.isDigit_of_mem_toDigits (by decide) (by decide) hc
  rw [ofNat, ofString, String.toList_ofList]
  generalize Nat.toDigits 10 n = cs at hdigits ⊢
  induction cs with
  | nil => simp
  | cons c cs ih =>
    obtain ⟨b, hb, hcode, hdigit⟩ := utf8EncodeChar_of_isDigit (hdigits c List.mem_cons_self)
    obtain ⟨hcodes, hall⟩ := ih fun d hd => hdigits d (List.mem_cons_of_mem c hd)
    rw [List.flatMap_cons, hb]
    exact ⟨congrArg₂ List.cons hcode hcodes, List.forall_mem_cons.mpr ⟨hdigit, hall⟩⟩

theorem ofNat_inj {m n : Nat} : ofNat m = ofNat n ↔ m = n := by
  refine ⟨fun h => ?_, congrArg ofNat⟩
  have hcodes := (ofNat_spec m).1.symm.trans ((congrArg _ h).trans (ofNat_spec n).1)
  have hdigits := List.map_injective_iff.mpr (fun c d h => Char.toNat_inj.mp h) hcodes
  rw [← Nat.ofDigitChars_ten_toDigits (n := m), hdigits, Nat.ofDigitChars_ten_toDigits]

theorem ofInt_inj {i j : Int} : ofInt i = ofInt j ↔ i = j := by
  -- a minus sign is no digit
  have hsign : ∀ m n : Nat, ofNat m ≠ "-" ++ ofNat n := by
    intro m n h
    have hmem : 45 ∈ ofNat m := h ▸ List.mem_append_left _ (by decide)
    exact absurd ((ofNat_spec m).2 45 hmem) (by decide)
  refine ⟨fun h => ?_, congrArg ofInt⟩
  cases i with
  | ofNat m =>
    cases j with
    | ofNat n => exact congrArg Int.ofNat (ofNat_inj.mp h)
    | negSucc n => exact absurd h (hsign m (n + 1))
  | negSucc m =>
    cases j with
    | ofNat n => exact absurd h.symm (hsign n (m + 1))
    | negSucc n =>
      exact congrArg Int.negSucc (Nat.succ_inj.mp (ofNat_inj.mp (List.append_cancel_left h)))

end Text

theorem blockName_injective : Function.Injective blockName := fun _ _ h =>
  Text.ofInt_inj.mp (List.append_cancel_left h)

theorem blockName_inj {m n : Nat} : blockName (m + 1) = blockName (n + 1) ↔ m = n := by
  rw [blockName_injective.eq_iff]
  omega

theorem blockName_ne_nil (id : Int) : blockName id ≠ [] := by
  simp [blockName, Text.ofString]

end FlowGraph
