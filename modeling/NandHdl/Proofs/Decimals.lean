import Mathlib
import NandHdl.Text.Numeral

/-!
# Decimal digits

* `Numeral.toString_eq_cons`: numbers are written with digits only, and with one at least.
* `Numeral.unsigned?_toString`: **a word is read back from its decimal digits.**
* `Numeral.literal?_toString`, `Numeral.value?_toString`: so it is where marks of other bases are known, since
  decimal digits are none.
* `Numeral.value?_lt`: what is read is a word.
-/

namespace NandHdl.Numeral

variable {base v : Nat} {cs : List Char}

/-- Decimal digits have the value that their number has. -/
theorem digitsValue?_eq {acc : Nat} (h : ∀ c ∈ cs, c.isDigit = true) :
    digitsValue? 10 acc cs = some (Nat.ofDigitChars 10 cs acc) := by
  induction cs generalizing acc with
  | nil => rw [digitsValue?, Nat.ofDigitChars_nil]
  | cons c cs ih =>
    have hc := Char.isDigit_iff_toNat.1 (h c (by simp))
    have hvalue : digitValue? c = some (c.toNat - '0'.toNat) := if_pos hc
    have hlt : c.toNat - '0'.toNat < 10 := by
      simp only [Char.reduceToNat] at hc ⊢
      omega
    simp only [digitsValue?, hvalue]
    rw [if_pos hlt, ih fun d hd => h d (by simp [hd]), Nat.ofDigitChars_cons, Nat.mul_comm]

theorem toList_toString (v : Nat) : (toString v).toList = Nat.toDigits 10 v := Nat.toList_repr

/-- Numbers are written with digits only. -/
theorem isDigit_of_mem_toString {c : Char} (h : c ∈ (toString v).toList) : c.isDigit = true := by
  rw [toList_toString] at h
  exact Nat.isDigit_of_mem_toDigits (by decide) (by decide) h

/-- A number is written with one digit at least. -/
theorem toString_eq_cons (v : Nat) :
    ∃ c cs, (toString v).toList = c :: cs ∧ c.isDigit = true ∧ ∀ d ∈ cs, d.isDigit = true := by
  obtain ⟨c, cs, hcs⟩ : ∃ c cs, (toString v).toList = c :: cs :=
    List.exists_cons_of_ne_nil (toList_toString v ▸ Nat.toDigits_ne_nil)
  exact ⟨c, cs, hcs, isDigit_of_mem_toString (hcs ▸ List.mem_cons_self),
    fun d hd => isDigit_of_mem_toString (hcs ▸ List.mem_cons_of_mem c hd)⟩

/-- **A word is read back from its decimal digits.** -/
theorem unsigned?_toString (hv : v < wordLimit) : unsigned? 10 (toString v).toList = some v := by
  have hdigits : digitsValue? 10 0 (toString v).toList = some v := by
    rw [digitsValue?_eq fun c hc => isDigit_of_mem_toString hc, toList_toString, Nat.ofDigitChars_ten_toDigits]
  obtain ⟨c, cs, hcs, hc, -⟩ := toString_eq_cons v
  -- the first digit is no sign
  have hplus : c ≠ '+' := by
    rintro rfl
    cases hc
  rw [hcs] at hdigits ⊢
  simp [unsigned?, hplus, hdigits, Option.filter, hv]

/-- Behind the first digit stands no mark of another base. -/
theorem isDigit_second {zero mark : Char} (h : (toString v).toList = zero :: mark :: cs) : mark.isDigit = true :=
  isDigit_of_mem_toString (h ▸ List.mem_cons_of_mem zero List.mem_cons_self)

/-- A number of the source language is read back from its decimal digits. -/
theorem literal?_toString (hv : v < wordLimit) : literal? (toString v) = some v := by
  unfold literal?
  split
  · next h => exact absurd (isDigit_second h) (by decide)
  · next h => exact absurd (isDigit_second h) (by decide)
  · exact unsigned?_toString hv

/-- A number of a bench is read back from its decimal digits. -/
theorem value?_toString (hv : v < wordLimit) : value? (toString v) = some v := by
  unfold value?
  split
  · next h => exact absurd (isDigit_second h) (by decide)
  · next h => exact absurd (isDigit_second h) (by decide)
  · next h => exact absurd (isDigit_second h) (by decide)
  · next h => exact absurd (isDigit_second h) (by decide)
  · exact unsigned?_toString hv

theorem unsigned?_lt (h : unsigned? base cs = some v) : v < wordLimit := by
  unfold unsigned? at h
  dsimp only at h
  -- with a sign and without one
  split at h
  all_goals
    split at h
    · cases h
    · exact of_decide_eq_true (Option.filter_eq_some_iff.1 h).2

/-- A number of a bench is a word. -/
theorem value?_lt {text : String} (h : value? text = some v) : v < wordLimit := by
  unfold value? at h
  split at h <;> exact unsigned?_lt h

end NandHdl.Numeral
