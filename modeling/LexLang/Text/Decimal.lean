/-
# LexLang.Text.Decimal — numbers in texts

`str::parse::<usize>` and the decimal digits of a number.
-/
import Mathlib.Data.List.Basic

namespace LexLang

open Nat

/-- `str::parse::<usize>`. One of 2^64 or more is an error in the source; here it is a number past the
end of every list. -/
def parseUsize (cs : List Char) : Option Nat :=
  let digits := if cs.head? = some '+' then cs.tail else cs
  if digits ≠ [] ∧ digits.all Char.isDigit then some (ofDigitChars 10 digits 0) else none

theorem parseUsize_toDigits (n : Nat) : parseUsize (toDigits 10 n) = some n := by
  have hdigits : ∀ c ∈ toDigits 10 n, c.isDigit := fun c hc =>
    Nat.isDigit_of_mem_toDigits (by omega) (by omega) hc
  have hhead : (toDigits 10 n).head? ≠ some '+' := by
    intro h
    have := hdigits '+' (List.mem_of_mem_head? h)
    simp [Char.isDigit] at this
  unfold parseUsize
  simp only [if_neg hhead]
  rw [if_pos ⟨toDigits_ne_nil, List.all_eq_true.mpr hdigits⟩, ofDigitChars_ten_toDigits]

theorem dot_notMem_toDigits (n : Nat) : '.' ∉ toDigits 10 n := by
  intro hdot
  have := Nat.isDigit_of_mem_toDigits (by omega) (by omega) hdot
  simp [Char.isDigit] at this

end LexLang
