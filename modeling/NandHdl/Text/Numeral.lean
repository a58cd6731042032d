import NandHdl.Word

/-!
# Numerals of one machine word

Both the source language and the bench read unsigned numbers of 64 bits. A
numeral is a non-empty run of digits, which one plus sign may precede; a radix
mark in front of it chooses the base.

* `digitsValue?`: the value of a run of digits, if each is a digit of the base.
* `unsigned?`: the value of a signed run, if it fits a word.
-/

namespace NandHdl.Numeral

/-- The value of a digit in bases up to sixteen, in either case. -/
def digitValue? (c : Char) : Option Nat :=
  if '0' ≤ c ∧ c ≤ '9' then some (c.toNat - '0'.toNat)
  else if 'a' ≤ c ∧ c ≤ 'f' then some (c.toNat - 'a'.toNat + 10)
  else if 'A' ≤ c ∧ c ≤ 'F' then some (c.toNat - 'A'.toNat + 10)
  else none

/-- The value of `cs` read after digits of value `acc`; `none` at a character that is no digit. -/
def digitsValue? (base : Nat) : Nat → List Char → Option Nat
  | acc, [] => some acc
  | acc, c :: cs =>
    match digitValue? c with
    | some d => if d < base then digitsValue? base (acc * base + d) cs else none
    | none => none

/-- The value of a run of digits with at most one plus sign before it. -/
def unsigned? (base : Nat) (cs : List Char) : Option Nat :=
  let digits := match cs with
    | '+' :: rest => rest
    | _ => cs
  if digits.isEmpty then none
  else (digitsValue? base 0 digits).filter (· < wordLimit)

/-- A number of the source language: decimal, or base sixteen after `0x`. -/
def literal? (s : String) : Option Nat :=
  match s.toList with
  | '0' :: 'x' :: cs => unsigned? 16 cs
  | '0' :: 'X' :: cs => unsigned? 16 cs
  | cs => unsigned? 10 cs

/-- A number of a bench: decimal, base sixteen after `0x` or base two after `0b`. -/
def value? (s : String) : Option Nat :=
  match s.toList with
  | '0' :: 'x' :: cs => unsigned? 16 cs
  | '0' :: 'X' :: cs => unsigned? 16 cs
  | '0' :: 'b' :: cs => unsigned? 2 cs
  | '0' :: 'B' :: cs => unsigned? 2 cs
  | cs => unsigned? 10 cs

end NandHdl.Numeral
