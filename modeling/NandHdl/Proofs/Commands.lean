import Mathlib
import NandHdl.Bench.Command
import NandHdl.Proofs.Decimals
import NandHdl.Proofs.Lines

/-!
# Commands written and read

A command is written as its keyword and its arguments with spaces between them, and a line is read word for word.

* `Command.IsWord`, `Command.Writable`: names are words without comment marks and numbers fit a machine word.
* `Command.text_eq`: a command is written as words.
* `Command.ofLine_text`: **a writable command is read back.** `Command.writable_of_ofLine`: lines give no others.
* `Command.IsBlank`, `Command.ofLine_eq_none_iff`: the lines that give no command.
-/

namespace NandHdl

section Results

variable {α β ε : Type} {f : α → β} {x : Except ε α} {b : β} {e : ε}

theorem map_eq_ok_iff : x.map f = .ok b ↔ ∃ a, x = .ok a ∧ f a = b := by
  cases x <;> simp [Except.map]

theorem map_eq_error_iff : x.map f = .error e ↔ x = .error e := by
  cases x <;> simp [Except.map]

end Results

namespace Command

/-- A word that stands in a line as it is: no white space in it, and no mark of a comment. -/
def IsWord (word : String) : Prop :=
  word ≠ "" ∧ ∀ c ∈ word.toList, Text.isBlank c = false ∧ c ≠ '#' ∧ c ≠ ';'

-- the characters of the word are tried, where the instance that is found first tries all there are
instance (word : String) : Decidable (IsWord word) :=
  have := List.decidableBAll (fun c => Text.isBlank c = false ∧ c ≠ '#' ∧ c ≠ ';') word.toList
  instDecidableAnd

/-- The names of modules, wires and files in a command. -/
def names : Command → List String
  | top name | poke name _ | peek name | assert name _ | rom name => [name]
  | _ => []

/-- The values, cycle counts and addresses in a command. -/
def numbers : Command → List Nat
  | poke _ v | run v | assert _ v | ram (some v) => [v]
  | _ => []

/-- Names are words, and numbers fit a machine word. -/
structure Writable (c : Command) : Prop where
  names : ∀ name ∈ c.names, IsWord name
  numbers : ∀ v ∈ c.numbers, v < wordLimit

/-- The first word of a command. -/
def keyword : Command → String
  | top _ => "top"
  | poke _ _ => "poke"
  | peek _ => "peek"
  | step => "step"
  | run _ => "run"
  | reset => "reset"
  | assert _ _ => "assert"
  | showAll => "show"
  | rom _ => "rom"
  | ram _ => "ram"
  | debug => "debug"
  | quit => "quit"

/-- The words behind the first. -/
def args (c : Command) : List String := c.names ++ c.numbers.map toString

variable {c : Command} {line word : String} {words : List String}

/-! ## Writing a command -/

/-- A command is written as words with spaces between them. -/
theorem text_eq (c : Command) : c.text = " ".intercalate (c.keyword :: c.args) := by
  rw [← String.toList_inj, String.toList_intercalate]
  cases c with
  | ram addr => cases addr <;> simp [text, keyword, args, names, numbers, List.intercalate, toString]
  | _ => simp [text, keyword, args, names, numbers, List.intercalate, toString]

theorem isWord_of_mem_keywords : ∀ word ∈ keywords, IsWord word := by decide +kernel

theorem keyword_mem (c : Command) : c.keyword ∈ keywords := by
  cases c <;> simp [keyword, keywords]

theorem isWord_toString (v : Nat) : IsWord (toString v) := by
  constructor
  · intro hempty
    obtain ⟨c, cs, hcs, -⟩ := Numeral.toString_eq_cons v
    rw [hempty] at hcs
    cases hcs
  · intro c hc
    have hdigit := Numeral.isDigit_of_mem_toString hc
    refine ⟨?_, ?_, ?_⟩
    · have := Char.isDigit_iff_toNat.1 hdigit
      simp only [Char.reduceToNat] at this
      simp only [Text.isBlank, Bool.or_eq_false_iff, Bool.and_eq_false_iff, decide_eq_false_iff_not]
      omega
    · rintro rfl
      cases hdigit
    · rintro rfl
      cases hdigit

/-- A writable command is written with words only. -/
theorem Writable.isWord (hc : c.Writable) (h : word ∈ c.keyword :: c.args) : IsWord word := by
  rcases List.mem_cons.1 h with rfl | h
  · exact isWord_of_mem_keywords _ c.keyword_mem
  rcases List.mem_append.1 h with h | h
  · exact hc.names word h
  · obtain ⟨v, -, rfl⟩ := List.mem_map.1 h
    exact isWord_toString v

/-- What stands in a writable command is a space or belongs to a word. -/
theorem Writable.mem_text (hc : c.Writable) {ch : Char} (h : ch ∈ c.text.toList) :
    ch = ' ' ∨ Text.isBlank ch = false ∧ ch ≠ '#' ∧ ch ≠ ';' := by
  rw [text_eq] at h
  exact (Text.of_mem_intercalate h).imp_right fun ⟨_, hword, hch⟩ => (hc.isWord hword).2 ch hch

/-! ## Reading a line -/

/-- The line has no words in front of its comment. -/
def IsBlank (line : String) : Prop := ∀ c ∈ uncommented line.toList, Text.isBlank c = true

theorem ofLine_eq_none_iff : ofLine line = .ok none ↔ IsBlank line := by
  rw [IsBlank, ← Text.words_eq_nil_iff, ofLine]
  split
  · next h => simp [h]
  · next keyword args h =>
    rw [h]
    cases build keyword args <;> simp [Except.map]

/-- The words of a line stand in front of its comment. -/
theorem isWord_of_mem_words (h : word ∈ Text.words (uncommented line.toList)) : IsWord word := by
  obtain ⟨hne, hchars⟩ := Text.mem_words h
  refine ⟨hne, fun c hc => ⟨(hchars c hc).2, ?_⟩⟩
  have hmark := List.mem_takeWhile_imp (hchars c hc).1
  exact of_decide_eq_true hmark

theorem valueOf_lt {v : Nat} (h : valueOf word = .ok v) : v < wordLimit := by
  unfold valueOf at h
  split at h
  · next hv =>
    cases h
    exact Numeral.value?_lt hv
  · cases h

theorem valueOf_toString {v : Nat} (hv : v < wordLimit) : valueOf (toString v) = .ok v := by
  rw [valueOf, Numeral.value?_toString hv]

/-- Keyword and arguments of a writable command give the command. -/
theorem build_args (hc : c.Writable) : build c.keyword c.args = .ok c := by
  have hvalue : ∀ v ∈ c.numbers, valueOf (toString v) = .ok v := fun v hv => valueOf_toString (hc.numbers v hv)
  cases c with
  | poke name v | run v | assert name v =>
    exact congrArg (Except.map _) (hvalue v (List.mem_singleton_self v))
  | ram addr =>
    cases addr with
    | none => rfl
    | some v => exact congrArg (Except.map _) (hvalue v (List.mem_singleton_self v))
  | _ => rfl

/-- **A writable command is read back from its line.** -/
theorem ofLine_text (hc : c.Writable) : ofLine c.text = .ok (some c) := by
  have hall : uncommented c.text.toList = c.text.toList := by
    refine List.takeWhile_eq_self_iff.2 fun ch hch => decide_eq_true ?_
    rcases hc.mem_text hch with rfl | hch
    · decide
    · exact hch.2
  have hwords : Text.words (uncommented c.text.toList) = c.keyword :: c.args := by
    rw [hall, text_eq]
    exact Text.words_intercalate fun word hword =>
      ⟨(hc.isWord hword).1, fun ch hch => ((hc.isWord hword).2 ch hch).1⟩
  rw [ofLine, hwords]
  simp only [build_args hc, Except.map]

/-- A command that words give is writable. -/
theorem writable_of_build (hwords : ∀ w ∈ words, IsWord w) (h : build word words = .ok c) : c.Writable := by
  unfold build at h
  split at h
  case h_2 | h_6 | h_8 | h_12 =>
    -- one of the words is a value
    obtain ⟨v, hv, rfl⟩ := map_eq_ok_iff.1 h
    exact ⟨fun name hname => hwords name (by simp_all [names]), List.forall_mem_singleton.2 (valueOf_lt hv)⟩
  case h_16 => cases h
  case h_5 =>
    -- the count that is left out
    cases h
    exact ⟨List.forall_mem_nil _, by decide⟩
  all_goals
    cases h
    exact ⟨fun name hname => hwords name (by simp_all [names]), List.forall_mem_nil _⟩

/-- **The commands that lines give are writable.** -/
theorem writable_of_ofLine (h : ofLine line = .ok (some c)) : c.Writable := by
  unfold ofLine at h
  split at h
  · cases h
  · next keyword args hwords =>
    obtain ⟨c', hbuild, hc⟩ := map_eq_ok_iff.1 h
    cases hc
    refine writable_of_build (fun w hw => ?_) hbuild
    have hmem : w ∈ Text.words (uncommented line.toList) := hwords ▸ List.mem_cons_of_mem keyword hw
    exact isWord_of_mem_words hmem

end Command

end NandHdl
