import NandHdl.Design
import NandHdl.Proofs.Scanning
import NandHdl.Text.Numeral

/-!
# The grammar of designs

The phrases of the source language, as words and what they stand for, apart from
any way to read them.

* `Numeral.IsLiteral`: a text is a number that fits a word.
* `Grammar.CommaList`, `Grammar.Enclosed`: lists.
* `Grammar.IsPort`, `Grammar.IsRange`, `Grammar.IsExpr`, `Grammar.IsStatement`: phrases that do not
  depend on what follows them.
* `Grammar.EndsLine`, `Grammar.IsBody`, `Grammar.IsModule`: phrases in front of other words, since the end
  of the text ends a line as well.
* `Grammar.IsDesign`: a whole stream of words.
-/

namespace NandHdl

/-! ## Numbers -/

namespace Numeral

/-- The characters are digits of the base with these values. -/
def AreDigits (base : Nat) (cs : List Char) (ds : List Nat) : Prop :=
  List.Forall₂ (fun c d => digitValue? c = some d ∧ d < base) cs ds

/-- The characters write a number in the base, the most significant digit first. A plus sign may precede
the digits. -/
inductive Writes (base : Nat) : List Char → Nat → Prop
  | plain {cs ds} (hne : cs ≠ []) (h : AreDigits base cs ds) : Writes base cs (Nat.ofDigits base ds.reverse)
  | signed {cs ds} (hne : cs ≠ []) (h : AreDigits base cs ds) :
    Writes base ('+' :: cs) (Nat.ofDigits base ds.reverse)

/-- The text is a number of the source language that fits a word. -/
inductive IsLiteral (text : String) (v : Nat) : Prop
  | decimal (h : Writes 10 text.toList v) (hv : v < wordLimit)
  | hex {x cs} (htext : text.toList = '0' :: x :: cs) (hx : x = 'x' ∨ x = 'X') (h : Writes 16 cs v)
    (hv : v < wordLimit)

end Numeral

/-! ## Phrases -/

namespace Grammar

open Numeral (IsLiteral)

variable {α : Type}

/-- One or more `p`, separated by commas. -/
inductive CommaList (p : List Word → α → Prop) : List Word → List α → Prop
  | one {ws a} (h : p ws a) : CommaList p ws [a]
  | more {ws us a as} (h : p ws a) (s : String) (hs : CommaList p us as) :
    CommaList p (ws ++ (.comma, s) :: us) (a :: as)

/-- Any number of `p`, separated by commas, between parentheses. -/
inductive Enclosed (p : List Word → α → Prop) : List Word → List α → Prop
  | none (s t : String) : Enclosed p [(.lparen, s), (.rparen, t)] []
  | some {ws as} (s t : String) (h : CommaList p ws as) :
    Enclosed p ((.lparen, s) :: (ws ++ [(.rparen, t)])) as

/-- A port is a name, and a width if it is not 1. -/
inductive IsPort : List Word → Port → Prop
  | bare (name : String) : IsPort [(.ident, name)] ⟨name, 1⟩
  | wide {text width} (name s : String) (h : IsLiteral text width) (hpos : 1 ≤ width)
    (hle : width ≤ widthLimit) : IsPort [(.ident, name), (.colon, s), (.number, text)] ⟨name, width⟩

/-- A range is one or two bit numbers between brackets. -/
inductive IsRange : List Word → BitRange → Prop
  | bit {text i} (s t : String) (h : IsLiteral text i) (hi : i ≤ widthLimit) :
    IsRange [(.lbracket, s), (.number, text), (.rbracket, t)] (.bit i)
  | slice {text text' a b} (s t u : String) (ha : IsLiteral text a) (hb : IsLiteral text' b)
    (hle : a ≤ widthLimit) (hle' : b ≤ widthLimit) :
    IsRange [(.lbracket, s), (.number, text), (.colon, t), (.number, text'), (.rbracket, u)] (.slice a b)

/-- An expression is a name, a number or a call, or an expression with a field or a range behind it. -/
inductive IsExpr : List Word → Expr → Prop
  | identifier (name : String) : IsExpr [(.ident, name)] (.identifier name)
  | number {text v} (h : IsLiteral text v) : IsExpr [(.number, text)] (.number v)
  | call {ws args} (name : String) (h : Enclosed IsExpr ws args) :
    IsExpr ((.ident, name) :: ws) (.call name args)
  | member {ws object} (h : IsExpr ws object) (s field : String) :
    IsExpr (ws ++ [(.dot, s), (.ident, field)]) (.member object field)
  | select {ws us object range} (h : IsExpr ws object) (hr : IsRange us range) :
    IsExpr (ws ++ us) (.select object range)

/-- A statement gives a name, or a range of it, the value of an expression. -/
inductive IsStatement : List Word → Statement → Prop
  | whole {ws e} (name s : String) (h : IsExpr ws e) :
    IsStatement ((.ident, name) :: (.equals, s) :: ws) ⟨⟨name, none⟩, e⟩
  | part {us ws range e} (name s : String) (hr : IsRange us range) (h : IsExpr ws e) :
    IsStatement ((.ident, name) :: (us ++ (.equals, s) :: ws)) ⟨⟨name, some range⟩, e⟩

/-- The words end a line in front of `rest`: a line break, or nothing in front of the end of the text. -/
inductive EndsLine : List Word → List Word → Prop
  | newline (s : String) (rest : List Word) : EndsLine [(.newline, s)] rest
  | eof (s : String) (rest : List Word) : EndsLine [] ((.eof, s) :: rest)

/-- A body is any number of indented statements, each on a line of its own. -/
inductive IsBody : List Word → List Word → List Statement → Prop
  | nil (rest : List Word) : IsBody [] rest []
  | cons {ws us vs rest t ts} (s : String) (h : IsStatement ws t) (hend : EndsLine us (vs ++ rest))
    (hts : IsBody vs rest ts) : IsBody ((.indent, s) :: (ws ++ us ++ vs)) rest (t :: ts)

/-- The outputs of a header are one port, or any number of them between parentheses. -/
inductive AreOutputs : List Word → List Port → Prop
  | single {ws p} (h : IsPort ws p) : AreOutputs ws [p]
  | enclosed {ws ps} (h : Enclosed IsPort ws ps) : AreOutputs ws ps

/-- A module is a header on a line of its own and a body. -/
inductive IsModule : List Word → List Word → Module → Prop
  | intro {is os us vs rest inputs outputs ts} (s name t u : String) (hi : Enclosed IsPort is inputs)
    (ho : AreOutputs os outputs) (hend : EndsLine us (vs ++ rest)) (hts : IsBody vs rest ts) :
    IsModule ((.moduleWord, s) :: (.ident, name) :: (is ++ (.arrow, t) :: (os ++ (.colon, u) :: (us ++ vs))))
      rest ⟨name, inputs, outputs, ts⟩

/-- A design is any number of modules, and the end of the text. -/
inductive IsDesign : List Word → List Module → Prop
  | nil (s : String) : IsDesign [(.eof, s)] []
  | cons {ws rest m ms} (h : IsModule ws rest m) (hms : IsDesign rest ms) : IsDesign (ws ++ rest) (m :: ms)

end Grammar

/-! ## Reading numbers -/

namespace Numeral

variable {base acc v : Nat} {c : Char} {cs : List Char}

/-- Digits are read one after another, each time in the next place. -/
theorem digitsValue?_eq_some : digitsValue? base acc cs = some v ↔
    ∃ ds, AreDigits base cs ds ∧ v = ds.foldl (fun n d => n * base + d) acc := by
  induction cs generalizing acc with
  | nil =>
    rw [digitsValue?, Option.some.injEq]
    constructor
    · rintro rfl
      exact ⟨[], .nil, rfl⟩
    · rintro ⟨ds, hds, rfl⟩
      cases hds
      rfl
  | cons c cs ih =>
    rw [digitsValue?]
    constructor
    · intro h
      split at h
      · next d hd =>
        split at h
        · next hlt =>
          obtain ⟨ds, hds, rfl⟩ := ih.1 h
          exact ⟨d :: ds, .cons ⟨hd, hlt⟩ hds, rfl⟩
        · cases h
      · cases h
    · rintro ⟨ds, hds, rfl⟩
      cases hds with
      | cons hd hds =>
        rw [hd.1]
        dsimp only
        rw [if_pos hd.2]
        exact ih.2 ⟨_, hds, rfl⟩

theorem ofDigits_reverse (base : Nat) (ds : List Nat) :
    Nat.ofDigits base ds.reverse = ds.foldl (fun n d => n * base + d) 0 := by
  rw [Nat.ofDigits_eq_foldr, List.foldr_reverse]
  congr 1
  funext n d
  rw [Nat.cast_id, Nat.add_comm, Nat.mul_comm]

/-- No number starts with what is neither a digit nor a sign. -/
theorem not_areDigits_cons (h : digitValue? c = none) (ds : List Nat) : ¬ AreDigits base (c :: cs) ds := by
  intro hds
  cases hds with
  | cons hd _ =>
    rw [h] at hd
    cases hd.1

/-- The digits of a number, without its sign. -/
theorem plainValue_eq_some : (if cs.isEmpty then none
      else (digitsValue? base 0 cs).filter (· < wordLimit)) = some v ↔
    (cs ≠ [] ∧ ∃ ds, AreDigits base cs ds ∧ v = Nat.ofDigits base ds.reverse) ∧ v < wordLimit := by
  cases cs with
  | nil => simp
  | cons c cs =>
    simp only [List.isEmpty_cons, Bool.false_eq_true, if_false, Option.filter_eq_some_iff,
      digitsValue?_eq_some, decide_eq_true_eq, ofDigits_reverse, ne_eq, reduceCtorEq, not_false_eq_true,
      true_and]

theorem unsigned?_eq_some : unsigned? base cs = some v ↔ Writes base cs v ∧ v < wordLimit := by
  unfold unsigned?
  split
  · next rest =>
    refine plainValue_eq_some.trans (and_congr_left fun _ => ⟨?_, fun h => ?_⟩)
    · rintro ⟨hne, ds, hds, rfl⟩
      exact .signed hne hds
    · cases h with
      | plain _ hds => exact absurd hds (not_areDigits_cons rfl _)
      | signed hne hds => exact ⟨hne, _, hds, rfl⟩
  · next hsign =>
    refine plainValue_eq_some.trans (and_congr_left fun _ => ⟨?_, fun h => ?_⟩)
    · rintro ⟨hne, ds, hds, rfl⟩
      exact .plain hne hds
    · cases h with
      | plain hne hds => exact ⟨hne, _, hds, rfl⟩
      | signed _ _ => exact absurd rfl (hsign _)

/-- The mark of base sixteen is no digit of base ten. -/
theorem not_writes_mark (h : digitValue? c = none) : ¬ Writes 10 ('0' :: c :: cs) v := by
  intro hw
  cases hw with
  | plain _ hds =>
    cases hds with
    | cons _ hds => exact not_areDigits_cons h _ hds

/-- **A number is read exactly if its text is one.** -/
theorem literal?_eq_some {text : String} : literal? text = some v ↔ IsLiteral text v := by
  unfold literal?
  split
  · next cs htext =>
    refine unsigned?_eq_some.trans ⟨fun h => .hex htext (.inl rfl) h.1 h.2, fun h => ?_⟩
    cases h with
    | decimal h _ => exact absurd (htext ▸ h) (not_writes_mark rfl)
    | hex h _ hw hv =>
      rw [htext] at h
      cases h
      exact ⟨hw, hv⟩
  · next cs htext =>
    refine unsigned?_eq_some.trans ⟨fun h => .hex htext (.inr rfl) h.1 h.2, fun h => ?_⟩
    cases h with
    | decimal h _ => exact absurd (htext ▸ h) (not_writes_mark rfl)
    | hex h _ hw hv =>
      rw [htext] at h
      cases h
      exact ⟨hw, hv⟩
  · next hx hX =>
    refine unsigned?_eq_some.trans ⟨fun h => .decimal h.1 h.2, fun h => ?_⟩
    cases h with
    | decimal h hv => exact ⟨h, hv⟩
    | hex htext h _ _ =>
      rcases h with rfl | rfl
      · exact absurd htext (hx _)
      · exact absurd htext (hX _)

end Numeral

end NandHdl
