import NandHdl.Proofs.Accepting
import NandHdl.Proofs.Decimals
import NandHdl.Proofs.Printing
import NandHdl.Toolchain

/-!
# Reading a printed design

* `isLiteral_toString`: a number is what its decimal digits write.
* `isExpr_words`, `isStatement_words`, `isModule_printedWords`: the words of a printed
  phrase belong to the grammar.
* `readSource_designText`: **reading a printed design gives the design back.**
-/

namespace NandHdl

open Grammar
open Lexeme (IsName Piece)
open Lexeme.Piece
open Numeral (IsLiteral)

/-! ## Numbers -/

theorem isLiteral_toString {v : Nat} (hv : v < wordLimit) : IsLiteral (toString v) v :=
  Numeral.literal?_eq_some.1 (Numeral.literal?_toString hv)

theorem isLiteral_index {v : Nat} (hv : v ≤ widthLimit) : IsLiteral (toString v) v :=
  isLiteral_toString (Nat.lt_of_le_of_lt hv (by decide))

/-! ## Lists -/

section Lists

variable {α : Type} {P : List Word → α → Prop} {g : α → List Piece} {xs : List α}

theorem words_commas_cons (a : List Piece) {as : List (List Piece)} (h : as ≠ []) :
    words (commas (a :: as)) = words a ++ (.comma, ",") :: words (commas as) := by
  rw [commas, List.intercalate_cons_of_ne_nil h, words_append, words_append, List.append_assoc]
  rfl

/-- Phrases of the grammar that are separated by commas. -/
theorem commaList_words (hx : xs ≠ []) (h : ∀ x ∈ xs, P (words (g x)) x) :
    CommaList P (words (commas (xs.map g))) xs := by
  induction xs with
  | nil => exact absurd rfl hx
  | cons x xs ih =>
    cases xs with
    | nil =>
      have hsingle : commas ([x].map g) = g x := by
        rw [commas, List.map_singleton, List.intercalate_singleton]
      rw [hsingle]
      exact .one (h x (by simp))
    | cons y ys =>
      rw [List.map_cons, words_commas_cons (g x) (by simp)]
      exact .more (h x (by simp)) "," (ih (by simp) fun z hz => h z (List.mem_cons_of_mem x hz))

/-- Phrases of the grammar between parentheses. -/
theorem enclosed_words (h : ∀ x ∈ xs, P (words (g x)) x) :
    Enclosed P ((.lparen, "(") :: (words (commas (xs.map g)) ++ [(.rparen, ")")])) xs := by
  cases xs with
  | nil => exact .none "(" ")"
  | cons x xs => exact .some "(" ")" (commaList_words (by simp) h)

end Lists

/-! ## Phrases -/

theorem isPort_words {p : Port} (h : p.Legible) : IsPort (words p.pieces) p := by
  obtain ⟨name, width⟩ := p
  obtain ⟨-, hpos, hle⟩ := h
  rw [Port.pieces, words_ident, Port.widthPieces]
  by_cases hw : width = 1
  · rw [if_pos hw, hw]
    exact .bare name
  · have hwords : words [colon, Piece.number width] = [(.colon, ":"), (.number, toString width)] := by
      change (.colon, ":") :: words [Piece.number width] = _
      rw [words_number]
      rfl
    rw [if_neg hw, hwords]
    exact .wide name ":" (isLiteral_index hle) hpos hle

theorem isRange_words {r : BitRange} (h : r.hi ≤ widthLimit) : IsRange (words r.pieces) r := by
  cases r with
  | bit i =>
    change IsRange ((.lbracket, "[") :: words [Piece.number i, rbracket]) _
    rw [words_number]
    exact .bit "[" "]" (isLiteral_index h) h
  | slice a b =>
    have ha : a ≤ widthLimit := Nat.le_trans (Nat.le_max_left a b) h
    have hb : b ≤ widthLimit := Nat.le_trans (Nat.le_max_right a b) h
    change IsRange ((.lbracket, "[") :: words [Piece.number a, colon, Piece.number b, rbracket]) _
    rw [words_number]
    change IsRange (_ :: _ :: (.colon, ":") :: words [Piece.number b, rbracket]) _
    rw [words_number]
    exact .slice "[" ":" "]" (isLiteral_index ha) (isLiteral_index hb) ha hb

theorem words_call (name : String) (args : List Expr) : words (Expr.call name args).pieces =
    (.ident, name) :: (.lparen, "(") :: (words (commas (args.map Expr.pieces)) ++ [(.rparen, ")")]) := by
  rw [Expr.pieces, words_ident]
  change _ :: _ :: words (commas (args.map Expr.pieces) ++ [rparen]) = _
  rw [words_append]
  rfl

theorem words_member (object : Expr) (field : String) : words (Expr.member object field).pieces =
    words object.pieces ++ [(.dot, "."), (.ident, field)] := by
  rw [Expr.pieces, words_append]
  change _ ++ (_ :: words [ident field]) = _
  rw [words_ident]
  rfl

/-- **A printed expression belongs to the grammar.** -/
theorem isExpr_words {e : Expr} (h : e.Legible) : IsExpr (words e.pieces) e := by
  induction e using Expr.pieces.induct with
  | case1 name =>
    rw [Expr.pieces, words_ident]
    exact .identifier name
  | case2 value =>
    rw [Expr.Legible] at h
    rw [Expr.pieces, words_number]
    exact .number (isLiteral_toString h)
  | case3 name args ih =>
    rw [Expr.Legible] at h
    rw [words_call]
    exact .call name (enclosed_words fun a ha => ih a ha (h.2 a ha))
  | case4 object field ih =>
    rw [Expr.Legible] at h
    rw [words_member]
    exact .member (ih h.1) "." field
  | case5 object range ih =>
    rw [Expr.Legible] at h
    rw [Expr.pieces, words_append]
    exact .select (ih h.1) (isRange_words h.2)

theorem words_statement (t : Statement) : words t.pieces =
    (.ident, t.target.name) :: (words t.target.rangePieces ++ (.equals, "=") :: words t.expr.pieces) := by
  rw [Statement.pieces, words_ident, words_append]
  rfl

theorem isStatement_words {t : Statement} (h : t.Legible) : IsStatement (words t.pieces) t := by
  have hrange := h.range
  rw [words_statement, Target.rangePieces]
  obtain ⟨⟨name, range?⟩, e⟩ := t
  cases range? with
  | none => exact .whole name "=" (isExpr_words h.expr)
  | some r => exact .part name "=" (isRange_words (hrange r rfl)) (isExpr_words h.expr)

/-! ## Modules -/

theorem isBody_words {ss : List Statement} (h : ∀ t ∈ ss, t.Legible) (rest : List Word) :
    IsBody (ss.flatMap Statement.lineWords) rest ss := by
  induction ss with
  | nil => exact .nil rest
  | cons t ss ih =>
    have htail := ih fun u hu => h u (by simp [hu])
    have hline := IsBody.cons "    " (isStatement_words (h t (by simp))) (.newline "\n" _) htail
    rw [List.flatMap_cons, Statement.lineWords, List.cons_append]
    exact hline

theorem areOutputs_words {ps : List Port} (h : ∀ p ∈ ps, p.Legible) :
    AreOutputs (words (Module.outputsPieces ps)) ps := by
  unfold Module.outputsPieces
  split
  · next p => exact .single (isPort_words (h p (by simp)))
  · have hclosed : words (lparen :: (commas (ps.map Port.pieces) ++ [rparen])) =
        (.lparen, "(") :: (words (commas (ps.map Port.pieces)) ++ [(.rparen, ")")]) := by
      change _ :: words (commas (ps.map Port.pieces) ++ [rparen]) = _
      rw [words_append]
      rfl
    rw [hclosed]
    exact .enclosed (enclosed_words fun p hp => isPort_words (h p hp))

theorem words_header (m : Module) : words m.header = (.moduleWord, "module") :: (.ident, m.name) ::
    (.lparen, "(") :: (words (commas (m.inputs.map Port.pieces)) ++ (.rparen, ")") :: (.arrow, "->") ::
      words (Module.outputsPieces m.outputs)) := by
  have hstart : words [moduleWord, spaces 0, ident m.name, lparen] =
      [(.moduleWord, "module"), (.ident, m.name), (.lparen, "(")] := by
    change (.moduleWord, "module") :: words [ident m.name, lparen] = _
    rw [words_ident]
    rfl
  rw [Module.header, words_append, words_append, words_append, hstart, List.append_assoc,
    List.append_assoc]
  rfl

/-- **A printed module belongs to the grammar**, whatever follows it. -/
theorem isModule_printedWords {m : Module} (h : m.Legible) (rest : List Word) :
    IsModule m.printedWords rest m := by
  have hinputs := enclosed_words fun p hp => isPort_words (h.inputs p hp)
  have hmodule := IsModule.intro "module" m.name "->" ":" hinputs (areOutputs_words h.outputs)
    (.newline "\n" _) (isBody_words h.statements rest)
  have hwords : m.printedWords = (.moduleWord, "module") :: (.ident, m.name) ::
      ((.lparen, "(") :: (words (commas (m.inputs.map Port.pieces)) ++ [(.rparen, ")")]) ++ (.arrow, "->") ::
        (words (Module.outputsPieces m.outputs) ++ (.colon, ":") :: ([(.newline, "\n")] ++
          m.statements.flatMap Statement.lineWords))) := by
    simp [Module.printedWords, words_header]
  rw [hwords]
  exact hmodule

theorem isDesign_printedWords {ms : List Module} (h : ∀ m ∈ ms, m.Legible) :
    IsDesign (ms.flatMap Module.printedWords ++ [(.eof, "")]) ms := by
  induction ms with
  | nil => exact .nil ""
  | cons m ms ih =>
    rw [List.flatMap_cons, List.append_assoc]
    exact .cons (isModule_printedWords (h m (by simp)) _) (ih fun n hn => h n (by simp [hn]))

/-- **Reading a printed design gives the design back**, provided that its names are names and its
numbers can be read. -/
theorem readSource_designText {ms : List Module} (h : ∀ m ∈ ms, m.Legible) :
    (readSource (designText ms)).value = .ok ms := by
  obtain ⟨tokens, htokens, hwords⟩ := ofText_designText h
  cases tokens with
  | nil => cases ms <;> simp at hwords
  | cons t ts =>
    have hc : (⟨t, ts⟩ : Cursor).words = ms.flatMap Module.printedWords ++ [(.eof, "")] := hwords
    have hdesign := isDesign_printedWords h
    have hlen : ms.length < (⟨t, ts⟩ : Cursor).remaining := by
      rw [Parser.remaining_eq hc]
      exact length_lt_of_isDesign hdesign
    have hparse : parse (t :: ts) = ⟨ms, none⟩ := parseFrom_of_isDesign hdesign hc hlen
    rw [readSource, htokens]
    simp only [readTokens, hparse]
    rfl

/-- Modules with everything that the printer writes in more than one way. -/
def oddities : List Module :=
  [⟨"empty", [], [], []⟩,
    ⟨"_one", [⟨"a", 1⟩], [⟨"b", widthLimit⟩],
      [⟨⟨"b", none⟩, .select (.member (.call "f" [.number (wordLimit - 1),
        .select (.identifier "a") (.slice widthLimit 0)]) "g") (.bit 7)⟩]⟩,
    ⟨"two", [⟨"x", 2⟩, ⟨"modules", 1⟩], [⟨"y", 1⟩, ⟨"z9", 3⟩],
      [⟨⟨"z9", some (.slice 0 2)⟩, .member (.number 0) "x1"⟩, ⟨⟨"y", some (.bit 0)⟩, .call "two" []⟩]⟩]

theorem oddities_legible : ∀ m ∈ oddities, m.Legible := by
  have hcall : (Expr.call "f" [.number (wordLimit - 1),
      .select (.identifier "a") (.slice widthLimit 0)]).Legible := by
    simp only [Expr.Legible, List.mem_cons, List.not_mem_nil, or_false, forall_eq_or_imp, forall_eq]
    decide
  intro m hm
  simp only [oddities, List.mem_cons, List.not_mem_nil, or_false] at hm
  rcases hm with rfl | rfl | rfl
  · exact ⟨by decide, List.forall_mem_nil _, List.forall_mem_nil _, List.forall_mem_nil _⟩
  · refine ⟨by decide, by decide, by decide, ?_⟩
    rw [List.forall_mem_singleton]
    refine ⟨by decide, by simp, ?_⟩
    rw [Expr.Legible, Expr.Legible]
    exact ⟨⟨hcall, by decide⟩, by decide⟩
  · refine ⟨by decide, by decide, by decide, ?_⟩
    rw [List.forall_mem_cons, List.forall_mem_singleton]
    refine ⟨⟨by decide, by decide, ?_⟩, ⟨by decide, by decide, ?_⟩⟩
    · rw [Expr.Legible, Expr.Legible]
      decide
    · rw [Expr.Legible]
      exact ⟨by decide, List.forall_mem_nil _⟩

/-- They are read back, ports of one bit, empty lists and nested expressions included. -/
theorem readSource_oddities :
    (∀ m ∈ oddities, m.Legible) ∧ (readSource (designText oddities)).value = .ok oddities :=
  ⟨oddities_legible, readSource_designText oddities_legible⟩

end NandHdl
