import NandHdl.Design.Printer
import NandHdl.Proofs.Scanning

/-!
# The pieces of a printed design

* `Module.Legible`: modules whose names are names and whose numbers can be read.
* `Module.pieces`, `Module.printedWords`: what a printed module consists of, and what
  a reader should see of it.
* `flatten_pieces`: the pieces put together are the printed text.
* `ofText_designText`: the tokens of a printed design are its words.
-/

namespace NandHdl

open Lexeme (IsName Ends Piece)
open Lexeme.Piece

/-! ## What can be written down -/

/-- The name and the width of a port can be read. -/
def Port.Legible (p : Port) : Prop := IsName p.name ∧ 1 ≤ p.width ∧ p.width ≤ widthLimit

instance : DecidablePred Port.Legible := fun _ => inferInstanceAs (Decidable (_ ∧ _ ∧ _))

/-- All names and numbers of an expression can be read. -/
def Expr.Legible : Expr → Prop
  | identifier name => IsName name
  | number value => value < wordLimit
  | call name args => IsName name ∧ ∀ a ∈ args, a.Legible
  | member object field => object.Legible ∧ IsName field
  | select object range => object.Legible ∧ range.hi ≤ widthLimit

/-- All names and numbers of a statement can be read. -/
structure Statement.Legible (s : Statement) : Prop where
  target : IsName s.target.name
  range : ∀ r ∈ s.target.range, r.hi ≤ widthLimit
  expr : s.expr.Legible

/-- All names and numbers of a module can be read. -/
structure Module.Legible (m : Module) : Prop where
  name : IsName m.name
  inputs : ∀ p ∈ m.inputs, p.Legible
  outputs : ∀ p ∈ m.outputs, p.Legible
  statements : ∀ s ∈ m.statements, s.Legible

/-! ## Pieces -/

/-- Phrases, separated by commas. -/
def commas (phrases : List (List Piece)) : List Piece := [comma, spaces 0].intercalate phrases

/-- The width of a port, unless it is the one that a port has without saying so. -/
def Port.widthPieces (width : Nat) : List Piece := if width = 1 then [] else [colon, number width]

def Port.pieces (p : Port) : List Piece := ident p.name :: widthPieces p.width

def BitRange.pieces : BitRange → List Piece
  | bit i => [lbracket, number i, rbracket]
  | slice a b => [lbracket, number a, colon, number b, rbracket]

def Expr.pieces : Expr → List Piece
  | identifier name => [ident name]
  | number value => [Piece.number value]
  | call name args => ident name :: lparen :: (commas (args.map Expr.pieces) ++ [rparen])
  | member object field => object.pieces ++ [dot, ident field]
  | select object range => object.pieces ++ range.pieces

def Target.rangePieces (t : Target) : List Piece := (t.range.map BitRange.pieces).getD []

def Statement.pieces (s : Statement) : List Piece :=
  ident s.target.name :: (s.target.rangePieces ++ (spaces 0 :: equals :: spaces 0 :: s.expr.pieces))

/-- A line of a body. -/
def Statement.line (s : Statement) : List Piece := spaces 3 :: (s.pieces ++ [lineFeed])

def Module.outputsPieces : List Port → List Piece
  | [p] => p.pieces
  | ps => lparen :: (commas (ps.map Port.pieces) ++ [rparen])

/-- A header up to its last colon. -/
def Module.header (m : Module) : List Piece :=
  [moduleWord, spaces 0, ident m.name, lparen] ++ commas (m.inputs.map Port.pieces) ++
    [rparen, spaces 0, arrow, spaces 0] ++ outputsPieces m.outputs

def Module.pieces (m : Module) : List Piece :=
  m.header ++ [colon, lineFeed] ++ m.statements.flatMap Statement.line

/-! ## The text of the pieces -/

theorem flatten_commas_cons (a : List Piece) {as : List (List Piece)} (h : as ≠ []) :
    flatten (commas (a :: as)) = flatten a ++ ", ".toList ++ flatten (commas as) := by
  rw [commas, List.intercalate_cons_of_ne_nil h, flatten_append, flatten_append]
  rfl

/-- Phrases that are separated by commas have their texts separated by commas. -/
theorem flatten_commas : ∀ phrases : List (List Piece),
    flatten (commas phrases) = ", ".toList.intercalate (phrases.map flatten)
  | [] => rfl
  | [a] => by simp [commas]
  | a :: b :: as => by
    have hne : (b :: as).map flatten ≠ [] := by simp
    rw [flatten_commas_cons a (by simp), flatten_commas (b :: as), List.map_cons (a := a),
      List.intercalate_cons_of_ne_nil hne]

/-- A text is what an interpolated text shows of it. -/
theorem toString_string (s : String) : toString s = s := rfl

theorem Port.flatten_pieces (p : Port) : flatten p.pieces = p.text.toList := by
  rw [Port.pieces, Port.text, Port.widthPieces]
  by_cases h : p.width = 1
  · simp [h, ident]
  · simp [h, ident, number, colon, mark, toString_string]

theorem BitRange.flatten_pieces (r : BitRange) : flatten r.pieces = r.text.toList := by
  cases r with
  | bit i => simp [BitRange.pieces, BitRange.text, lbracket, rbracket, mark, number,
      toString_string]
  | slice a b => simp [BitRange.pieces, BitRange.text, lbracket, rbracket, colon, mark, number,
      toString_string]

mutual

theorem Expr.flatten_pieces : ∀ e : Expr, flatten e.pieces = e.text.toList
  | identifier name => by simp [Expr.pieces, Expr.text, ident]
  | number value => by simp [Expr.pieces, Expr.text, Piece.number]
  | call name args => by
    have h := Expr.flatten_argsPieces args
    simp [Expr.pieces, Expr.text, ident, lparen, rparen, mark, h]
  | member object field => by
    have h := Expr.flatten_pieces object
    simp [Expr.pieces, Expr.text, ident, dot, mark, h]
  | select object range => by
    rw [Expr.pieces, Expr.text, flatten_append, Expr.flatten_pieces object, range.flatten_pieces,
      String.toList_append]

theorem Expr.flatten_argsPieces :
    ∀ args : List Expr, flatten (commas (args.map Expr.pieces)) = (argsText args).toList
  | [] => rfl
  | [a] => by
    have h := Expr.flatten_pieces a
    simp [commas, argsText, h]
  | a :: b :: as => by
    have hs := Expr.flatten_argsPieces (b :: as)
    rw [List.map_cons, flatten_commas_cons _ (by simp), Expr.flatten_pieces a, hs, argsText,
      String.toList_append, String.toList_append]

end

theorem Statement.flatten_pieces (s : Statement) : flatten s.pieces = s.text.toList := by
  rw [Statement.pieces, Statement.text, Target.text, Target.rangePieces, flatten_cons,
    flatten_append, flatten_cons, flatten_cons, flatten_cons, Expr.flatten_pieces]
  cases hr : s.target.range with
  | none => simp [ident, spaces, equals, mark]
  | some r =>
    have h := r.flatten_pieces
    simp [ident, spaces, equals, mark, h]

theorem Port.flatten_listPieces (ps : List Port) :
    flatten (commas (ps.map Port.pieces)) = (Port.listText ps).toList := by
  have hmap : (ps.map Port.pieces).map flatten = (ps.map Port.text).map String.toList := by
    simp only [List.map_map, List.map_inj_left, Function.comp_apply]
    exact fun p _ => p.flatten_pieces
  rw [flatten_commas, hmap, Port.listText, String.toList_intercalate]

theorem Module.flatten_outputsPieces (ps : List Port) :
    flatten (outputsPieces ps) = (outputsText ps).toList := by
  unfold outputsPieces outputsText
  split
  · next p => exact p.flatten_pieces
  · have h := Port.flatten_listPieces ps
    simp [lparen, rparen, mark, h]

theorem Module.flatten_pieces (m : Module) : flatten m.pieces = m.text.toList := by
  have hin := Port.flatten_listPieces m.inputs
  have hout := Module.flatten_outputsPieces m.outputs
  -- line by line, the blanks before a statement and its line feed included
  have hbody : flatten (m.statements.flatMap Statement.line) =
      m.statements.flatMap fun s => ("    " ++ s.text ++ "\n").toList := by
    induction m.statements with
    | nil => rfl
    | cons s ss ih =>
      have hs := s.flatten_pieces
      rw [List.flatMap_cons, List.flatMap_cons, flatten_append, ih]
      simp [Statement.line, spaces, lineFeed, hs]
  rw [Module.pieces, Module.text, flatten_append, hbody]
  simp [Module.header, moduleWord, spaces, ident, lparen, rparen, arrow, colon, lineFeed, mark, hin,
    hout, List.flatMap_map]

/-- **A printed design is the text of its pieces.** -/
theorem flatten_flatMap_pieces (ms : List Module) :
    flatten (ms.flatMap Module.pieces) = (designText ms).toList := by
  rw [designText, String.toList_join, List.flatMap_map]
  induction ms with
  | nil => rfl
  | cons m ms ih =>
    rw [List.flatMap_cons, List.flatMap_cons, flatten_append, m.flatten_pieces, ih]

/-! ## Cutting -/

/-- Pieces that stand wherever the text ends behind them, and that start with no blank. -/
structure Phrase (ps : List Piece) : Prop where
  stands : ∀ rest, Ends (flatten rest) → Stands rest → Stands (ps ++ rest)
  head : ∃ c cs, flatten ps = c :: cs ∧ Lexeme.isBlank c = false

theorem ends_cons {c : Char} {cs : List Char} (h : Lexeme.continuesName c = false) : Ends (c :: cs) := by
  intro d hd
  cases hd
  exact h

/-- Behind a phrase that something follows, no blank comes first. -/
theorem Phrase.head_append {ps : List Piece} (h : Phrase ps) (rest : List Piece) :
    ∀ c ∈ (flatten (ps ++ rest)).head?, Lexeme.isBlank c = false := by
  obtain ⟨c, cs, hflat, hc⟩ := h.head
  intro d hd
  rw [flatten_append, hflat] at hd
  cases hd
  exact hc

theorem phrase_ident {name : String} (h : IsName name) : Phrase [ident name] := by
  refine ⟨fun rest he hs => .ident h he hs, ?_⟩
  obtain ⟨c, cs, htext, hc, -⟩ := h.toList_eq
  refine ⟨c, cs ++ [], by rw [flatten_cons, ident, htext]; rfl, ?_⟩
  exact (Lexeme.ne_of_continuesName (Lexeme.continuesName_of_startsName hc)).1

theorem phrase_number (value : Nat) : Phrase [Piece.number value] := by
  refine ⟨fun rest he hs => .number he hs, ?_⟩
  obtain ⟨c, cs, htext, hc, -⟩ := Numeral.toString_eq_cons value
  refine ⟨c, cs ++ [], by rw [flatten_cons, Piece.number, htext]; rfl, ?_⟩
  exact (Lexeme.ne_of_continuesName (Lexeme.continuesName_of_isDigit hc)).1

/-- Pieces that stand behind a word wherever the text ends behind them. -/
def Suffix (qs : List Piece) : Prop :=
  ∀ rest, Ends (flatten rest) → Stands rest → Ends (flatten (qs ++ rest)) ∧ Stands (qs ++ rest)

theorem Phrase.append {ps qs : List Piece} (h : Phrase ps) (hq : Suffix qs) : Phrase (ps ++ qs) := by
  obtain ⟨c, cs, hflat, hc⟩ := h.head
  refine ⟨fun rest he hs => ?_, c, cs ++ flatten qs, by rw [flatten_append, hflat]; rfl, hc⟩
  obtain ⟨he', hs'⟩ := hq rest he hs
  rw [List.append_assoc]
  exact h.stands _ he' hs'

theorem Suffix.append {ps qs : List Piece} (h : Suffix ps) (hq : Suffix qs) : Suffix (ps ++ qs) := by
  intro rest he hs
  obtain ⟨he', hs'⟩ := hq rest he hs
  rw [List.append_assoc]
  exact h _ he' hs'

theorem commas_cons (a : List Piece) (as : List (List Piece)) : ∃ qs, commas (a :: as) = a ++ qs := by
  cases as with
  | nil => exact ⟨[], by simp [commas]⟩
  | cons b as => exact ⟨[comma, spaces 0] ++ commas (b :: as), by simp [commas]⟩

theorem stands_commas {phrases : List (List Piece)} (h : ∀ ps ∈ phrases, Phrase ps) {rest : List Piece}
    (he : Ends (flatten rest)) (hs : Stands rest) : Stands (commas phrases ++ rest) := by
  induction phrases with
  | nil => exact hs
  | cons a as ih =>
    have ha : Phrase a := h a (by simp)
    cases as with
    | nil =>
      rw [commas, List.intercalate_singleton]
      exact ha.stands rest he hs
    | cons b as =>
      have hb : Phrase b := h b (by simp)
      have htail := ih fun ps hps => h ps (List.mem_cons_of_mem a hps)
      -- the blank behind a comma is not the start of a longer one
      have hhead : ∀ c ∈ (flatten (commas (b :: as) ++ rest)).head?, Lexeme.isBlank c = false := by
        obtain ⟨qs, hqs⟩ := commas_cons b as
        rw [hqs, List.append_assoc]
        exact hb.head_append _
      rw [commas, List.intercalate_cons_cons, List.append_assoc, List.append_assoc]
      exact ha.stands _ (ends_cons (by decide)) (.mark rfl (.spaces 0 hhead htail))

/-- Phrases between parentheses. -/
theorem suffix_closed {phrases : List (List Piece)} (h : ∀ ps ∈ phrases, Phrase ps) :
    Suffix (lparen :: (commas phrases ++ [rparen])) := by
  intro rest _ hs
  have hinner : Stands (commas phrases ++ ([rparen] ++ rest)) :=
    stands_commas h (ends_cons (by decide)) (.mark rfl hs)
  rw [← List.append_assoc] at hinner
  exact ⟨ends_cons (by decide), .mark rfl hinner⟩

theorem Port.Legible.phrase {p : Port} (h : p.Legible) : Phrase p.pieces := by
  have hwidth : Suffix (Port.widthPieces p.width) := by
    intro rest he hs
    by_cases hw : p.width = 1
    · rw [Port.widthPieces, if_pos hw]
      exact ⟨he, hs⟩
    · rw [Port.widthPieces, if_neg hw]
      exact ⟨ends_cons (by decide), .mark rfl (.number he hs)⟩
  exact (phrase_ident h.1).append hwidth

theorem BitRange.suffix (r : BitRange) : Suffix r.pieces := by
  intro rest he hs
  refine ⟨?_, ?_⟩
  · cases r <;> exact ends_cons (by decide)
  · cases r with
    | bit i => exact .mark rfl (.number (ends_cons (by decide)) (.mark rfl hs))
    | slice a b =>
      exact .mark rfl (.number (ends_cons (by decide))
        (.mark rfl (.number (ends_cons (by decide)) (.mark rfl hs))))

/-- **An expression stands wherever the text ends behind it.** -/
theorem Expr.Legible.phrase {e : Expr} (h : e.Legible) : Phrase e.pieces := by
  induction e using Expr.pieces.induct with
  | case1 name =>
    rw [Expr.Legible] at h
    rw [Expr.pieces]
    exact phrase_ident h
  | case2 value =>
    rw [Expr.pieces]
    exact phrase_number value
  | case3 name args ih =>
    rw [Expr.Legible] at h
    rw [Expr.pieces]
    refine (phrase_ident h.1).append (suffix_closed ?_)
    intro ps hps
    obtain ⟨a, ha, rfl⟩ := List.mem_map.1 hps
    exact ih a ha (h.2 a ha)
  | case4 object field ih =>
    rw [Expr.Legible] at h
    rw [Expr.pieces]
    exact (ih h.1).append fun rest he hs => ⟨ends_cons (by decide), .mark rfl (.ident h.2 he hs)⟩
  | case5 object range ih =>
    rw [Expr.Legible] at h
    rw [Expr.pieces]
    exact (ih h.1).append range.suffix

theorem Statement.Legible.phrase {s : Statement} (h : s.Legible) : Phrase s.pieces := by
  have hrange : Suffix s.target.rangePieces := by
    rw [Target.rangePieces]
    cases s.target.range with
    | none => exact fun rest he hs => ⟨he, hs⟩
    | some r => exact r.suffix
  -- the blanks round the sign stand, since neither the sign nor an expression starts with one
  have hexpr : Suffix (spaces 0 :: equals :: spaces 0 :: s.expr.pieces) := by
    intro rest he hs
    have hright := h.expr.phrase
    refine ⟨ends_cons (by decide), .spaces 0 ?_ (.mark rfl (.spaces 0 ?_ (hright.stands rest he hs)))⟩
    · rintro c ⟨⟩
      decide
    · exact hright.head_append rest
  exact (phrase_ident h.target).append (hrange.append hexpr)

theorem phrases_ports {ps : List Port} (h : ∀ p ∈ ps, p.Legible) :
    ∀ qs ∈ ps.map Port.pieces, Phrase qs := by
  intro qs hqs
  obtain ⟨p, hp, rfl⟩ := List.mem_map.1 hqs
  exact (h p hp).phrase

theorem Module.phrase_outputsPieces {ps : List Port} (h : ∀ p ∈ ps, p.Legible) :
    Phrase (outputsPieces ps) := by
  unfold outputsPieces
  split
  · next p => exact (h p (by simp)).phrase
  · have hclosed := suffix_closed (phrases_ports h)
    exact ⟨fun rest he hs => (hclosed rest he hs).2, '(', _, rfl, by decide⟩

theorem stands_lines {ss : List Statement} (h : ∀ s ∈ ss, s.Legible) {rest : List Piece}
    (hs : Stands rest) : Stands (ss.flatMap Statement.line ++ rest) := by
  induction ss with
  | nil => exact hs
  | cons s ss ih =>
    have hline := (h s (by simp)).phrase
    have htail := ih fun t ht => h t (by simp [ht])
    have hend : Ends (flatten (lineFeed :: (ss.flatMap Statement.line ++ rest))) := ends_cons (by decide)
    rw [List.flatMap_cons, Statement.line, List.cons_append, List.cons_append, List.append_assoc,
      List.append_assoc, List.singleton_append]
    exact .spaces 3 (hline.head_append _) (hline.stands _ hend (.lineFeed htail))

/-- **The pieces of a module stand** in front of whatever stands. -/
theorem Module.Legible.stands {m : Module} (h : m.Legible) {rest : List Piece} (hs : Stands rest) :
    Stands (m.pieces ++ rest) := by
  have hname := phrase_ident h.name
  have hout := Module.phrase_outputsPieces h.outputs
  have hsplit : m.pieces ++ rest = moduleWord :: spaces 0 :: ([ident m.name] ++ lparen ::
      (commas (m.inputs.map Port.pieces) ++ rparen :: spaces 0 :: arrow :: spaces 0 ::
        (outputsPieces m.outputs ++ colon :: lineFeed ::
          (m.statements.flatMap Statement.line ++ rest)))) := by
    simp [Module.pieces, Module.header]
  -- piece by piece from the left, with all that follows as the rest
  rw [hsplit]
  refine .moduleWord (ends_cons (by decide)) (.spaces 0 (hname.head_append _) ?_)
  refine hname.stands _ (ends_cons (by decide)) (.mark rfl ?_)
  refine stands_commas (phrases_ports h.inputs) (ends_cons (by decide)) (.mark rfl ?_)
  refine .spaces 0 (by rintro c ⟨⟩; decide) (.arrow (.spaces 0 (hout.head_append _) ?_))
  exact hout.stands _ (ends_cons (by decide)) (.mark rfl (.lineFeed (stands_lines h.statements hs)))

theorem stands_flatMap_pieces {ms : List Module} (h : ∀ m ∈ ms, m.Legible) :
    Stands (ms.flatMap Module.pieces) := by
  induction ms with
  | nil => trivial
  | cons m ms ih =>
    rw [List.flatMap_cons]
    exact (h m (by simp)).stands (ih fun n hn => h n (by simp [hn]))

/-! ## Layout -/

/-- What a reader sees of a line of a body. -/
def Statement.lineWords (s : Statement) : List Word :=
  (.indent, "    ") :: (words s.pieces ++ [(.newline, "\n")])

/-- What a reader sees of a module. -/
def Module.printedWords (m : Module) : List Word :=
  words m.header ++ [(.colon, ":"), (.newline, "\n")] ++ m.statements.flatMap Statement.lineWords

theorem mem_commas {phrases : List (List Piece)} {p : Piece} (h : p ∈ commas phrases) :
    p = comma ∨ p = spaces 0 ∨ ∃ ps ∈ phrases, p ∈ ps := by
  induction phrases with
  | nil => cases h
  | cons a as ih =>
    cases as with
    | nil =>
      rw [commas, List.intercalate_singleton] at h
      exact .inr (.inr ⟨a, by simp, h⟩)
    | cons b as =>
      rw [commas, List.intercalate_cons_cons, List.mem_append, List.mem_append] at h
      rcases h with (h | h) | h
      · exact .inr (.inr ⟨a, by simp, h⟩)
      · rcases List.mem_cons.1 h with h | h
        · exact .inl h
        · exact .inr (.inl (List.mem_singleton.1 h))
      · rcases ih h with h | h | ⟨ps, hps, h⟩
        · exact .inl h
        · exact .inr (.inl h)
        · exact .inr (.inr ⟨ps, List.mem_cons_of_mem a hps, h⟩)

theorem Port.passes {p : Port} {d : Nat} {a : Bool} :
    ∀ q ∈ p.pieces, (Zone.header (d + 1) a).Passes q.shape := by
  intro q hq
  rw [Port.pieces, Port.widthPieces] at hq
  by_cases hw : p.width = 1
  · simp only [hw, if_true, List.mem_singleton] at hq
    subst hq
    exact ⟨by decide, by decide, by decide⟩
  · simp only [hw, if_false, List.mem_cons, List.not_mem_nil, or_false] at hq
    rcases hq with rfl | rfl | rfl <;> exact ⟨by decide, by decide, by decide⟩

/-- Ports between parentheses. -/
theorem lays_closed (ps : List Port) (d : Nat) (a : Bool) :
    Lays (.header d a) (lparen :: (commas (ps.map Port.pieces) ++ [rparen]))
      (words (lparen :: (commas (ps.map Port.pieces) ++ [rparen]))) (.header d a) := by
  have hpass : ∀ q ∈ commas (ps.map Port.pieces), (Zone.header (d + 1) a).Passes q.shape := by
    intro q hq
    rcases mem_commas hq with rfl | rfl | ⟨qs, hqs, hq⟩
    · exact ⟨by decide, by decide, by decide⟩
    · nofun
    · obtain ⟨p, -, rfl⟩ := List.mem_map.1 hqs
      exact Port.passes q hq
  -- the parentheses lead one level down and up again
  have hopen : Lays (.header d a) [lparen] (words [lparen]) (.header (d + 1) a) := fun _ _ => rfl
  have hclose : Lays (.header (d + 1) a) [rparen] (words [rparen]) (.header d a) := fun _ _ => rfl
  have hall := hopen.append ((Lays.of_passes hpass).append hclose)
  rw [← words_append, ← words_append] at hall
  exact hall

/-- The colon before a width does not end the header, since a number follows it. -/
theorem Port.lays (p : Port) : Lays (.header 0 true) p.pieces (words p.pieces) (.header 0 true) := by
  have hname : Lays (.header 0 true) [ident p.name] (words [ident p.name]) (.header 0 true) :=
    Lays.of_passes fun q hq => by rw [List.mem_singleton.1 hq]; exact .inl rfl
  have hwidth : Lays (.header 0 true) (widthPieces p.width) (words (widthPieces p.width))
      (.header 0 true) := by
    rw [widthPieces]
    split
    · exact Lays.nil _
    · -- the zone looks one lexeme ahead of a colon, so the two pieces go together
      intro pos rest
      simp only [flatten_cons, flatten_nil, List.append_nil]
      rfl
  have hall := hname.append hwidth
  rw [← words_append] at hall
  exact hall

theorem Module.lays_outputsPieces (ps : List Port) :
    Lays (.header 0 true) (outputsPieces ps) (words (outputsPieces ps)) (.header 0 true) := by
  unfold outputsPieces
  split
  · next p => exact p.lays
  · exact lays_closed _ 0 true

theorem Module.lays_header (m : Module) (z : Zone) : Lays z m.header (words m.header) (.header 0 true) := by
  -- the first word starts a header from any zone
  have hname : Lays z [moduleWord, spaces 0, ident m.name] (words [moduleWord, spaces 0, ident m.name])
      (.header 0 false) := by
    intro pos rest
    simp only [flatten_cons, flatten_nil, List.append_nil]
    cases z <;> rfl
  have harrow : Lays (.header 0 false) [spaces 0, arrow, spaces 0]
      (words [spaces 0, arrow, spaces 0]) (.header 0 true) := fun _ _ => rfl
  have hall := hname.append ((lays_closed m.inputs 0 false).append
    (harrow.append (Module.lays_outputsPieces m.outputs)))
  rw [← words_append, ← words_append, ← words_append] at hall
  simpa [Module.header] using hall

/-- A piece of a statement: a word that starts no module, or a blank. -/
def Inner (p : Piece) : Prop := (Zone.body false).Passes p.shape

theorem BitRange.inner (r : BitRange) : ∀ p ∈ r.pieces, Inner p := by
  intro p hp
  cases r with
  | bit i =>
    simp only [BitRange.pieces, List.mem_cons, List.not_mem_nil, or_false] at hp
    rcases hp with rfl | rfl | rfl <;> nofun
  | slice a b =>
    simp only [BitRange.pieces, List.mem_cons, List.not_mem_nil, or_false] at hp
    rcases hp with rfl | rfl | rfl | rfl | rfl <;> nofun

theorem Expr.inner (e : Expr) : ∀ p ∈ e.pieces, Inner p := by
  induction e using Expr.pieces.induct with
  | case1 name =>
    intro p hp
    rw [Expr.pieces, List.mem_singleton] at hp
    subst hp
    nofun
  | case2 value =>
    intro p hp
    rw [Expr.pieces, List.mem_singleton] at hp
    subst hp
    nofun
  | case3 name args ih =>
    intro p hp
    simp only [Expr.pieces, List.mem_cons, List.mem_append, List.not_mem_nil, or_false] at hp
    rcases hp with rfl | rfl | hp | rfl
    · nofun
    · nofun
    · rcases mem_commas hp with rfl | rfl | ⟨ps, hps, hp⟩
      · nofun
      · nofun
      · obtain ⟨a, ha, rfl⟩ := List.mem_map.1 hps
        exact ih a ha p hp
    · nofun
  | case4 object field ih =>
    intro p hp
    simp only [Expr.pieces, List.mem_cons, List.mem_append, List.not_mem_nil, or_false] at hp
    rcases hp with hp | rfl | rfl
    · exact ih p hp
    · nofun
    · nofun
  | case5 object range ih =>
    intro p hp
    rw [Expr.pieces, List.mem_append] at hp
    rcases hp with hp | hp
    · exact ih p hp
    · exact range.inner p hp

theorem Statement.lays (s : Statement) : Lays (.body true) s.line s.lineWords (.body true) := by
  -- the first blanks are an indent only in front of a word, so the two go together
  have hstart : Lays (.body true) [spaces 3, ident s.target.name]
      ((.indent, "    ") :: words [ident s.target.name]) (.body false) := by
    intro pos rest
    simp only [flatten_cons, flatten_nil, List.append_nil]
    rfl
  have hmiddle : Lays (.body false)
      (s.target.rangePieces ++ (spaces 0 :: equals :: spaces 0 :: s.expr.pieces))
      (words (s.target.rangePieces ++ (spaces 0 :: equals :: spaces 0 :: s.expr.pieces))) (.body false) := by
    refine Lays.of_passes fun p hp => ?_
    simp only [List.mem_append, List.mem_cons] at hp
    rcases hp with hp | rfl | rfl | rfl | hp
    · rw [Target.rangePieces] at hp
      cases hr : s.target.range with
      | none => rw [hr] at hp; cases hp
      | some r => rw [hr] at hp; exact r.inner p hp
    · nofun
    · nofun
    · nofun
    · exact s.expr.inner p hp
  have hend : Lays (.body false) [lineFeed] [(.newline, "\n")] (.body true) := fun _ _ => rfl
  exact hstart.append (hmiddle.append hend)

/-- **The words of a module** are what its printed form yields, whatever stands before it. -/
theorem Module.lays (m : Module) (z : Zone) : Lays z m.pieces m.printedWords (.body true) := by
  have hend : Lays (.header 0 true) [colon, lineFeed] [(.colon, ":"), (.newline, "\n")] (.body true) :=
    fun _ _ => rfl
  have hbody : ∀ ss : List Statement, Lays (.body true) (ss.flatMap Statement.line)
      (ss.flatMap Statement.lineWords) (.body true) := by
    intro ss
    induction ss with
    | nil => exact Lays.nil _
    | cons s ss ih => exact s.lays.append ih
  exact ((m.lays_header z).append hend).append (hbody m.statements)

theorem lays_flatMap_pieces (ms : List Module) (z : Zone) :
    ∃ z', Lays z (ms.flatMap Module.pieces) (ms.flatMap Module.printedWords) z' := by
  induction ms generalizing z with
  | nil => exact ⟨z, Lays.nil z⟩
  | cons m ms ih =>
    obtain ⟨z', h⟩ := ih (.body true)
    exact ⟨z', (m.lays z).append h⟩

/-- **The tokens of a printed design** are the words of its modules and the mark of the end. -/
theorem ofText_designText {ms : List Module} (h : ∀ m ∈ ms, m.Legible) :
    ∃ tokens, Token.ofText (designText ms) = .ok tokens ∧
      tokens.map Token.word = ms.flatMap Module.printedWords ++ [(.eof, "")] := by
  obtain ⟨z', hlays⟩ := lays_flatMap_pieces ms .outside
  have hscan := Lexeme.scan_flatten (stands_flatMap_pieces h)
  rw [flatten_flatMap_pieces] at hscan
  refine ⟨layout .outside (place .start (ms.flatMap Module.pieces)) ++
    [⟨.eof, "", Position.start.after (designText ms).toList⟩], by rw [Token.ofText, hscan]; rfl, ?_⟩
  have hwords := hlays .start []
  rw [List.append_nil, laid] at hwords
  rw [List.map_append, hwords, List.append_assoc]
  rfl

end NandHdl
