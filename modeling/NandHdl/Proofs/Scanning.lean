import Mathlib
import NandHdl.Proofs.Decimals
import NandHdl.Token.Layout

/-!
# Cutting a text that was put together

A text put together from pieces is cut into the same pieces again, provided
that none of them swallows the start of the next one.

* `Piece.Stands`: every piece is the longest lexeme at its place.
* `scan_flatten`: such pieces are the lexemes of their text.
* `Zone.Passes`: the shapes that do not end a zone.
* `Lays`: what pieces yield and the zone they lead to, whatever follows them.
-/

namespace NandHdl

/-- A kind of token and its text: what a reader sees of a token. -/
abbrev Word := TokenKind × String

def Token.word (t : Token) : Word := (t.kind, t.value)

namespace Lexeme

/-- A lexeme without its place. -/
structure Piece where
  shape : Shape
  text : List Char

/-- A letter or an underscore, followed by letters, digits and underscores, and not reserved. -/
def IsName (s : String) : Prop :=
  s.toList.head?.any startsName ∧ s.toList.all continuesName ∧ s ≠ "module"

instance : DecidablePred IsName := fun _ => inferInstanceAs (Decidable (_ ∧ _ ∧ _))

/-- The text `cs` does not go on with a letter, a digit or an underscore. -/
def Ends (cs : List Char) : Prop := ∀ c ∈ cs.head?, continuesName c = false

namespace Piece

/-- The text of pieces one after another. -/
def flatten (ps : List Piece) : List Char := ps.flatMap Piece.text

@[simp] theorem flatten_nil : flatten [] = [] := rfl

@[simp] theorem flatten_cons (p : Piece) (ps : List Piece) :
    flatten (p :: ps) = p.text ++ flatten ps := rfl

@[simp] theorem flatten_append (ps qs : List Piece) :
    flatten (ps ++ qs) = flatten ps ++ flatten qs := List.flatMap_append

/-- The pieces as lexemes, the first one at `pos`. -/
def place (pos : Position) : List Piece → List Lexeme
  | [] => []
  | p :: ps => ⟨p.shape, p.text, pos⟩ :: place (pos.after p.text) ps

/-- The word of a piece, if it is one. -/
def word? (p : Piece) : Option Word :=
  match p.shape with
  | .word k => some (k, String.ofList p.text)
  | _ => none

/-- The words among pieces. -/
def words (ps : List Piece) : List Word := ps.filterMap word?

@[simp] theorem words_append (ps qs : List Piece) : words (ps ++ qs) = words ps ++ words qs :=
  List.filterMap_append

/-- Every piece is the longest lexeme at its place. -/
def Stands : List Piece → Prop
  | [] => True
  | p :: ps =>
    (∃ c cs, p.text = c :: cs ∧ cut? c (cs ++ flatten ps) = some ⟨p.shape, p.text, flatten ps⟩) ∧
      Stands ps

/-! ## The pieces of the language -/

def ident (name : String) : Piece := ⟨.word .ident, name.toList⟩

def number (value : Nat) : Piece := ⟨.word .number, (toString value).toList⟩

/-- A word of a single character. -/
def mark (c : Char) (k : TokenKind) : Piece := ⟨.word k, [c]⟩

@[simp] theorem words_ident (name : String) (ps : List Piece) :
    words (ident name :: ps) = (.ident, name) :: words ps := by
  change (TokenKind.ident, String.ofList name.toList) :: words ps = _
  rw [String.ofList_toList]

@[simp] theorem words_number (value : Nat) (ps : List Piece) :
    words (number value :: ps) = (.number, toString value) :: words ps := by
  change (TokenKind.number, String.ofList (toString value).toList) :: words ps = _
  rw [String.ofList_toList]

def lparen : Piece := mark '(' .lparen
def rparen : Piece := mark ')' .rparen
def lbracket : Piece := mark '[' .lbracket
def rbracket : Piece := mark ']' .rbracket
def colon : Piece := mark ':' .colon
def comma : Piece := mark ',' .comma
def dot : Piece := mark '.' .dot
def equals : Piece := mark '=' .equals

def arrow : Piece := ⟨.word .arrow, ['-', '>']⟩

def moduleWord : Piece := ⟨.word .moduleWord, "module".toList⟩

def lineFeed : Piece := ⟨.lineFeed, ['\n']⟩

/-- One or more spaces. -/
def spaces (n : Nat) : Piece := ⟨.blank, ' ' :: List.replicate n ' '⟩

end Piece

open Piece

variable {ps qs : List Piece} {pos : Position}

/-! ## Scanning -/

/-- **Pieces that stand are the lexemes of their text.** -/
theorem scanFrom_flatten : ∀ {ps : List Piece} (pos : Position), Stands ps →
    scanFrom pos (flatten ps) = .ok (place pos ps)
  | [], pos, _ => by rw [flatten_nil, scanFrom, place]
  | p :: ps, pos, ⟨⟨c, cs, htext, hcut⟩, hs⟩ => by
    have htail := scanFrom_flatten (pos.after p.text) hs
    -- bring the first character to the front, since the scanner looks at it alone
    have happ : flatten (p :: ps) = c :: (cs ++ flatten ps) := by
      rw [flatten_cons, htext, List.cons_append]
    rw [happ, scanFrom]
    split
    · next h => rw [hcut] at h; cases h
    · next x h =>
      rw [hcut] at h
      cases h
      rw [htail]
      rfl

theorem scan_flatten (h : Stands ps) : scan (flatten ps) = .ok (place .start ps) :=
  scanFrom_flatten .start h

/-- A run of characters of one class ends where the class does. -/
theorem Cut.run_eq {shape : List Char → Shape} {front cs rest : List Char} {p : Char → Bool}
    (hcs : ∀ c ∈ cs, p c = true) (hrest : ∀ c ∈ rest.head?, p c = false) :
    Cut.run shape front p (cs ++ rest) = ⟨shape (front ++ cs), front ++ cs, rest⟩ := by
  have htake : rest.takeWhile p = [] := by
    cases rest with
    | nil => rfl
    | cons c rest => simp [hrest c (by simp)]
  have hdrop : rest.dropWhile p = rest := by
    cases rest with
    | nil => rfl
    | cons c rest => simp [hrest c (by simp)]
  rw [Cut.run, List.takeWhile_append_of_pos hcs, List.dropWhile_append_of_pos hcs, htake, hdrop,
    List.append_nil]

theorem continuesName_of_startsName {c : Char} (h : startsName c = true) :
    continuesName c = true := by
  rw [startsName, Bool.or_eq_true] at h
  rw [continuesName, Char.isAlphanum, Bool.or_eq_true, Bool.or_eq_true]
  rcases h with h | h
  · exact .inl (.inl h)
  · exact .inr h

theorem continuesName_of_isDigit {c : Char} (h : c.isDigit = true) : continuesName c = true := by
  simp [continuesName, Char.isAlphanum, h]

theorem startsName_of_isDigit {c : Char} (h : c.isDigit = true) : startsName c = false := by
  rw [Char.isDigit_iff_toNat] at h
  have hne : c ≠ '_' := by rintro rfl; exact absurd h (by decide)
  have hv : c.val.toNat = c.toNat := rfl
  -- the letters by their code points, for the digits lie below both alphabets
  simp only [startsName, Char.isAlpha, Char.isUpper, Char.isLower, UInt32.le_iff_toNat_le, hne,
    ge_iff_le, decide_false, Bool.or_false, Bool.or_eq_false_iff, Bool.and_eq_false_iff,
    decide_eq_false_iff_not, hv]
  simp only [Char.reduceToNat, show 'A'.val.toNat = 65 from rfl, show 'Z'.val.toNat = 90 from rfl,
    show 'a'.val.toNat = 97 from rfl, show 'z'.val.toNat = 122 from rfl] at h ⊢
  omega

/-- What a character of a name is not. -/
theorem ne_of_continuesName {c : Char} (h : continuesName c = true) :
    isBlank c = false ∧ c ≠ '\n' ∧ c ≠ ';' := by
  have hne : ∀ d, continuesName d = false → c ≠ d := fun d hd hcd => by
    rw [hcd, hd] at h; cases h
  refine ⟨?_, hne '\n' (by decide), hne ';' (by decide)⟩
  rw [isBlank, Bool.or_eq_false_iff, decide_eq_false_iff_not, decide_eq_false_iff_not]
  exact ⟨hne ' ' (by decide), hne '\t' (by decide)⟩

theorem IsName.toList_eq {s : String} (h : IsName s) :
    ∃ c cs, s.toList = c :: cs ∧ startsName c = true ∧ ∀ d ∈ cs, continuesName d = true := by
  obtain ⟨hhead, hall, -⟩ := h
  cases htext : s.toList with
  | nil => rw [htext] at hhead; cases hhead
  | cons c cs =>
    rw [htext] at hhead hall
    exact ⟨c, cs, rfl, hhead, fun d hd => List.all_eq_true.1 hall d (List.mem_cons_of_mem c hd)⟩

theorem cut?_name {c : Char} {cs rest : List Char} (hc : startsName c = true)
    (hcs : ∀ d ∈ cs, continuesName d = true) (hrest : Ends rest) :
    cut? c (cs ++ rest) = some ⟨.word (nameKind (c :: cs)), c :: cs, rest⟩ := by
  obtain ⟨hb, hn, hs⟩ := ne_of_continuesName (continuesName_of_startsName hc)
  rw [cut?.eq_def, if_neg (by simp [hb]), if_neg hn, if_neg hs, if_pos hc, Cut.run_eq hcs hrest,
    List.singleton_append]

theorem cut?_digits {c : Char} {cs rest : List Char} (hc : c.isDigit = true)
    (hcs : ∀ d ∈ cs, d.isDigit = true) (hrest : Ends rest) :
    cut? c (cs ++ rest) = some ⟨.word .number, c :: cs, rest⟩ := by
  obtain ⟨hb, hn, hs⟩ := ne_of_continuesName (continuesName_of_isDigit hc)
  rw [cut?.eq_def, if_neg (by simp [hb]), if_neg hn, if_neg hs,
    if_neg (by simp [startsName_of_isDigit hc]), if_pos hc]
  -- no radix mark follows the first digit
  have hmark : ∀ d ds, cs ++ rest = d :: ds → continuesName d = false ∨ d.isDigit = true := by
    intro d ds h
    cases cs with
    | nil => exact .inl (hrest d (by rw [← List.nil_append rest, h]; rfl))
    | cons e es =>
      rw [List.cons_append, List.cons.injEq] at h
      exact .inr (hcs d (by simp [h.1]))
  have hdec : cutNumber c (cs ++ rest) = .run (fun _ => .word .number) [c] Char.isDigit (cs ++ rest) := by
    unfold cutNumber
    split
    · next ds h => rcases hmark 'x' ds h with h | h <;> exact absurd h (by decide)
    · next ds h => rcases hmark 'X' ds h with h | h <;> exact absurd h (by decide)
    · rfl
  have hrest' : ∀ d ∈ rest.head?, d.isDigit = false := by
    intro d hd
    cases h : d.isDigit with
    | false => rfl
    | true => exact absurd (hrest d hd) (by simp [continuesName_of_isDigit h])
  rw [hdec, Cut.run_eq hcs hrest', List.singleton_append]

/-! ## Pieces that stand -/

namespace Piece

theorem Stands.ident {name : String} (hname : IsName name) (hends : Ends (flatten ps))
    (hs : Stands ps) : Stands (ident name :: ps) := by
  obtain ⟨c, cs, htext, hc, hcs⟩ := hname.toList_eq
  have hkind : nameKind (c :: cs) = .ident := by
    rw [nameKind, if_neg]
    intro h
    exact hname.2.2 (String.toList_injective (htext.trans h))
  refine ⟨⟨c, cs, htext, ?_⟩, hs⟩
  rw [cut?_name hc hcs hends, hkind, Piece.ident, htext]

theorem Stands.moduleWord (hends : Ends (flatten ps)) (hs : Stands ps) :
    Stands (moduleWord :: ps) := by
  have hletters : ∀ c ∈ ['o', 'd', 'u', 'l', 'e'], continuesName c = true := List.all_eq_true.1 rfl
  refine ⟨⟨'m', ['o', 'd', 'u', 'l', 'e'], rfl, ?_⟩, hs⟩
  rw [cut?_name rfl hletters hends]
  rfl

theorem Stands.number {value : Nat} (hends : Ends (flatten ps)) (hs : Stands ps) :
    Stands (number value :: ps) := by
  obtain ⟨c, cs, htext, hc, hcs⟩ := Numeral.toString_eq_cons value
  refine ⟨⟨c, cs, htext, ?_⟩, hs⟩
  rw [cut?_digits hc hcs hends, Piece.number, htext]

theorem Stands.arrow (hs : Stands ps) : Stands (arrow :: ps) := ⟨⟨'-', ['>'], rfl, rfl⟩, hs⟩

theorem Stands.lineFeed (hs : Stands ps) : Stands (lineFeed :: ps) := ⟨⟨'\n', [], rfl, rfl⟩, hs⟩

theorem Stands.mark {c : Char} {k : TokenKind} (hc : punctuation? c = some k) (hs : Stands ps) :
    Stands (mark c k :: ps) := by
  refine ⟨⟨c, [], rfl, ?_⟩, hs⟩
  rw [List.nil_append, Piece.mark]
  unfold punctuation? at hc
  split at hc <;> cases hc <;> rfl

/-- Spaces stand before anything that is no blank. -/
theorem Stands.spaces (n : Nat) (hne : ∀ c ∈ (flatten ps).head?, isBlank c = false) (hs : Stands ps) :
    Stands (spaces n :: ps) := by
  refine ⟨⟨' ', List.replicate n ' ', rfl, ?_⟩, hs⟩
  have hblank : ∀ c ∈ List.replicate n ' ', isBlank c = true := by
    intro c hc
    rw [List.eq_of_mem_replicate hc]
    decide
  rw [cut?.eq_def, if_pos (by decide), Cut.run_eq hblank hne]
  rfl

end Piece

end Lexeme

/-! ## Layout -/

open Lexeme Lexeme.Piece

/-- The words of the tokens that placed pieces yield from zone `z` on. -/
def laid (z : Zone) (pos : Position) (ps : List Piece) : List Word :=
  (layout z (place pos ps)).map Token.word

/-- A zone goes on behind a lexeme of this shape, and only a word yields a token. -/
def Zone.Passes (z : Zone) : Shape → Prop
  | .blank => z ≠ .body true
  | .word k =>
    match z with
    | .header (_ + 1) _ => k ≠ .moduleWord ∧ k ≠ .lparen ∧ k ≠ .rparen
    | .header 0 _ => k = .ident ∨ k = .number
    | .body false => k ≠ .moduleWord
    | _ => False
  | _ => False

variable {z : Zone} {ps qs : List Piece} {pos : Position}

theorem laid_cons {p : Piece} : laid z pos (p :: ps) =
    (tokenOf? z ⟨p.shape, p.text, pos⟩ (place (pos.after p.text) ps)).toList.map Token.word ++
      laid (z.next ⟨p.shape, p.text, pos⟩ (place (pos.after p.text) ps)) (pos.after p.text) ps := by
  rw [laid, place, layout, List.map_append, laid]

theorem Zone.Passes.next {x : Lexeme} {xs : List Lexeme} (h : z.Passes x.shape) : z.next x xs = z := by
  obtain ⟨shape, text, pos⟩ := x
  cases shape with
  | blank => cases z <;> rfl
  | lineFeed => exact h.elim
  | comment => exact h.elim
  | word k =>
    rcases z with _ | ⟨_ | d, a⟩ | _ | _ | _
    · exact h.elim
    · -- behind the last parenthesis only names and numbers may come
      rcases h with rfl | rfl <;> rfl
    · obtain ⟨hm, hl, hr⟩ := h
      -- inside parentheses only they and a header change the depth
      cases k <;> first | rfl | contradiction
    · exact h.elim
    · cases k <;> first | rfl | exact absurd rfl h
    · exact h.elim

theorem Zone.Passes.tokenOf? {p : Piece} {xs : List Lexeme} (h : z.Passes p.shape) :
    (tokenOf? z ⟨p.shape, p.text, pos⟩ xs).toList.map Token.word = p.word?.toList := by
  obtain ⟨shape, text⟩ := p
  cases shape with
  | blank =>
    rcases z with _ | _ | _ | _ | _
    · rfl
    · rfl
    · rfl
    · rfl
    · exact absurd rfl h
  | lineFeed => exact h.elim
  | comment => exact h.elim
  | word k => rfl

/-- From zone `z` on the pieces `ps` yield the words `ws` and lead to zone `z'`, whatever follows. -/
def Lays (z : Zone) (ps : List Piece) (ws : List Word) (z' : Zone) : Prop :=
  ∀ (pos : Position) (rest : List Piece),
    laid z pos (ps ++ rest) = ws ++ laid z' (pos.after (flatten ps)) rest

theorem Lays.nil (z : Zone) : Lays z [] [] z := fun _ _ => rfl

theorem Lays.append {z' z'' : Zone} {ws vs : List Word} (h : Lays z ps ws z') (h' : Lays z' qs vs z'') :
    Lays z (ps ++ qs) (ws ++ vs) z'' := by
  intro pos rest
  rw [List.append_assoc, h, h', flatten_append, Position.after_append, List.append_assoc]

/-- **Pieces that a zone passes yield their words.** -/
theorem Lays.of_passes (h : ∀ p ∈ ps, z.Passes p.shape) : Lays z ps (words ps) z := by
  induction ps with
  | nil => exact Lays.nil z
  | cons p ps ih =>
    have hp : z.Passes p.shape := h p (by simp)
    have hps := ih fun q hq => h q (by simp [hq])
    have hword : words (p :: ps) = p.word?.toList ++ words ps := by
      cases hw : p.word? with
      | none => simp [words, hw]
      | some w => simp [words, hw]
    -- the first piece leaves the zone, so the others start from the same one
    intro pos rest
    rw [List.cons_append, laid_cons, hp.tokenOf?, hp.next, hps, flatten_cons, Position.after_append,
      hword, List.append_assoc]

end NandHdl
