import NandHdl.Proofs.LaidOut
import NandHdl.Proofs.Places
import NandHdl.Toolchain

/-!
# Comments

A text is read as if its comments were not there. All that they move is what comes behind them on their line, which is
the line break or the end.

* `withoutComments`: a text whose comments have been left out.
* `Token.Moved`: a token of the text, and the same one without comments.
* `Lexeme.cut?_withoutComments`: the same lexemes are cut off.
* `Lexeme.scanFrom_withoutComments`: both texts are scanned side by side.
* `Lexeme.Stripped.toCome`: the layout is the same.
* `readSource_plainSource`: **without its comments a text is read as with them.**
-/

namespace NandHdl

open Lexeme (longestRun_run tokenOf? lineDone wordNext toCome toCome_cons)

/-! ## Leaving comments out -/

/-- The text without its comments, where `inside` says whether it starts in one. -/
def dropComments : Bool → List Char → List Char
  | _, [] => []
  | inside, c :: cs =>
    if c = '\n' then c :: dropComments false cs
    else if inside || c = ';' then dropComments true cs
    else c :: dropComments false cs

/-- The text without its comments. A comment goes from a semicolon to the end of the line, which stays. -/
def withoutComments (cs : List Char) : List Char := dropComments false cs

/-- The source text without its comments. -/
def plainSource (source : String) : String := String.ofList (withoutComments source.toList)

/-- The tokens differ at most in their places. These are on one line, and the same, unless they are those of a line
break or the end and the second one is in `C`. -/
structure Token.Moved (C : Position → Prop) (t u : Token) : Prop where
  word : t.word = u.word
  line : t.pos.line = u.pos.line
  pos : t.pos = u.pos ∨ (t.kind = .newline ∨ t.kind = .eof) ∧ C u.pos

theorem dropComments_true (cs : List Char) :
    dropComments true cs = withoutComments (cs.dropWhile (· ≠ '\n')) := by
  induction cs with
  | nil => rfl
  | cons c cs ih =>
    rw [dropComments]
    by_cases hc : c = '\n'
    · subst hc
      rfl
    · rw [if_neg hc, if_pos (by rw [Bool.true_or]), ih, List.dropWhile_cons_of_pos (by simpa using hc)]

/-- A comment goes to the end of its line. -/
theorem withoutComments_semicolon (cs : List Char) :
    withoutComments (';' :: cs) = withoutComments (cs.dropWhile (· ≠ '\n')) := dropComments_true cs

theorem withoutComments_cons {c : Char} (hc : c ≠ ';') (cs : List Char) :
    withoutComments (c :: cs) = c :: withoutComments cs := by
  rw [withoutComments, dropComments, ite_eq_left_iff.2 fun _ => if_neg (by simpa using hc)]
  rfl

theorem withoutComments_append {t : List Char} (ht : ';' ∉ t) (rest : List Char) :
    withoutComments (t ++ rest) = t ++ withoutComments rest := by
  induction t with
  | nil => rfl
  | cons c t ih =>
    rw [List.mem_cons, not_or] at ht
    rw [List.cons_append, withoutComments_cons (Ne.symm ht.1), ih ht.2, List.cons_append]

/-- What comes first is a line break, or comes first with comments, too. -/
theorem head_withoutComments {cs : List Char} {d : Char} (hd : d ∈ (withoutComments cs).head?) :
    d = '\n' ∨ d ∈ cs.head? := by
  cases cs with
  | nil => cases hd
  | cons c cs =>
    by_cases hc : c = ';'
    · -- behind the comment there is a line break or nothing
      subst hc
      rw [withoutComments_semicolon] at hd
      have hstop := (longestRun_run (· ≠ '\n') cs).stops
      generalize cs.dropWhile (· ≠ '\n') = rest at hd hstop
      cases rest with
      | nil => cases hd
      | cons b rest =>
        have hb : b = '\n' := by simpa using hstop b rfl
        subst hb
        cases hd
        exact .inl rfl
    · rw [withoutComments_cons hc] at hd
      exact .inr hd

namespace Lexeme

/-! ## Cuts -/

/-- The cut with comments left out of what follows it. -/
def Cut.plain (x : Cut) : Cut := ⟨x.shape, x.text, withoutComments x.rest⟩

/-- A run that no semicolon and no line feed belongs to ends where it did. -/
theorem Cut.run_withoutComments {p : Char → Bool} (hsemi : p ';' = false) (hfeed : p '\n' = false)
    (shape : List Char → Shape) (front cs : List Char) :
    Cut.run shape front p (withoutComments cs) = (Cut.run shape front p cs).plain := by
  have hrun := longestRun_run p cs
  have hnot : ';' ∉ cs.takeWhile p := fun hmem => by
    rw [hrun.all _ hmem] at hsemi
    cases hsemi
  have hstop : ∀ c ∈ (withoutComments (cs.dropWhile p)).head?, p c = false := by
    intro c hc
    rcases head_withoutComments hc with rfl | hc
    · exact hfeed
    · exact hrun.stops c hc
  conv => lhs; rw [← List.takeWhile_append_dropWhile (p := p) (l := cs), withoutComments_append hnot]
  rw [Cut.run_eq hrun.all hstop]
  rfl

/-- Without a radix mark behind a 0 a number is a decimal one. -/
theorem cutNumber_decimal {c : Char} {cs : List Char} (h : c = '0' → ∀ d ∈ cs.head?, d ≠ 'x' ∧ d ≠ 'X') :
    cutNumber c cs = .run (fun _ => .word .number) [c] Char.isDigit cs := by
  unfold cutNumber
  split
  · exact absurd rfl (h rfl 'x' rfl).1
  · exact absurd rfl (h rfl 'X' rfl).2
  · rfl

theorem cutNumber_withoutComments (c : Char) (cs : List Char) :
    cutNumber c (withoutComments cs) = (cutNumber c cs).plain := by
  by_cases hmark : c = '0' → ∀ d ∈ cs.head?, d ≠ 'x' ∧ d ≠ 'X'
  · have hmark' : c = '0' → ∀ d ∈ (withoutComments cs).head?, d ≠ 'x' ∧ d ≠ 'X' := by
      intro hc d hd
      rcases head_withoutComments hd with rfl | hd
      · decide
      · exact hmark hc d hd
    rw [cutNumber_decimal hmark, cutNumber_decimal hmark', Cut.run_withoutComments (by decide) (by decide)]
  · obtain ⟨rfl, d, hd, hx⟩ : c = '0' ∧ ∃ d, d ∈ cs.head? ∧ (d = 'x' ∨ d = 'X') := by
      simpa [Decidable.not_imp_iff_and_not, or_iff_not_imp_left] using hmark
    obtain ⟨ds, rfl⟩ := List.head?_eq_some_iff.1 hd
    rcases hx with rfl | rfl
    · rw [withoutComments_cons (by decide)]
      exact Cut.run_withoutComments (p := isHexDigit) (by decide) (by decide) (fun _ => .word .number) ['0', 'x'] ds
    · rw [withoutComments_cons (by decide)]
      exact Cut.run_withoutComments (p := isHexDigit) (by decide) (by decide) (fun _ => .word .number) ['0', 'X'] ds

/-- An arrow has its head right behind the minus sign. -/
theorem cut?_minus (cs : List Char) : cut? '-' cs =
    if cs.head? = some '>' then some ⟨.word .arrow, ['-', '>'], cs.tail⟩ else none := by
  cases cs with
  | nil => rfl
  | cons c cs =>
    by_cases hc : c = '>'
    · subst hc
      rfl
    · rw [if_neg (by simpa using hc)]
      simp [cut?, isBlank, startsName, hc]

/-- **The lexeme that is cut off is the same**, unless it is a comment. -/
theorem cut?_withoutComments {c : Char} (hc : c ≠ ';') (cs : List Char) :
    cut? c (withoutComments cs) = (cut? c cs).map Cut.plain := by
  by_cases hminus : c = '-'
  · subst hminus
    rw [cut?_minus, cut?_minus]
    by_cases hhead : cs.head? = some '>'
    · obtain ⟨ds, rfl⟩ := List.head?_eq_some_iff.1 hhead
      rw [withoutComments_cons (by decide)]
      rfl
    · rw [if_neg hhead, if_neg fun h => ?_]
      · rfl
      · exact (head_withoutComments h).elim (by decide) hhead
  · unfold cut?
    split
    · exact congrArg some (Cut.run_withoutComments (by decide) (by decide) _ _ _)
    split
    · rfl
    split
    · exact congrArg some (Cut.run_withoutComments (by decide) (by decide) _ _ _)
    split
    · exact congrArg some (cutNumber_withoutComments c cs)
    · cases punctuation? c <;> rfl

/-- **A comment is cut off** in front of a line feed or the end, and the text without comments goes on there. -/
theorem cut?_semicolon (cs : List Char) : ∃ x, cut? ';' cs = some x ∧ x.shape = .comment ∧
    (∀ d ∈ x.rest.head?, d = '\n') ∧ withoutComments (';' :: cs) = withoutComments x.rest := by
  refine ⟨.run (fun _ => .comment) [';'] (· ≠ '\n') cs, rfl, rfl, fun d hd => ?_, withoutComments_semicolon cs⟩
  simpa using (longestRun_run (· ≠ '\n') cs).stops d hd

/-! ## Scanning -/

/-- The places are the same, or a comment starts at the second one, on the line of the first one. -/
def Near (C : Position → Prop) (p q : Position) : Prop := p = q ∨ p.line = q.line ∧ C q

/-- The lexemes of a text up to its end, and those of the text without comments. Comments, which start at places in
`C`, are missing, and only line feeds and the end are moved. -/
inductive Stripped (C : Position → Prop) : List Lexeme → Position → List Lexeme → Position → Prop
  | nil {p q : Position} (h : Near C p q) : Stripped C [] p [] q
  | comment {x : Lexeme} {xs ys : List Lexeme} {last last' : Position} (hx : x.shape = .comment)
    (hnext : ∀ y ∈ xs.head?, y.shape = .lineFeed) (hxs : Stripped C xs last ys last') :
    Stripped C (x :: xs) last ys last'
  | other {x : Lexeme} {xs ys : List Lexeme} {last last' q : Position} (hx : x.shape ≠ .comment)
    (hpos : x.pos = q ∨ x.shape = .lineFeed ∧ Near C x.pos q) (hxs : Stripped C xs last ys last') :
    Stripped C (x :: xs) last (⟨x.shape, x.text, q⟩ :: ys) last'

theorem scanFrom_of_cut? {c : Char} {cs : List Char} {x : Cut} (h : cut? c cs = some x) (pos : Position) :
    scanFrom pos (c :: cs) = (scanFrom (pos.after x.text) x.rest).map (⟨x.shape, x.text, pos⟩ :: ·) := by
  rw [scanFrom]
  split
  · next hnone =>
    rw [h] at hnone
    cases hnone
  · next y hy =>
    rw [h] at hy
    cases hy
    rfl

theorem scanFrom_of_cut?_eq_none {c : Char} {cs : List Char} (h : cut? c cs = none) (pos : Position) :
    scanFrom pos (c :: cs) = .error ⟨c, pos⟩ := by
  rw [scanFrom]
  split
  · rfl
  · next y hy =>
    rw [h] at hy
    cases hy

variable {C : Position → Prop} {p q : Position} {c : Char} {cs : List Char} {x : Cut}

/-- The semicolons of a text that starts at the position `p` are at places in `C`. -/
def SemicolonsIn (C : Position → Prop) (p : Position) (cs : List Char) : Prop :=
  ∀ i, cs[i]? = some ';' → C (p.after (cs.take i))

theorem SemicolonsIn.rest (h : SemicolonsIn C p (c :: cs)) (hx : cut? c cs = some x) :
    SemicolonsIn C (p.after x.text) x.rest := by
  intro i hi
  rw [← Position.after_append, ← List.take_length_add_append, cut?_eq_append hx]
  refine h _ ?_
  rw [← cut?_eq_append hx, List.getElem?_append_right (Nat.le_add_right _ _), Nat.add_sub_cancel_left, hi]

/-- In front of the text `cs` the positions `p`, with comments, and `q`, without them, are the same, or a comment has
just gone by. -/
def Abreast (C : Position → Prop) (p q : Position) (cs : List Char) : Prop :=
  p = q ∨ (p.line = q.line ∧ C q) ∧ ∀ c ∈ cs.head?, c = '\n'

theorem Abreast.eq_of_ne (h : Abreast C p q (c :: cs)) (hc : c ≠ '\n') : p = q :=
  h.resolve_right fun h => hc (h.2 c rfl)

/-- Behind any lexeme that is no comment the positions are the same. -/
theorem Abreast.after (h : Abreast C p q (c :: cs)) (hx : cut? c cs = some x) :
    p.after x.text = q.after x.text ∧ (p = q ∨ x.shape = .lineFeed ∧ Near C p q) := by
  rcases h with rfl | ⟨hnear, hfeed⟩
  · exact ⟨rfl, .inl rfl⟩
  · obtain rfl := hfeed c rfl
    cases hx
    refine ⟨?_, .inr ⟨rfl, .inr hnear⟩⟩
    rw [Position.after_cons, Position.after_cons, Position.advance, Position.advance, if_pos rfl, if_pos rfl, hnear.1]

/-- **Both texts are scanned side by side.** -/
theorem scanFrom_withoutComments (cs : List Char) : ∀ {p q : Position},
    Abreast C p q cs → SemicolonsIn C p cs →
    Paired Eq (fun xs ys => Stripped C xs (p.after cs) ys (q.after (withoutComments cs)))
      (scanFrom p cs) (scanFrom q (withoutComments cs)) := by
  induction hn : cs.length using Nat.strongRecOn generalizing cs with
  | _ n ih =>
    intro p q hpq hC
    cases cs with
    | nil =>
      rw [withoutComments, dropComments, scanFrom, scanFrom]
      exact .ok (Stripped.nil (hpq.imp_right And.left))
    | cons c cs =>
      by_cases hsemi : c = ';'
      · -- the second text goes on where the line ends
        subst hsemi
        obtain rfl := hpq.eq_of_ne (by decide)
        obtain ⟨x, hx, hshape, hfeed, hplain⟩ := cut?_semicolon cs
        have hline : (p.after x.text).line = p.line := by
          rw [Position.after_of_not_mem (feed_not_mem hx (by simp [hshape]))]
        have hstep := ih _ (hn ▸ cut?_rest_lt hx) x.rest rfl (.inr ⟨⟨hline, hC 0 rfl⟩, hfeed⟩) (hC.rest hx)
        have hnext : ∀ ys, scanFrom (p.after x.text) x.rest = .ok ys → Leads ⟨x.shape, x.text, p⟩ ys :=
          fun ys => leads_of_cut? hx p
        rw [hplain, scanFrom_of_cut? hx, ← cut?_eq_append hx, Position.after_append]
        generalize scanFrom (p.after x.text) x.rest = r at hstep hnext ⊢
        generalize scanFrom p (withoutComments x.rest) = r' at hstep ⊢
        cases hstep with
        | error h => exact .error h
        | ok h =>
          have hleads := hnext _ rfl
          exact .ok (.comment hshape (hleads.lineDone hshape).2.2 h)
      · rw [withoutComments_cons hsemi]
        have hcut := cut?_withoutComments hsemi cs
        cases hx : cut? c cs with
        | none =>
          -- a line feed would not have been rejected
          rw [hx] at hcut
          rw [scanFrom_of_cut?_eq_none hx, scanFrom_of_cut?_eq_none hcut,
            hpq.eq_of_ne fun hc => by rw [hc] at hx; cases hx]
          exact .error rfl
        | some x =>
          rw [hx] at hcut
          have hshape : x.shape ≠ .comment := fun h => hsemi (cut?_comment hx h).1
          obtain ⟨hafter, hpos⟩ := hpq.after hx
          have hstep := ih _ (hn ▸ cut?_rest_lt hx) x.rest rfl (.inl hafter) (hC.rest hx)
          have happ : c :: withoutComments cs = x.plain.text ++ x.plain.rest := (cut?_eq_append hcut).symm
          rw [scanFrom_of_cut? hx, scanFrom_of_cut? hcut, happ, ← cut?_eq_append hx, Position.after_append,
            Position.after_append]
          change Paired _ (fun xs ys => Stripped C xs ((p.after x.text).after x.rest) ys
            ((q.after x.text).after (withoutComments x.rest))) _
            ((scanFrom (q.after x.text) (withoutComments x.rest)).map (⟨x.shape, x.text, q⟩ :: ·))
          generalize scanFrom (p.after x.text) x.rest = r at hstep ⊢
          generalize scanFrom (q.after x.text) (withoutComments x.rest) = r' at hstep ⊢
          cases hstep with
          | error h => exact .error h
          | ok h => exact .ok (Stripped.other (x := ⟨x.shape, x.text, p⟩) hshape hpos h)

/-! ## Layout -/

namespace Stripped

variable {xs ys : List Lexeme} {last last' : Position}

/-- In front of a line feed or the end there are no words in either text. -/
theorem wordNext_false (h : Stripped C xs last ys last') (hnext : ∀ y ∈ xs.head?, y.shape = .lineFeed) :
    wordNext ys = false ∧ lineDone ys = true := by
  cases h with
  | nil => exact ⟨rfl, rfl⟩
  | @comment x _ _ _ _ hx =>
    have hfeed := hnext x rfl
    rw [hx] at hfeed
    cases hfeed
  | @other x _ _ _ _ q =>
    have hfeed := hnext x rfl
    rw [lineDone_of_ne (by simp [hfeed])]
    simp [wordNext, isWord, hfeed]

theorem wordNext_eq (h : Stripped C xs last ys last') : wordNext xs = wordNext ys := by
  cases h with
  | nil => rfl
  | @comment x _ _ _ _ hx hnext hxs =>
    rw [(hxs.wordNext_false hnext).1]
    simp [wordNext, isWord, hx]
  | other => rfl

theorem lineDone_eq (h : Stripped C xs last ys last') : lineDone xs = lineDone ys := by
  induction h with
  | nil => rfl
  | @comment x _ _ _ _ hx hnext hxs _ =>
    rw [(hxs.wordNext_false hnext).2, lineDone_of_ne (by simp [hx])]
    simp [isWord, hx]
  | @other x xs ys _ _ q _ _ _ ih =>
    by_cases hblank : x.shape = .blank
    · rw [lineDone_blank hblank, lineDone_blank (x := ⟨x.shape, x.text, q⟩) hblank, ih]
    · rw [lineDone_of_ne hblank, lineDone_of_ne (x := ⟨x.shape, x.text, q⟩) hblank]
      rfl

end Stripped

/-- A lexeme moved to another place yields the same token there. -/
theorem tokenOf?_moved {xs ys : List Lexeme} (h : wordNext xs = wordNext ys) (z : Zone) (x : Lexeme) (q : Position) :
    tokenOf? z ⟨x.shape, x.text, q⟩ ys = (tokenOf? z x xs).map fun t => ⟨t.kind, t.value, q⟩ := by
  unfold tokenOf?
  rw [h]
  dsimp only
  split
  · rfl
  · split <;> rfl
  · rfl
  · rfl
  · rfl

/-- Which zone comes next depends on whether the line is done. -/
theorem next_moved {xs ys : List Lexeme} (h : lineDone xs = lineDone ys) (z : Zone) (x : Lexeme) (q : Position) :
    z.next ⟨x.shape, x.text, q⟩ ys = z.next x xs := by
  unfold Zone.next
  rw [h]

theorem Near.line_eq {p q : Position} (h : Near C p q) : p.line = q.line :=
  h.elim (fun h => congrArg Position.line h) And.left

/-- **The layout is the same**, apart from the places of line breaks and the end behind comments. -/
theorem Stripped.toCome {xs ys : List Lexeme} {last last' : Position} (h : Stripped C xs last ys last') :
    ∀ z, List.Forall₂ (Token.Moved C) (toCome z xs last) (toCome z ys last') := by
  induction h with
  | nil h => exact fun z => .cons ⟨rfl, h.line_eq, h.imp_right fun h => ⟨.inr rfl, h.2⟩⟩ .nil
  | @comment x xs ys last last' hx _ _ ih =>
    intro z
    have htoken : tokenOf? z x xs = none := by cases z <;> simp [tokenOf?, hx]
    have hzone : z.next x xs = z := by cases z <;> simp [Zone.next, hx]
    rw [toCome_cons, htoken, hzone]
    exact ih z
  | @other x xs ys last last' q hx hpos hxs ih =>
    intro z
    rw [toCome_cons, toCome_cons, tokenOf?_moved hxs.wordNext_eq, next_moved hxs.lineDone_eq]
    cases htoken : tokenOf? z x xs with
    | none => exact ih _
    | some t =>
      obtain ⟨htpos, -, hkind⟩ := tokenOf?_cases htoken
      refine .cons ⟨rfl, ?_, ?_⟩ (ih _)
      · rw [htpos]
        exact hpos.elim (fun h => congrArg Position.line h) fun h => h.2.line_eq
      · rw [htpos]
        rcases hpos with hpos | ⟨hfeed, hpos⟩
        · exact .inl hpos
        · refine hpos.imp_right fun h => ⟨.inl ?_, h.2⟩
          rcases hkind with hword | ⟨-, hkind, -⟩ | ⟨hblank, -⟩
          · cases hfeed.symm.trans hword
          · exact hkind
          · cases hfeed.symm.trans hblank

end Lexeme

/-! ## Whole texts -/

/-- A semicolon stands there. -/
def SemicolonAt (cs : List Char) (p : Position) : Prop := ∃ o, cs[o]? = some ';' ∧ p = .ofOffset cs o

/-- Without its comments a text has the same tokens, or is rejected for the same character. -/
theorem Token.ofText_plainSource (source : String) :
    Paired Eq (List.Forall₂ (Moved (SemicolonAt source.toList))) (ofText source) (ofText (plainSource source)) := by
  have hscan := Lexeme.scanFrom_withoutComments (C := SemicolonAt source.toList) source.toList (p := .start)
    (.inl rfl) fun i hi => ⟨i, hi, Position.after_take _ _⟩
  have hplain : (plainSource source).toList = withoutComments source.toList := String.toList_ofList
  unfold ofText Lexeme.scan
  rw [hplain]
  generalize Lexeme.scanFrom .start source.toList = r at hscan ⊢
  generalize Lexeme.scanFrom .start (withoutComments source.toList) = r' at hscan ⊢
  cases hscan with
  | error h => exact .error h
  | ok h => exact .ok (h.toCome .outside)

/-- Errors that do not tell a source text from the one without its comments: they are the same, or have the same
message and show at the same token. -/
inductive SourceError.Uncommented (source : String) : SourceError → SourceError → Prop
  | lex (e : LexError) : Uncommented source (.lex e) (.lex e)
  | parse {ts us : List Token} {t u : Token} {e e' : ParseError} (hts : Token.ofText source = .ok ts)
    (hus : Token.ofText (plainSource source) = .ok us) (htu : (t, u) ∈ ts.zip us)
    (hmoved : t.Moved (SemicolonAt source.toList) u) (hmessage : e.message = e'.message) (hpos : e.pos = t.pos)
    (hpos' : e'.pos = u.pos) : Uncommented source (.parse e) (.parse e')

/-- **Without its comments a text is read as with them.** It is rejected for the same character, or has the same
tokens at the same places, apart from the columns of line breaks and the end behind comments. It gives the same
modules, with the same reports, or the same message at the same token. -/
theorem readSource_plainSource (source : String) :
    Paired Eq (List.Forall₂ (Token.Moved (SemicolonAt source.toList))) (Token.ofText source)
      (Token.ofText (plainSource source)) ∧
    Paired (SourceError.Uncommented source) Eq (readSource source).value (readSource (plainSource source)).value ∧
    (readSource source).log = (readSource (plainSource source)).log := by
  have htokens := Token.ofText_plainSource source
  refine ⟨htokens, ?_⟩
  unfold readSource
  generalize hts : Token.ofText source = r at htokens ⊢
  generalize hus : Token.ofText (plainSource source) = r' at htokens ⊢
  cases htokens with
  | @error e _ h =>
    subst h
    exact ⟨.error (.lex e), rfl⟩
  | @ok ts us hall =>
    have hzip : List.Forall₂ (fun t u => (t, u) ∈ ts.zip us ∧ t.Moved (SemicolonAt source.toList) u) ts us :=
      List.forall₂_iff_zip.2 ⟨hall.length_eq, fun h => ⟨h, (List.forall₂_iff_zip.1 hall).2 h⟩⟩
    have hread := parse_beside (fun t u h => h.2.word) hzip
    have hresult := hread.result
    constructor
    · change Paired _ _ ((parse ts).result.mapError SourceError.parse) ((parse us).result.mapError SourceError.parse)
      generalize (parse ts).result = r at hresult ⊢
      generalize (parse us).result = r' at hresult ⊢
      cases hresult with
      | error h =>
        obtain ⟨hmessage, t, u, ⟨htu, hmoved⟩, hpos, hpos'⟩ := h
        exact .error (.parse hts hus htu hmoved hmessage hpos hpos')
      | ok h => exact .ok h
    · change (readTokens ts).log ++ #[] = (readTokens us).log ++ #[]
      rw [readTokens, readTokens, hread.modules]

/-- A name, where a statement should stand, and a comment behind it. -/
def halfStatement : String := "module m() -> y:\n y;\n"

/-- Its tokens, with the column of the last line break. -/
def halfTokens (column : Nat) : List Token :=
  [⟨.moduleWord, "module", ⟨1, 1⟩⟩, ⟨.ident, "m", ⟨1, 8⟩⟩, ⟨.lparen, "(", ⟨1, 9⟩⟩, ⟨.rparen, ")", ⟨1, 10⟩⟩,
    ⟨.arrow, "->", ⟨1, 12⟩⟩, ⟨.ident, "y", ⟨1, 15⟩⟩, ⟨.colon, ":", ⟨1, 16⟩⟩, ⟨.newline, "\n", ⟨1, 17⟩⟩,
    ⟨.indent, " ", ⟨2, 1⟩⟩, ⟨.ident, "y", ⟨2, 2⟩⟩, ⟨.newline, "\n", ⟨2, column⟩⟩, ⟨.eof, "", ⟨3, 1⟩⟩]

/-- What is wrong with it: the line breaks off. -/
def halfError (column : Nat) : ParseError := ⟨.expected "EQUALS" ⟨.newline, "\n", ⟨2, column⟩⟩, ⟨2, column⟩⟩

/-- **The end of the text is not all that a comment moves.** The line break behind it moves, too, and with it the place
of a violation that shows there. -/
theorem comment_moves_lineBreak :
    ¬ Paired Eq (List.Forall₂ fun t u => t.word = u.word ∧ (t.pos = u.pos ∨ t.kind = .eof))
      (Token.ofText halfStatement) (Token.ofText (plainSource halfStatement)) ∧
    (readSource halfStatement).value = .error (.parse (halfError 4)) ∧
    (readSource (plainSource halfStatement)).value = .error (.parse (halfError 3)) := by
  have htokens : Token.ofText halfStatement = .ok (halfTokens 4) := by decide +kernel
  have hplain : Token.ofText (plainSource halfStatement) = .ok (halfTokens 3) := by decide +kernel
  refine ⟨fun h => ?_, by decide +kernel, by decide +kernel⟩
  rw [htokens, hplain] at h
  cases h with
  | ok h => simp [halfTokens] at h

end NandHdl
