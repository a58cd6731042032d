import NandHdl.Proofs.Neighbours

/-!
# Layout tokens

Where line breaks and leading blanks are tokens, they tell the lines of a body apart, and nothing else. All that is
said of them here is said in terms of tokens and their places; which part of a module is being read does not come in.

* `EndsHeader`, `InBody`: the colon that ends a header, and the tokens from it to the next `module`.
* `Token.LaidOut`: what is known of the layout among tokens.
* `Zone.Knows`: what is known of the tokens so far in each part of a module. `Zone.Knows.step`: a lexeme keeps it.
  `Zone.Knows.visit`: so it is known in front of each token.
* `Token.laidOut_ofText`: **the layout of a text is well-formed.**
-/

namespace NandHdl

open Lexeme (isBlank Scanned tokenOf? lineDone wordNext isWord)

/-! ## Headers and bodies -/

namespace Token

/-- Neither layout nor the end. -/
def IsWord (t : Token) : Prop := t.kind.IsWord

/-- A line break or leading blanks. -/
def IsLayout (t : Token) : Prop := t.kind = .newline ∨ t.kind = .indent

end Token

/-- The number of open parentheses behind a token, if `d` are open before it. One that closes none is ignored. -/
def depthAfter (d : Nat) : TokenKind → Nat
  | .lparen => d + 1
  | .rparen => d - 1
  | _ => d

/-- The number of open parentheses behind tokens. -/
def openParens (ts : List Token) : Nat := ts.foldl (fun d t => depthAfter d t.kind) 0

/-- Among the tokens is an arrow outside parentheses. -/
def Arrowed (ts : List Token) : Prop := ∃ as a bs, ts = as ++ a :: bs ∧ a.kind = .arrow ∧ openParens as = 0

/-- Behind the tokens `hs` of a header, the token is a colon outside parentheses and behind the arrow, and no word of
the rest is on its line. -/
structure Closes (hs : List Token) (c : Token) (rest : List Token) : Prop where
  colon : c.kind = .colon
  outside : openParens hs = 0
  arrow : Arrowed hs
  alone : ∀ t ∈ rest, t.IsWord → t.pos.line ≠ c.pos.line

/-- None of the tokens of a header does so. -/
def NoneCloses (hs rest : List Token) : Prop := ∀ as c bs, hs = as ++ c :: bs → ¬ Closes as c (bs ++ rest)

/-- The tokens `hs` are those behind the last `module`. -/
def SinceModule (ts hs : List Token) : Prop :=
  ∃ before m, ts = before ++ m :: hs ∧ m.kind = .moduleWord ∧ ∀ t ∈ hs, t.kind ≠ .moduleWord

/-- Between the tokens `ts` and `rest`, the token is the colon that ends a header. -/
def EndsHeader (ts : List Token) (c : Token) (rest : List Token) : Prop :=
  ∃ hs, SinceModule ts hs ∧ Closes hs c rest ∧ NoneCloses hs (c :: rest)

/-- Between the tokens `ts` and `rest` there is a body: the last header has been ended, and no `module` has come
since. -/
def InBody (ts rest : List Token) : Prop :=
  ∃ before c us, ts = before ++ c :: us ∧ EndsHeader before c (us ++ rest) ∧ ∀ u ∈ us, u.kind ≠ .moduleWord

/-- All characters of a line are blanks or belong to a comment. -/
def BareLine (cs : List Char) (line : Nat) : Prop :=
  ∀ i c, cs[i]? = some c → (Position.ofOffset cs i).line = line →
    isBlank c = true ∨ c = '\n' ∨ InComment cs i

/-- What is known of the layout among the tokens of a text. -/
structure Token.LaidOut (cs : List Char) (tokens : List Token) : Prop where
  /-- Layout is found in bodies only. -/
  inBody : ∀ pre t post, tokens = pre ++ t :: post → t.IsLayout → InBody pre (t :: post)
  /-- The colon that ends a header is followed by a line break or the end. -/
  opening : ∀ pre c post, tokens = pre ++ c :: post → EndsHeader pre c post →
    ∃ u us, post = u :: us ∧ (u.kind = .newline ∨ u.kind = .eof)
  /-- A line break follows a word. -/
  newline : ∀ pre t n post, tokens = pre ++ t :: n :: post → n.kind = .newline → t.IsWord
  /-- Leading blanks stand between a line break and a word, at the start of the line of that word. -/
  indent : ∀ pre i post, tokens = pre ++ i :: post → i.kind = .indent →
    ∃ before n u us, pre = before ++ [n] ∧ n.kind = .newline ∧ post = u :: us ∧ u.IsWord ∧
      i.pos.column = 1 ∧ u.pos = ⟨i.pos.line, 1 + i.value.length⟩
  /-- They are one or more blanks that are written there, and as many as there are. -/
  blanks : ∀ i ∈ tokens, i.kind = .indent → ∃ o, i.pos = .ofOffset cs o ∧ i.value.toList <+: cs.drop o ∧
    i.value.toList ≠ [] ∧ LongestRun isBlank i.value.toList (cs.drop (o + i.value.length))
  /-- Without them the first word of a line is in the first column. -/
  flush : ∀ pre n u post, tokens = pre ++ n :: u :: post → n.kind = .newline → u.IsWord → u.pos.column = 1
  /-- Of two words next to each other, the second one may be the end, a line break tells whether they are on one
  line. -/
  lines : ∀ pre t gap u post, tokens = pre ++ t :: (gap ++ u :: post) → ¬ t.IsLayout →
    (∀ g ∈ gap, g.IsLayout) → ¬ u.IsLayout → InBody (pre ++ [t]) (gap ++ u :: post) →
    (t.pos.line = u.pos.line ↔ ∀ g ∈ gap, g.kind ≠ .newline)
  /-- A line of blanks and comments has no token, the end apart. -/
  bare : ∀ t ∈ tokens, t.kind ≠ .eof → ¬ BareLine cs t.pos.line

/-- The last of the items with a property is at one place. -/
theorem last_unique {α : Type} {P : α → Prop} {as as' bs bs' : List α} {a a' : α}
    (h : as ++ a :: bs = as' ++ a' :: bs') (ha : P a) (ha' : P a') (hbs : ∀ b ∈ bs, ¬ P b)
    (hbs' : ∀ b ∈ bs', ¬ P b) : as = as' ∧ a = a' ∧ bs = bs' := by
  rcases List.append_eq_append_iff.1 h with ⟨mid, rfl, hmid⟩ | ⟨mid, rfl, hmid⟩
  · cases mid with
    | nil =>
      rw [List.nil_append, List.cons.injEq] at hmid
      exact ⟨(List.append_nil as).symm, hmid⟩
    | cons d mid =>
      rw [List.cons_append, List.cons.injEq] at hmid
      exact absurd ha' (hbs a' (hmid.2 ▸ List.mem_append_right mid List.mem_cons_self))
  · cases mid with
    | nil =>
      rw [List.nil_append, List.cons.injEq] at hmid
      exact ⟨List.append_nil as', hmid.1.symm, hmid.2.symm⟩
    | cons d mid =>
      rw [List.cons_append, List.cons.injEq] at hmid
      exact absurd ha (hbs' a (hmid.2 ▸ List.mem_append_right mid List.mem_cons_self))

/-- An item of a list that has grown at its end is the new one or one of the others. -/
theorem append_singleton_cases {α : Type} {hs as bs : List α} {t a : α} (h : hs ++ [t] = as ++ a :: bs) :
    (as = hs ∧ a = t ∧ bs = []) ∨ ∃ ds, bs = ds ++ [t] ∧ hs = as ++ a :: ds := by
  rcases List.eq_nil_or_concat bs with rfl | ⟨ds, b, rfl⟩
  · obtain ⟨rfl, rfl⟩ := List.append_singleton_inj.1 h
    exact .inl ⟨rfl, rfl, rfl⟩
  · rw [List.concat_eq_append, ← List.cons_append, ← List.append_assoc] at h
    obtain ⟨hfront, rfl⟩ := List.append_singleton_inj.1 h
    exact .inr ⟨ds, List.concat_eq_append, hfront⟩

section Headers

variable {ts hs rest : List Token} {t : Token}

theorem openParens_append : openParens (hs ++ [t]) = depthAfter (openParens hs) t.kind := by
  rw [openParens, List.foldl_append]
  rfl

theorem arrowed_append : Arrowed (hs ++ [t]) ↔ Arrowed hs ∨ t.kind = .arrow ∧ openParens hs = 0 := by
  constructor
  · rintro ⟨as, a, bs, h, ha, hdepth⟩
    rcases append_singleton_cases h with ⟨rfl, rfl, -⟩ | ⟨ds, -, rfl⟩
    · exact .inr ⟨ha, hdepth⟩
    · exact .inl ⟨as, a, ds, rfl, ha, hdepth⟩
  · rintro (⟨as, a, bs, rfl, ha, hdepth⟩ | ⟨ht, hdepth⟩)
    · exact ⟨as, a, bs ++ [t], by simp, ha, hdepth⟩
    · exact ⟨hs, t, [], rfl, ht, hdepth⟩

theorem noneCloses_append (h : NoneCloses hs (t :: rest)) (ht : ¬ Closes hs t rest) :
    NoneCloses (hs ++ [t]) rest := by
  intro as c bs heq
  rcases append_singleton_cases heq with ⟨rfl, rfl, rfl⟩ | ⟨ds, rfl, rfl⟩
  · exact ht
  · rw [List.append_assoc]
    exact h as c ds rfl

theorem SinceModule.append (h : SinceModule ts hs) (ht : t.kind ≠ .moduleWord) :
    SinceModule (ts ++ [t]) (hs ++ [t]) := by
  obtain ⟨before, m, rfl, hm, hhs⟩ := h
  exact ⟨before, m, by simp, hm, List.forall_mem_append.2 ⟨hhs, List.forall_mem_singleton.2 ht⟩⟩

theorem SinceModule.unique {hs' : List Token} (h : SinceModule ts hs) (h' : SinceModule ts hs') : hs = hs' := by
  obtain ⟨before, m, rfl, hm, hhs⟩ := h
  obtain ⟨before', m', heq, hm', hhs'⟩ := h'
  exact (last_unique (P := fun t => t.kind = .moduleWord) heq hm hm' hhs hhs').2.2

theorem InBody.append (h : InBody ts (t :: rest)) (ht : t.kind ≠ .moduleWord) : InBody (ts ++ [t]) rest := by
  obtain ⟨before, c, us, rfl, hends, hus⟩ := h
  refine ⟨before, c, us ++ [t], by simp, ?_, List.forall_mem_append.2 ⟨hus, List.forall_mem_singleton.2 ht⟩⟩
  rwa [List.append_assoc, List.singleton_append]

/-- Behind the colon that ends a header there is a body. -/
theorem EndsHeader.inBody {c : Token} (h : EndsHeader ts c rest) : InBody (ts ++ [c]) rest :=
  ⟨ts, c, [], rfl, h, List.forall_mem_nil _⟩

/-- In a body the header has been ended. -/
theorem InBody.not_noneCloses (h : InBody ts rest) : ∃ hs, SinceModule ts hs ∧ ¬ NoneCloses hs rest := by
  obtain ⟨before, c, us, rfl, ⟨hs, ⟨before', m, rfl, hm, hhs⟩, hcloses, -⟩, hus⟩ := h
  refine ⟨hs ++ c :: us, ⟨before', m, by simp, hm, ?_⟩, fun hnone => hnone hs c us rfl hcloses⟩
  refine List.forall_mem_append.2 ⟨hhs, List.forall_mem_cons.2 ⟨?_, hus⟩⟩
  rw [hcloses.colon]
  decide

end Headers

/-! ## Tokens to come -/

namespace Lexeme

/-- The tokens of lexemes and the end behind them. -/
def toCome (z : Zone) (xs : List Lexeme) (last : Position) : List Token := layout z xs ++ [⟨.eof, "", last⟩]

variable {z : Zone} {x : Lexeme} {xs : List Lexeme} {pos last : Position} {t : Token}

theorem toCome_nil : toCome z [] last = [⟨.eof, "", last⟩] := rfl

theorem toCome_cons : toCome z (x :: xs) last = (tokenOf? z x xs).toList ++ toCome (z.next x xs) xs last :=
  List.append_assoc _ _ _

theorem isWord_iff : x.isWord = true ↔ ∃ k, x.shape = .word k := by
  rw [isWord]
  cases x.shape <;> simp

theorem wordNext_iff : wordNext xs = true ↔ ∃ y ys k, xs = y :: ys ∧ y.shape = .word k := by
  cases xs with
  | nil => simp [wordNext]
  | cons y ys => simp [wordNext, isWord_iff]

theorem lineDone_blank (hx : x.shape = .blank) : lineDone (x :: xs) = lineDone xs := by
  simp [lineDone, hx]

theorem lineDone_of_ne (hx : x.shape ≠ .blank) : lineDone (x :: xs) = !x.isWord := by
  simp [lineDone, wordNext, hx]

theorem lineDone_word {k : TokenKind} (hx : x.shape = .word k) : lineDone (x :: xs) = false := by
  rw [lineDone_of_ne (by simp [hx]), isWord_iff.2 ⟨k, hx⟩]
  rfl

/-- What a lexeme yields, and where. -/
theorem tokenOf?_cases (h : tokenOf? z x xs = some t) : t.pos = x.pos ∧ t.value = String.ofList x.text ∧
    (x.shape = .word t.kind ∨ x.shape = .lineFeed ∧ t.kind = .newline ∧ (z = .headed ∨ z = .body false) ∨
      x.shape = .blank ∧ t.kind = .indent ∧ z = .body true ∧ wordNext xs = true) := by
  obtain ⟨shape, text, pos⟩ := x
  unfold tokenOf? at h
  dsimp only at h ⊢
  split at h
  · cases h
    exact ⟨rfl, rfl, .inl rfl⟩
  · split at h
    · next hnext =>
      cases h
      exact ⟨rfl, rfl, .inr (.inr ⟨rfl, rfl, rfl, hnext⟩)⟩
    · cases h
  · cases h
    exact ⟨rfl, rfl, .inr (.inl ⟨rfl, rfl, .inl rfl⟩)⟩
  · cases h
    exact ⟨rfl, rfl, .inr (.inl ⟨rfl, rfl, .inr rfl⟩)⟩
  · cases h

theorem tokenOf?_word {k : TokenKind} (hx : x.shape = .word k) :
    tokenOf? z x xs = some ⟨k, String.ofList x.text, x.pos⟩ := by
  simp [tokenOf?, hx]

/-- A line feed leads to the next line. -/
theorem Leads.after_lineFeed (h : x.Leads xs) (hx : x.shape = .lineFeed) :
    x.pos.after x.text = ⟨x.pos.line + 1, 1⟩ := by
  rw [Leads, hx] at h
  rw [h]
  rfl

/-- Any other lexeme leads along its line. -/
theorem Leads.after_of_ne (h : x.Leads xs) (hx : x.shape ≠ .lineFeed) :
    x.pos.after x.text = ⟨x.pos.line, x.pos.column + x.text.length⟩ := by
  unfold Leads at h
  split at h
  · exact Position.after_of_not_mem h.1 _
  · contradiction
  · exact Position.after_of_not_mem h.1 _
  · exact Position.after_of_not_mem h.1 _

theorem Leads.line_le (h : x.Leads xs) : x.pos.line ≤ (x.pos.after x.text).line := by
  by_cases hx : x.shape = .lineFeed
  · rw [h.after_lineFeed hx]
    exact Nat.le_succ _
  · rw [h.after_of_ne hx]

theorem Leads.isWord (h : x.Leads xs) {k : TokenKind} (hx : x.shape = .word k) : k.IsWord := by
  rw [Leads, hx] at h
  exact h.2

/-- Behind a comment its line is done. -/
theorem Leads.lineDone (h : x.Leads xs) (hx : x.shape = .comment) : lineDone xs = true ∧ wordNext xs = false ∧
    ∀ y ∈ xs.head?, y.shape = .lineFeed := by
  rw [Leads, hx] at h
  cases xs with
  | nil => exact ⟨rfl, rfl, h.2⟩
  | cons y ys =>
    have hy := h.2 y rfl
    rw [lineDone_of_ne (by simp [hy])]
    simp [wordNext, Lexeme.isWord, hy]

namespace Scanned

/-- Nothing to come stands on an earlier line. -/
theorem line_le (h : Scanned pos xs last) : ∀ z, ∀ t ∈ toCome z xs last, pos.line ≤ t.pos.line := by
  induction h with
  | nil pos =>
    intro z t ht
    rw [List.mem_singleton.1 ht]
  | @cons x xs last hx hxs ih =>
    intro z t ht
    rw [toCome_cons, List.mem_append] at ht
    rcases ht with ht | ht
    · rw [(tokenOf?_cases (Option.mem_toList.1 ht)).1]
    · exact hx.line_le.trans (ih _ t ht)

/-- If a line is done, the words to come are on later ones. -/
theorem later_of_lineDone (h : Scanned pos xs last) : lineDone xs = true → ∀ z, ∀ t ∈ toCome z xs last,
    t.IsWord → pos.line < t.pos.line := by
  induction h with
  | nil pos =>
    intro _ z t ht hword
    rw [List.mem_singleton.1 ht] at hword
    exact absurd rfl hword.2.2
  | @cons x xs last hx hxs ih =>
    intro hdone z t ht hword
    rw [toCome_cons, List.mem_append] at ht
    rcases ht with ht | ht
    · -- a word here would not leave the line done
      rcases (tokenOf?_cases (Option.mem_toList.1 ht)).2.2 with hshape | ⟨-, hkind, -⟩ | ⟨-, hkind, -⟩
      · rw [lineDone_word hshape] at hdone
        cases hdone
      · exact absurd hkind hword.1
      · exact absurd hkind hword.2.1
    · by_cases hfeed : x.shape = .lineFeed
      · have hle := hxs.line_le _ t ht
        rw [hx.after_lineFeed hfeed] at hle
        exact hle
      · have hrest : lineDone xs = true := by
          cases hshape : x.shape with
          | blank => rwa [lineDone_blank hshape] at hdone
          | lineFeed => exact absurd hshape hfeed
          | comment => exact (hx.lineDone hshape).1
          | word k =>
            rw [lineDone_word hshape] at hdone
            cases hdone
        have hlt := ih hrest _ t ht hword
        rwa [hx.after_of_ne hfeed] at hlt

/-- If a line is not done, a word on it is to come. -/
theorem exists_word (h : Scanned pos xs last) : lineDone xs = false → ∀ z, ∃ t ∈ toCome z xs last,
    t.IsWord ∧ t.pos.line = pos.line := by
  induction h with
  | nil pos => exact fun h => nomatch h
  | @cons x xs last hx hxs ih =>
    intro hdone z
    rw [toCome_cons]
    cases hshape : x.shape with
    | blank =>
      rw [lineDone_blank hshape] at hdone
      obtain ⟨t, ht, hword, hline⟩ := ih hdone (z.next x xs)
      rw [hx.after_of_ne (by simp [hshape])] at hline
      exact ⟨t, List.mem_append_right _ ht, hword, hline⟩
    | word k =>
      rw [tokenOf?_word hshape]
      exact ⟨_, List.mem_append_left _ (List.mem_singleton.2 rfl), hx.isWord hshape, rfl⟩
    | _ =>
      rw [lineDone_of_ne (by simp [hshape]), isWord, hshape] at hdone
      cases hdone

/-- **A line is done if no word on it is to come.** -/
theorem lineDone_iff (h : Scanned pos xs last) (z : Zone) : lineDone xs = true ↔
    ∀ t ∈ toCome z xs last, t.IsWord → t.pos.line ≠ pos.line := by
  refine ⟨fun hdone t ht hword => (h.later_of_lineDone hdone z t ht hword).ne', fun hnone => ?_⟩
  rw [← Bool.not_eq_false]
  intro hdone
  obtain ⟨t, ht, hword, hline⟩ := h.exists_word hdone z
  exact hnone t ht hword hline

end Scanned

end Lexeme

open Lexeme (toCome toCome_cons)

/-! ## What is known in each zone -/

/-- The start of a line of a body, or of the blanks in front of its first word. Before it there are a word and the line
break behind it. -/
inductive LineStart : List Token → Position → List Lexeme → Prop
  | plain {before : List Token} {t n : Token} {pos : Position} {xs : List Lexeme} (ht : t.IsWord)
    (hn : n.kind = .newline) (hline : n.pos.line = t.pos.line) (hlater : n.pos.line < pos.line)
    (hnext : pos.column = 1 ∨ ∀ y ∈ xs.head?, y.shape ≠ .blank ∧ y.isWord = false) :
    LineStart (before ++ [t, n]) pos xs
  | indented {before : List Token} {t n i : Token} {pos : Position} {xs : List Lexeme} (ht : t.IsWord)
    (hn : n.kind = .newline) (hline : n.pos.line = t.pos.line) (hlater : n.pos.line < pos.line)
    (hi : i.kind = .indent) (hipos : i.pos = ⟨pos.line, 1⟩) (hcolumn : pos.column = 1 + i.value.length)
    (hnext : wordNext xs = true) : LineStart (before ++ [t, n, i]) pos xs

namespace LineStart

variable {ts : List Token} {x : Lexeme} {xs : List Lexeme}

/-- A line break behind a word leads to the start of a line. -/
theorem behind (hx : x.Leads xs) (hshape : x.shape = .lineFeed) (before : List Token) {t : Token} (ht : t.IsWord)
    (hline : t.pos.line = x.pos.line) :
    LineStart (before ++ [t] ++ [⟨.newline, String.ofList x.text, x.pos⟩]) (x.pos.after x.text) xs := by
  rw [hx.after_lineFeed hshape, List.append_assoc]
  exact .plain ht rfl hline.symm (Nat.lt_succ_self _) (.inl rfl)

/-- A line without words leads to the start of the next one. -/
theorem lineFeed (h : LineStart ts x.pos (x :: xs)) (hx : x.Leads xs) (hshape : x.shape = .lineFeed) :
    LineStart ts (x.pos.after x.text) xs := by
  rw [hx.after_lineFeed hshape]
  cases h with
  | plain ht hn hline hlater _ => exact .plain ht hn hline (Nat.lt_succ_of_lt hlater) (.inl rfl)
  | indented _ _ _ _ _ _ _ hnext => simp [wordNext, isWord, hshape] at hnext

theorem comment (h : LineStart ts x.pos (x :: xs)) (hx : x.Leads xs) (hshape : x.shape = .comment) :
    LineStart ts (x.pos.after x.text) xs := by
  rw [hx.after_of_ne (by simp [hshape])]
  cases h with
  | plain ht hn hline hlater _ =>
    refine .plain ht hn hline hlater (.inr fun y hy => ?_)
    have hfeed := (hx.lineDone hshape).2.2 y hy
    exact ⟨by simp [hfeed], by simp [isWord, hfeed]⟩
  | indented _ _ _ _ _ _ _ hnext => simp [wordNext, isWord, hshape] at hnext

/-- Blanks at the start of a line are a token if a word comes next. -/
theorem blank (h : LineStart ts x.pos (x :: xs)) (hx : x.Leads xs) (hshape : x.shape = .blank) :
    LineStart (ts ++ (tokenOf? (.body true) x xs).toList) (x.pos.after x.text) xs := by
  rw [hx.after_of_ne (by simp [hshape])]
  cases h with
  | indented _ _ _ _ _ _ _ hnext => simp [wordNext, isWord, hshape] at hnext
  | plain ht hn hline hlater hfirst =>
    have hcolumn : x.pos.column = 1 := hfirst.resolve_right fun h => (h x rfl).1 hshape
    cases hword : wordNext xs with
    | true =>
      have htoken : tokenOf? (.body true) x xs = some ⟨.indent, String.ofList x.text, x.pos⟩ := by
        simp [tokenOf?, hshape, hword]
      rw [htoken, Option.toList_some, List.append_assoc]
      refine .indented ht hn hline hlater rfl ?_ ?_ hword
      · rw [← hcolumn]
      · rw [hcolumn, String.length_ofList]
    | false =>
      have htoken : tokenOf? (.body true) x xs = none := by simp [tokenOf?, hshape, hword]
      rw [htoken, Option.toList_none, List.append_nil]
      refine .plain ht hn hline hlater (.inr fun y hy => ?_)
      rw [Lexeme.Leads, hshape] at hx
      rw [wordNext, hy, Option.any_some] at hword
      exact ⟨hx.2 y hy, hword⟩

end LineStart

/-- What is known of the tokens so far, where the zone is `z`, the lexemes `xs` are to come, the first of them at `pos`,
and so are the tokens `rest`. -/
def Zone.Knows (z : Zone) (ts : List Token) (pos : Position) (xs : List Lexeme) (rest : List Token) : Prop :=
  match z with
  | .outside => ∀ t ∈ ts, t.kind ≠ .moduleWord
  | .header d a => ∃ hs, SinceModule ts hs ∧ openParens hs = d ∧ (a = true ↔ Arrowed hs) ∧ NoneCloses hs rest
  | .headed => ∃ before c, ts = before ++ [c] ∧ EndsHeader before c rest ∧ c.pos.line = pos.line ∧
      lineDone xs = true
  | .body false => InBody ts rest ∧ ∃ before t, ts = before ++ [t] ∧ t.IsWord ∧ t.pos.line = pos.line
  | .body true => InBody ts rest ∧ LineStart ts pos xs

namespace Zone

/-- **In a header** a word that is no `module` counts parentheses and arrows, unless it is the colon at the end. -/
theorem next_header (d : Nat) (a : Bool) {x : Lexeme} (xs : List Lexeme) {k : TokenKind} (hx : x.shape = .word k)
    (hk : k ≠ .moduleWord) :
    (k = .colon ∧ d = 0 ∧ a = true ∧ lineDone xs = true) ∧ (header d a).next x xs = .headed ∨
    ¬ (k = .colon ∧ d = 0 ∧ a = true ∧ lineDone xs = true) ∧
      (header d a).next x xs = .header (depthAfter d k) (a || decide (k = .arrow ∧ d = 0)) := by
  have hcolon : k = .colon ∨ k ≠ .colon := Decidable.em _
  rcases hcolon with rfl | hne
  · by_cases hends : d = 0 ∧ a = true ∧ lineDone xs = true
    · obtain ⟨rfl, rfl, hdone⟩ := hends
      exact .inl ⟨⟨rfl, rfl, rfl, hdone⟩, by simp [next, hx, hdone]⟩
    · refine .inr ⟨fun h => hends h.2, ?_⟩
      cases d with
      | succ d => simp [next, hx, depthAfter]
      | zero =>
        cases a with
        | false => simp [next, hx, depthAfter]
        | true =>
          have hdone : lineDone xs ≠ true := fun h => hends ⟨rfl, rfl, h⟩
          simp [next, hx, depthAfter, hdone]
  · refine .inr ⟨fun h => hne h.1, ?_⟩
    cases k with
    | moduleWord => exact absurd rfl hk
    | colon => exact absurd rfl hne
    | arrow => cases d <;> cases a <;> simp [next, hx, depthAfter]
    | _ => cases d <;> cases a <;> simp [next, hx, depthAfter]

section Step

variable {ts : List Token} {x : Lexeme} {xs : List Lexeme} {last : Position}

/-- In a body the header has been ended, so the zone is one behind it. -/
theorem Knows.of_inBody {z : Zone} {pos : Position} {rest : List Token} (h : z.Knows ts pos xs rest)
    (hbody : InBody ts rest) : z = .headed ∨ ∃ b, z = .body b := by
  obtain ⟨hs, hsince, hends⟩ := hbody.not_noneCloses
  cases z with
  | outside =>
    obtain ⟨before, m, rfl, hm, -⟩ := hsince
    exact absurd hm (h m (by simp))
  | header d a =>
    obtain ⟨hs', hsince', -, -, hnone⟩ := h
    rw [hsince.unique hsince'] at hends
    exact absurd hnone hends
  | headed => exact .inl rfl
  | body b => exact .inr ⟨b, rfl⟩

/-- A `module` starts a header, wherever it stands. -/
theorem knows_module (ts : List Token) {m : Token} (hm : m.kind = .moduleWord) (pos : Position) (rest : List Token) :
    (header 0 false).Knows (ts ++ [m]) pos xs rest := by
  refine ⟨[], ⟨ts, m, rfl, hm, List.forall_mem_nil _⟩, rfl, ⟨nofun, ?_⟩, ?_⟩
  · rintro ⟨as, a, bs, h, -⟩
    simp at h
  · intro as c bs h
    simp at h

/-- Any other word in a header goes on with it or ends it. -/
theorem Knows.header_word {d : Nat} {a : Bool} {k : TokenKind} (hx : x.Leads xs)
    (hxs : Scanned (x.pos.after x.text) xs last) (hshape : x.shape = .word k) (hk : k ≠ .moduleWord)
    (h : (header d a).Knows ts x.pos (x :: xs) (toCome (.header d a) (x :: xs) last)) :
    ((header d a).next x xs).Knows (ts ++ [⟨k, String.ofList x.text, x.pos⟩]) (x.pos.after x.text) xs
      (toCome ((header d a).next x xs) xs last) := by
  rw [toCome_cons, Lexeme.tokenOf?_word hshape, Option.toList_some, List.singleton_append] at h
  generalize htoken : (⟨k, String.ofList x.text, x.pos⟩ : Token) = t at h ⊢
  have htk : t.kind = k := by rw [← htoken]
  have hline : (x.pos.after x.text).line = t.pos.line := by
    rw [hx.after_of_ne (by simp [hshape]), ← htoken]
  obtain ⟨hs, hsince, hdepth, harrow, hnone⟩ := h
  -- whether the word ends the header is a matter of the words to come on its line
  have hcloses : Closes hs t (toCome ((header d a).next x xs) xs last) ↔
      k = .colon ∧ d = 0 ∧ a = true ∧ lineDone xs = true := by
    rw [hxs.lineDone_iff ((header d a).next x xs), hline, harrow, ← hdepth, ← htk]
    exact ⟨fun h => ⟨h.1, h.2, h.3, h.4⟩, fun h => ⟨h.1, h.2.1, h.2.2.1, h.2.2.2⟩⟩
  rcases next_header d a xs hshape hk with ⟨hends, hnext⟩ | ⟨hgoes, hnext⟩
  · have hends' := hcloses.2 hends
    rw [hnext] at hnone hends' ⊢
    exact ⟨ts, t, rfl, ⟨hs, hsince, hends', hnone⟩, hline.symm, hends.2.2.2⟩
  · have hgoes' := mt hcloses.1 hgoes
    rw [hnext] at hnone hgoes' ⊢
    refine ⟨hs ++ [t], hsince.append (htk ▸ hk), ?_, ?_, noneCloses_append hnone hgoes'⟩
    · rw [openParens_append, hdepth, htk]
    · rw [arrowed_append, Bool.or_eq_true, decide_eq_true_eq, harrow, hdepth, htk]

theorem Knows.word {z : Zone} {k : TokenKind} (hx : x.Leads xs) (hxs : Scanned (x.pos.after x.text) xs last)
    (hshape : x.shape = .word k) (h : z.Knows ts x.pos (x :: xs) (toCome z (x :: xs) last)) :
    (z.next x xs).Knows (ts ++ [⟨k, String.ofList x.text, x.pos⟩]) (x.pos.after x.text) xs
      (toCome (z.next x xs) xs last) := by
  by_cases hk : k = .moduleWord
  · subst hk
    have hnext : z.next x xs = .header 0 false := by simp [next, hshape]
    rw [hnext]
    exact knows_module ts rfl _ _
  cases z with
  | outside =>
    have hnext : Zone.outside.next x xs = .outside := by cases k <;> simp_all [next]
    rw [hnext]
    exact List.forall_mem_append.2 ⟨h, List.forall_mem_singleton.2 hk⟩
  | header d a => exact h.header_word hx hxs hshape hk
  | headed =>
    obtain ⟨-, -, -, -, -, hdone⟩ := h
    rw [Lexeme.lineDone_word hshape] at hdone
    cases hdone
  | body b =>
    have hnext : (Zone.body b).next x xs = .body false := by cases k <;> simp_all [next]
    have hbody : InBody ts (toCome (.body b) (x :: xs) last) := by cases b <;> exact h.1
    rw [toCome_cons, Lexeme.tokenOf?_word hshape, hnext] at hbody
    rw [hnext]
    refine ⟨hbody.append hk, ts, _, rfl, hx.isWord hshape, ?_⟩
    rw [hx.after_of_ne (by simp [hshape])]

theorem Knows.lineFeed {z : Zone} (hx : x.Leads xs) (hshape : x.shape = .lineFeed)
    (h : z.Knows ts x.pos (x :: xs) (toCome z (x :: xs) last)) :
    (z.next x xs).Knows (ts ++ (tokenOf? z x xs).toList) (x.pos.after x.text) xs
      (toCome (z.next x xs) xs last) := by
  rw [toCome_cons] at h
  cases z with
  | outside => simpa [next, tokenOf?, hshape, Knows] using h
  | header d a => simpa [next, tokenOf?, hshape, Knows] using h
  | headed =>
    have hnext : Zone.headed.next x xs = .body true := by simp [next, hshape]
    have htoken : tokenOf? .headed x xs = some ⟨.newline, String.ofList x.text, x.pos⟩ := by simp [tokenOf?, hshape]
    rw [hnext, htoken] at h ⊢
    obtain ⟨before, c, rfl, hends, hline, -⟩ := h
    have hc : c.IsWord := by
      obtain ⟨hs, -, hcloses, -⟩ := hends
      rw [Token.IsWord, hcloses.colon]
      decide
    exact ⟨hends.inBody.append (by simp), .behind hx hshape before hc hline⟩
  | body b =>
    have hnext : (Zone.body b).next x xs = .body true := by simp [next, hshape]
    cases b with
    | false =>
      have htoken : tokenOf? (.body false) x xs = some ⟨.newline, String.ofList x.text, x.pos⟩ := by
        simp [tokenOf?, hshape]
      rw [hnext, htoken] at h ⊢
      obtain ⟨hbody, before, t, rfl, ht, hline⟩ := h
      exact ⟨hbody.append (by simp), .behind hx hshape before ht hline⟩
    | true =>
      have htoken : tokenOf? (.body true) x xs = none := by simp [tokenOf?, hshape]
      rw [hnext, htoken] at h ⊢
      rw [Option.toList_none, List.append_nil]
      exact ⟨h.1, h.2.lineFeed hx hshape⟩

theorem Knows.comment {z : Zone} (hx : x.Leads xs) (hshape : x.shape = .comment)
    (h : z.Knows ts x.pos (x :: xs) (toCome z (x :: xs) last)) :
    (z.next x xs).Knows (ts ++ (tokenOf? z x xs).toList) (x.pos.after x.text) xs
      (toCome (z.next x xs) xs last) := by
  have hline : (x.pos.after x.text).line = x.pos.line := by rw [hx.after_of_ne (by simp [hshape])]
  have htoken : tokenOf? z x xs = none := by cases z <;> simp [tokenOf?, hshape]
  have hnext : z.next x xs = z := by cases z <;> simp [next, hshape]
  rw [toCome_cons, htoken, hnext] at h
  rw [htoken, hnext, Option.toList_none, List.append_nil]
  cases z with
  | outside => exact h
  | header d a => exact h
  | headed =>
    obtain ⟨before, c, hts, hends, hc, -⟩ := h
    exact ⟨before, c, hts, hends, hc.trans hline.symm, (hx.lineDone hshape).1⟩
  | body b =>
    cases b with
    | false =>
      obtain ⟨hbody, before, t, hts, ht, htline⟩ := h
      exact ⟨hbody, before, t, hts, ht, htline.trans hline.symm⟩
    | true => exact ⟨h.1, h.2.comment hx hshape⟩

theorem Knows.blank {z : Zone} (hx : x.Leads xs) (hshape : x.shape = .blank)
    (h : z.Knows ts x.pos (x :: xs) (toCome z (x :: xs) last)) :
    (z.next x xs).Knows (ts ++ (tokenOf? z x xs).toList) (x.pos.after x.text) xs
      (toCome (z.next x xs) xs last) := by
  have hline : (x.pos.after x.text).line = x.pos.line := by rw [hx.after_of_ne (by simp [hshape])]
  have hnext : z.next x xs = z := by cases z <;> simp [next, hshape]
  rw [toCome_cons, hnext] at h
  rw [hnext]
  cases z with
  | outside => simpa [tokenOf?, hshape, Knows] using h
  | header d a => simpa [tokenOf?, hshape, Knows] using h
  | headed =>
    have htoken : tokenOf? .headed x xs = none := by simp [tokenOf?, hshape]
    rw [htoken] at h ⊢
    obtain ⟨before, c, rfl, hends, hc, hdone⟩ := h
    rw [Lexeme.lineDone_blank hshape] at hdone
    exact ⟨before, c, List.append_nil _, hends, hc.trans hline.symm, hdone⟩
  | body b =>
    cases b with
    | false =>
      have htoken : tokenOf? (.body false) x xs = none := by simp [tokenOf?, hshape]
      rw [htoken] at h ⊢
      obtain ⟨hbody, before, t, rfl, ht, htline⟩ := h
      rw [Option.toList_none, List.append_nil]
      exact ⟨hbody, before, t, rfl, ht, htline.trans hline.symm⟩
    | true =>
      refine ⟨?_, h.2.blank hx hshape⟩
      cases htoken : tokenOf? (.body true) x xs with
      | none =>
        rw [htoken] at h
        rw [Option.toList_none, List.append_nil]
        exact h.1
      | some t =>
        rw [htoken] at h
        obtain ⟨-, -, hword | ⟨hfeed, -⟩ | ⟨-, hkind, -⟩⟩ := Lexeme.tokenOf?_cases htoken
        · cases hshape.symm.trans hword
        · cases hshape.symm.trans hfeed
        · exact h.1.append (by rw [hkind]; decide)

/-- **A lexeme keeps what is known.** -/
theorem Knows.step {z : Zone} (hx : x.Leads xs) (hxs : Scanned (x.pos.after x.text) xs last)
    (h : z.Knows ts x.pos (x :: xs) (toCome z (x :: xs) last)) :
    (z.next x xs).Knows (ts ++ (tokenOf? z x xs).toList) (x.pos.after x.text) xs
      (toCome (z.next x xs) xs last) := by
  cases hshape : x.shape with
  | blank => exact h.blank hx hshape
  | lineFeed => exact h.lineFeed hx hshape
  | comment => exact h.comment hx hshape
  | word k =>
    rw [Lexeme.tokenOf?_word hshape]
    exact h.word hx hxs hshape

end Step

end Zone

/-! ## Token by token -/

/-- In the zone the token comes from the first of the lexemes, or is the end behind none, and these tokens come behind
it. -/
inductive Comes (last : Position) : Zone → Position → List Lexeme → Token → List Token → Prop
  | token {z : Zone} {x : Lexeme} {xs : List Lexeme} {t : Token} (hx : x.Leads xs)
    (hxs : Scanned (x.pos.after x.text) xs last) (h : tokenOf? z x xs = some t) :
    Comes last z x.pos (x :: xs) t (toCome (z.next x xs) xs last)
  | eof (z : Zone) : Comes last z last [] ⟨.eof, "", last⟩ []

section Visits

variable {z : Zone} {pos last : Position} {xs : List Lexeme} {ts pre post : List Token} {t u : Token}

theorem Comes.pos_eq (h : Comes last z pos xs u post) : u.pos = pos := by
  cases h with
  | token hx hxs h => exact (Lexeme.tokenOf?_cases h).1
  | eof => rfl

/-- A token is a word, or the end, or layout where there may be any. -/
theorem Comes.kind (h : Comes last z pos xs u post) :
    (u.IsWord ∧ lineDone xs = false ∧ wordNext xs = true) ∨ u.kind = .eof ∨
      u.kind = .newline ∧ (z = .headed ∨ z = .body false) ∨
      u.kind = .indent ∧ z = .body true ∧ ∀ y ∈ xs.head?, y.shape = .blank := by
  cases h with
  | eof => exact .inr (.inl rfl)
  | @token x xs t hx hxs h =>
    rcases (Lexeme.tokenOf?_cases h).2.2 with hshape | ⟨-, hkind, hz⟩ | ⟨hshape, hkind, hz, -⟩
    · exact .inl ⟨hx.isWord hshape, Lexeme.lineDone_word hshape, Lexeme.wordNext_iff.2 ⟨x, xs, _, rfl, hshape⟩⟩
    · exact .inr (.inr (.inl ⟨hkind, hz⟩))
    · refine .inr (.inr (.inr ⟨hkind, hz, ?_⟩))
      rintro _ ⟨⟩
      exact hshape

/-- **What is known in front of each token** to come. -/
theorem Zone.Knows.visit (hxs : Scanned pos xs last) : ∀ {z : Zone} {ts : List Token} {pre : List Token},
    z.Knows ts pos xs (toCome z xs last) → toCome z xs last = pre ++ u :: post →
      ∃ z' pos' xs', z'.Knows (ts ++ pre) pos' xs' (u :: post) ∧ Comes last z' pos' xs' u post := by
  induction hxs with
  | nil last =>
    intro z ts pre h hsplit
    rw [Lexeme.toCome_nil] at hsplit
    cases pre with
    | nil =>
      cases hsplit
      rw [List.append_nil]
      exact ⟨z, last, [], h, .eof z⟩
    | cons p pre => simp at hsplit
  | @cons x xs last hx hxs ih =>
    intro z ts pre h hsplit
    have hstep := h.step hx hxs
    cases htoken : tokenOf? z x xs with
    | none =>
      rw [toCome_cons, htoken] at hsplit
      rw [htoken, Option.toList_none, List.append_nil] at hstep
      exact ih hstep hsplit
    | some t =>
      rw [toCome_cons, htoken] at hsplit
      cases pre with
      | nil =>
        cases hsplit
        rw [toCome_cons, htoken] at h
        rw [List.append_nil]
        exact ⟨z, x.pos, x :: xs, h, .token hx hxs htoken⟩
      | cons p pre =>
        rw [Option.toList_some, List.singleton_append, List.cons_append, List.cons.injEq] at hsplit
        obtain ⟨rfl, hsplit⟩ := hsplit
        rw [htoken, Option.toList_some] at hstep
        have hvisit := ih hstep hsplit
        rwa [List.append_assoc, List.singleton_append] at hvisit

/-- Nothing is known at the start. -/
theorem knows_before (hxs : Scanned .start xs last) (h : toCome .outside xs last = pre ++ u :: post) :
    ∃ z pos ys, Zone.Knows z pre pos ys (u :: post) ∧ Comes last z pos ys u post := by
  have hstart : Zone.outside.Knows [] .start xs (toCome .outside xs last) := List.forall_mem_nil _
  exact hstart.visit hxs h

/-- What is known behind a token, in front of the next one. -/
theorem knows_behind (hxs : Scanned .start xs last) (h : toCome .outside xs last = pre ++ t :: u :: post) :
    ∃ z pos ys, Zone.Knows z (pre ++ [t]) pos ys (u :: post) ∧ Comes last z pos ys u post :=
  knows_before hxs (by rw [h, List.append_assoc, List.singleton_append])

/-- Behind the colon of a header and in a body there is a body. -/
theorem Zone.Knows.inBody {rest : List Token} (h : z.Knows ts pos xs rest) (hz : z = .headed ∨ ∃ b, z = .body b) :
    InBody ts rest := by
  rcases hz with rfl | ⟨_ | _, rfl⟩
  · obtain ⟨before, c, rfl, hends, -⟩ := h
    exact hends.inBody
  · exact h.1
  · exact h.1

/-- Behind a header and inside a line the last token is a word of the line. -/
theorem Zone.Knows.lastWord {rest : List Token} (h : z.Knows (ts ++ [t]) pos xs rest)
    (hz : z = .headed ∨ z = .body false) : t.IsWord ∧ t.pos.line = pos.line := by
  rcases hz with rfl | rfl
  · obtain ⟨before, c, hts, ⟨hs, -, hcloses, -⟩, hline, -⟩ := h
    obtain rfl := (List.append_singleton_inj.1 hts).2
    refine ⟨?_, hline⟩
    rw [Token.IsWord, hcloses.colon]
    decide
  · obtain ⟨-, before, w, hts, hw, hline⟩ := h
    obtain rfl := (List.append_singleton_inj.1 hts).2
    exact ⟨hw, hline⟩

/-- At the start of a line the last token is layout. -/
theorem LineStart.isLayout (h : LineStart (ts ++ [t]) pos xs) : t.IsLayout := by
  generalize hts : ts ++ [t] = all at h
  cases h with
  | @plain before w n _ _ _ hn =>
    rw [show before ++ [w, n] = (before ++ [w]) ++ [n] by simp] at hts
    obtain rfl := (List.append_singleton_inj.1 hts).2
    exact .inl hn
  | @indented before w n i _ _ _ _ _ _ hi =>
    rw [show before ++ [w, n, i] = (before ++ [w, n]) ++ [i] by simp] at hts
    obtain rfl := (List.append_singleton_inj.1 hts).2
    exact .inr hi

theorem Token.IsWord.not_isLayout (h : t.IsWord) : ¬ t.IsLayout := fun hl => hl.elim h.1 h.2.1

end Visits

section Clauses

variable {last : Position} {xs : List Lexeme} {pre post : List Token} {t u n i : Token}

theorem inBody_of_isLayout (hxs : Scanned .start xs last) (h : toCome .outside xs last = pre ++ t :: post)
    (ht : t.IsLayout) : InBody pre (t :: post) := by
  obtain ⟨z, pos, ys, hknows, hcomes⟩ := knows_before hxs h
  refine hknows.inBody ?_
  rcases hcomes.kind with ⟨hword, -⟩ | hkind | ⟨-, hz | hz⟩ | ⟨-, hz, -⟩
  · exact absurd ht hword.not_isLayout
  · rcases ht with ht | ht <;> cases ht.symm.trans hkind
  · exact .inl hz
  · exact .inr ⟨false, hz⟩
  · exact .inr ⟨true, hz⟩

theorem kind_of_endsHeader {c : Token} (hxs : Scanned .start xs last)
    (h : toCome .outside xs last = pre ++ c :: u :: post) (hends : EndsHeader pre c (u :: post)) :
    u.kind = .newline ∨ u.kind = .eof := by
  have hbody : InBody (pre ++ [c]) (u :: post) := hends.inBody
  obtain ⟨hs, -, hcloses, -⟩ := hends
  have hc : ¬ c.IsLayout := fun hl => by
    rcases hl with hl | hl <;> cases hl.symm.trans hcloses.colon
  obtain ⟨z, pos, ys, hknows, hcomes⟩ := knows_behind hxs h
  rcases hcomes.kind with ⟨hword, hdone, -⟩ | hkind | ⟨hkind, -⟩ | ⟨-, hz, -⟩
  · -- a word would be on the line of the colon
    rcases hknows.of_inBody hbody with rfl | ⟨_ | _, rfl⟩
    · obtain ⟨-, -, -, -, -, hdone'⟩ := hknows
      rw [hdone] at hdone'
      cases hdone'
    · refine absurd ?_ (hcloses.alone u List.mem_cons_self hword)
      rw [hcomes.pos_eq, (hknows.lastWord (.inr rfl)).2]
    · exact absurd hknows.2.isLayout hc
  · exact .inr hkind
  · exact .inl hkind
  · rw [hz] at hknows
    exact absurd hknows.2.isLayout hc

theorem isWord_of_newline (hxs : Scanned .start xs last) (h : toCome .outside xs last = pre ++ t :: n :: post)
    (hn : n.kind = .newline) : t.IsWord ∧ t.pos.line = n.pos.line := by
  obtain ⟨z, pos, ys, hknows, hcomes⟩ := knows_behind hxs h
  rw [hcomes.pos_eq]
  rcases hcomes.kind with ⟨hword, -⟩ | hkind | ⟨-, hz⟩ | ⟨hkind, -⟩
  · exact absurd hn hword.1
  · cases hn.symm.trans hkind
  · exact hknows.lastWord hz
  · cases hn.symm.trans hkind

/-- Leading blanks, what is before them and what comes next. -/
theorem around_indent (hxs : Scanned .start xs last) (h : toCome .outside xs last = pre ++ i :: post)
    (hi : i.kind = .indent) : ∃ before n u us, pre = before ++ [n] ∧ n.kind = .newline ∧ post = u :: us ∧
      u.IsWord ∧ i.pos.column = 1 ∧ u.pos = ⟨i.pos.line, 1 + i.value.length⟩ := by
  obtain ⟨z, pos, ys, hknows, hcomes⟩ := knows_before hxs h
  cases hcomes with
  | eof => cases hi
  | @token x ys _ hx hys htoken =>
    obtain ⟨hpos, hvalue, hshape | ⟨-, hkind, -⟩ | ⟨hshape, -, hz, hnext⟩⟩ := Lexeme.tokenOf?_cases htoken
    · exact absurd hi (hx.isWord hshape).2.1
    · cases hi.symm.trans hkind
    · -- a word comes next, behind the blanks
      obtain ⟨y, zs, k, rfl, hy⟩ := Lexeme.wordNext_iff.1 hnext
      have hafter := hx.after_of_ne (by simp [hshape])
      obtain ⟨hypos, hylead, -⟩ := hys.of_cons
      have hyword : k.IsWord := hylead.isWord hy
      rw [hz] at hknows
      obtain ⟨-, hstart⟩ := hknows
      cases hstart with
      | @plain before w n _ _ _ hn _ _ hcolumn =>
        have hfirst : x.pos.column = 1 := hcolumn.resolve_right fun h => (h x rfl).1 hshape
        refine ⟨before ++ [w], n, ⟨k, String.ofList y.text, y.pos⟩,
          toCome ((z.next x (y :: zs)).next y zs) zs last, by simp, hn, ?_, hyword, ?_, ?_⟩
        · rw [toCome_cons, Lexeme.tokenOf?_word hy]
          rfl
        · rw [hpos, hfirst]
        · rw [hypos, hafter, hpos, hfirst, hvalue, String.length_ofList]
      | indented _ _ _ _ _ _ _ hword =>
        obtain ⟨y', ys', k', hcons, hy'⟩ := Lexeme.wordNext_iff.1 hword
        cases hcons
        cases hshape.symm.trans hy'

theorem column_of_newline (hxs : Scanned .start xs last) (h : toCome .outside xs last = pre ++ n :: u :: post)
    (hn : n.kind = .newline) (hu : u.IsWord) : u.pos.column = 1 := by
  have hbody : InBody (pre ++ [n]) (u :: post) :=
    (inBody_of_isLayout hxs h (.inl hn)).append (by rw [hn]; decide)
  obtain ⟨z, pos, ys, hknows, hcomes⟩ := knows_behind hxs h
  have hnext : wordNext ys = true := by
    rcases hcomes.kind with ⟨-, -, hnext⟩ | hkind | ⟨hkind, -⟩ | ⟨hkind, -⟩
    · exact hnext
    · exact absurd hkind hu.2.2
    · exact absurd hkind hu.1
    · exact absurd hkind hu.2.1
  have hnot : ¬ (z = .headed ∨ z = .body false) := fun hz => (hknows.lastWord hz).1.1 hn
  rw [hcomes.pos_eq]
  rcases hknows.of_inBody hbody with hz | ⟨_ | _, hz⟩
  · exact absurd (.inl hz) hnot
  · exact absurd (.inr hz) hnot
  · rw [hz] at hknows
    obtain ⟨-, hstart⟩ := hknows
    generalize hts : pre ++ [n] = all at hstart
    cases hstart with
    | plain _ _ _ _ hcolumn =>
      refine hcolumn.resolve_right fun hfree => ?_
      obtain ⟨y, zs, k, rfl, hy⟩ := Lexeme.wordNext_iff.1 hnext
      have hword := (hfree y rfl).2
      rw [Lexeme.isWord_iff.2 ⟨k, hy⟩] at hword
      cases hword
    | @indented before w n' i _ _ _ _ _ _ hi =>
      rw [show before ++ [w, n', i] = (before ++ [w, n']) ++ [i] by simp] at hts
      obtain rfl := (List.append_singleton_inj.1 hts).2
      cases hn.symm.trans hi

/-- **Two tokens with nothing but layout between them** are on one line if no line break is there. -/
theorem line_eq_iff {gap : List Token} (hxs : Scanned .start xs last)
    (h : toCome .outside xs last = pre ++ t :: (gap ++ u :: post)) (ht : ¬ t.IsLayout)
    (hgap : ∀ g ∈ gap, g.IsLayout) (hbody : InBody (pre ++ [t]) (gap ++ u :: post)) :
    t.pos.line = u.pos.line ↔ ∀ g ∈ gap, g.kind ≠ .newline := by
  have hbody' : InBody (pre ++ t :: gap) (u :: post) := by
    obtain ⟨before, c, us, hts, hends, hus⟩ := hbody
    refine ⟨before, c, us ++ gap, ?_, by rwa [List.append_assoc], List.forall_mem_append.2 ⟨hus, ?_⟩⟩
    · rw [← List.cons_append, ← List.append_assoc, ← hts, List.append_assoc, List.singleton_append]
    · intro g hg
      rcases hgap g hg with hkind | hkind <;> rw [hkind] <;> decide
  have hsplit : toCome .outside xs last = (pre ++ t :: gap) ++ u :: post := by
    rw [h, List.append_assoc, List.cons_append]
  obtain ⟨z, pos, ys, hknows, hcomes⟩ := knows_before hxs hsplit
  rw [hcomes.pos_eq]
  have hline : z = .headed ∨ z = .body false → (t.pos.line = pos.line ↔ ∀ g ∈ gap, g.kind ≠ .newline) := by
    intro hz
    rcases List.eq_nil_or_concat gap with rfl | ⟨front, g, rfl⟩
    · exact ⟨fun _ => List.forall_mem_nil _, fun _ => (hknows.lastWord hz).2⟩
    · rw [List.concat_eq_append, ← List.cons_append, ← List.append_assoc] at hknows
      exact absurd (hgap g (by simp)) (hknows.lastWord hz).1.not_isLayout
  rcases hknows.of_inBody hbody' with hz | ⟨_ | _, hz⟩
  · exact hline (.inl hz)
  · exact hline (.inr hz)
  · rw [hz] at hknows
    obtain ⟨-, hstart⟩ := hknows
    -- the word before the line break is the token, and all layout behind it is the gap
    have hsame : ∀ {before : List Token} {w n : Token} {is : List Token},
        pre ++ t :: gap = before ++ w :: n :: is → w.IsWord → n.kind = .newline → (∀ i ∈ is, i.kind = .indent) →
        t = w ∧ gap = n :: is := by
      intro before w n is heq hw hn his
      obtain ⟨-, hlast, hrest⟩ := last_unique (P := fun t => ¬ t.IsLayout) heq ht hw.not_isLayout
        (fun g hg hnot => hnot (hgap g hg))
        (List.forall_mem_cons.2 ⟨fun hnot => hnot (.inl hn), fun i hi hnot => hnot (.inr (his i hi))⟩)
      exact ⟨hlast, hrest⟩
    have hbreak : ∀ {n : Token} {is : List Token}, n.kind = .newline → n.pos.line = t.pos.line →
        n.pos.line < pos.line → (t.pos.line = pos.line ↔ ∀ g ∈ n :: is, g.kind ≠ .newline) :=
      fun hn hline hlater => ⟨fun heq => by omega, fun hnone => absurd hn (hnone _ List.mem_cons_self)⟩
    generalize hts : pre ++ t :: gap = all at hstart
    cases hstart with
    | plain hw hn hnline hlater _ =>
      obtain ⟨rfl, rfl⟩ := hsame hts hw hn (List.forall_mem_nil _)
      exact hbreak hn hnline hlater
    | indented hw hn hnline hlater hi _ _ _ =>
      obtain ⟨rfl, rfl⟩ := hsame hts hw hn (List.forall_mem_singleton.2 hi)
      exact hbreak hn hnline hlater

end Clauses

/-! ## Lines with tokens -/

section Lines

variable {pos last : Position} {cs : List Char} {xs : List Lexeme} {t : Token}

/-- What is no comment has no semicolon. -/
theorem Lexeme.Shape.Fits.semicolon_not_mem {shape : Lexeme.Shape} {ds rest : List Char} (h : shape.Fits ds rest)
    (hshape : shape ≠ .comment) : ';' ∉ ds := by
  intro hmem
  rcases h.plain hshape with hplain | harrow
  · exact (hplain _ hmem).2 rfl
  · rw [harrow] at hmem
    exact absurd hmem (by decide)

/-- Leading blanks are as many as there are. -/
theorem Token.Spells.blanks {ds rest : List Char} (h : Spells .indent ds rest) : LongestRun isBlank ds rest := by
  cases h with
  | mark h =>
    unfold Lexeme.punctuation? at h
    split at h <;> cases h
  | indent _ hrun => exact hrun

/-- A word starts neither with a blank nor with a line feed. -/
theorem Token.Spells.word_head {k : TokenKind} {ds rest : List Char} (h : Spells k ds rest) (hk : k.IsWord) :
    ∀ c ∈ ds.head?, isBlank c = false ∧ c ≠ '\n' := by
  have hname : ∀ {c : Char}, Lexeme.continuesName c = true → isBlank c = false ∧ c ≠ '\n' := fun h =>
    ⟨(Lexeme.ne_of_continuesName h).1, (Lexeme.ne_of_continuesName h).2.1⟩
  rintro _ hc
  cases h with
  | ident hd => cases hc; exact hname (Lexeme.continuesName_of_startsName hd)
  | moduleWord => cases hc; decide
  | decimal hd => cases hc; exact hname (Lexeme.continuesName_of_isDigit hd)
  | hexadecimal => cases hc; decide
  | arrow => cases hc; decide
  | mark h =>
    cases hc
    unfold Lexeme.punctuation? at h
    split at h <;> first | decide | cases h
  | newline => exact absurd rfl hk.1
  | indent => exact absurd rfl hk.2.1

/-- A lexeme in front of others has no semicolon, or ends its line. -/
theorem Lexeme.Leads.ends {x : Lexeme} {rest : List Char} (h : x.Leads xs) (hx : x.shape.Fits x.text rest)
    (hxs : Chained (x.pos.after x.text) rest xs) : ';' ∉ x.text ∨ ∀ c ∈ rest.head?, c = '\n' := by
  by_cases hshape : x.shape = .comment
  · refine .inr fun c hc => ?_
    have hfeed := (h.lineDone hshape).2.2
    generalize x.pos.after x.text = p at hxs
    cases hxs with
    | nil => cases hc
    | @cons y ds ys hne hy hys =>
      rw [hfeed y rfl] at hy
      rw [show y.text = ['\n'] from hy] at hc
      cases hc
      rfl
  · exact .inl (hx.semicolon_not_mem hshape)

/-- **No token starts in a comment.** -/
theorem Lexeme.not_inComment_placed (h : Chained pos cs xs) : ∀ (z : Zone) (pre : List Char), Scanned pos xs last →
    (∀ i < cs.length, InComment (pre ++ cs) (pre.length + i) ↔ InComment cs i) →
    ∀ p ∈ placed z pre.length xs, ¬ InComment (pre ++ cs) p.1 := by
  induction h with
  | nil pos => exact fun _ _ _ _ p hp => absurd hp List.not_mem_nil
  | @cons x rest xs hne hx hxs ih =>
    intro z pre hscanned hpre p hp
    obtain ⟨-, hlead, hscanned⟩ := hscanned.of_cons
    rw [placed, List.mem_append] at hp
    rcases hp with hp | hp
    · -- the first character of a token is no semicolon
      obtain ⟨t, ht, rfl⟩ := List.mem_map.1 hp
      have hshape : x.shape ≠ .comment := by
        rcases (tokenOf?_cases (Option.mem_toList.1 ht)).2.2 with h | ⟨h, -⟩ | ⟨h, -⟩ <;> simp [h]
      obtain ⟨c, ds, htext⟩ := List.exists_cons_of_ne_nil hne
      have hin := hpre 0 (by rw [htext]; exact Nat.succ_pos _)
      rw [Nat.add_zero] at hin
      rw [hin]
      rintro ⟨j, hj, hsemi, -⟩
      rw [Nat.le_zero.1 hj, htext] at hsemi
      refine hx.semicolon_not_mem hshape ?_
      rw [htext, ← Option.some.inj hsemi]
      exact List.mem_cons_self
    · rw [← List.length_append] at hp
      rw [← List.append_assoc]
      refine ih _ _ hscanned (fun i hi => ?_) p hp
      rw [List.append_assoc, List.length_append, Nat.add_assoc, hpre _ (by rw [List.length_append]; omega)]
      exact inComment_append (hlead.ends hx hxs) hi

/-- A line with a word is not bare. -/
theorem Lexeme.not_bareLine_placed (h : Chained .start cs xs) (hscanned : Scanned .start xs last) {p : Nat × Token}
    (hp : p ∈ placed .outside 0 xs) (hword : p.2.IsWord) : ¬ BareLine cs p.2.pos.line := by
  intro hbare
  have hstands := (standsAt_placed h .outside [] rfl p hp).2
  have hcomment := not_inComment_placed h .outside [] hscanned
    (fun i _ => by rw [List.length_nil, Nat.zero_add]; rfl) p hp
  rw [List.nil_append] at hstands hcomment
  obtain ⟨c, ds, htext⟩ := List.exists_cons_of_ne_nil hstands.spells.ne_nil
  have hc : cs[p.1]? = some c := by
    obtain ⟨rest, hrest⟩ := hstands.text
    rw [htext] at hrest
    rw [← List.head?_drop, ← hrest]
    rfl
  obtain ⟨hblank, hfeed⟩ := hstands.spells.word_head hword c (by rw [htext]; rfl)
  rcases hbare p.1 c hc (by rw [hstands.pos]) with h | h | h
  · rw [hblank] at h
    cases h
  · exact hfeed h
  · exact hcomment h

end Lines

namespace Token

open Lexeme (Chained placed placed_tokens standsAt_placed)

variable {source : String} {tokens : List Token} {t : Token}

/-- The lexemes of a text and its tokens. -/
theorem scanned_ofText (h : ofText source = .ok tokens) : ∃ xs last, Chained .start source.toList xs ∧
    Scanned .start xs last ∧ tokens = toCome .outside xs last := by
  unfold ofText at h
  cases hscan : Lexeme.scan source.toList with
  | error e =>
    rw [hscan] at h
    cases h
  | ok xs =>
    rw [hscan] at h
    cases h
    exact ⟨xs, _, Lexeme.chained_scanFrom hscan, Lexeme.scanned_scanFrom hscan, rfl⟩

/-- Every token but the end is placed. -/
theorem exists_placed {z : Zone} {xs : List Lexeme} {last : Position} (ht : t ∈ toCome z xs last)
    (hkind : t.kind ≠ .eof) (o : Nat) : ∃ p ∈ placed z o xs, p.2 = t := by
  rw [toCome, ← placed_tokens xs z o, List.mem_append, List.mem_map, List.mem_singleton] at ht
  rcases ht with ht | rfl
  · exact ht
  · exact absurd rfl hkind

/-- Every token but the end has a word on its line. -/
theorem exists_word {xs : List Lexeme} {last : Position} (hxs : Scanned .start xs last)
    (ht : t ∈ toCome .outside xs last) (hkind : t.kind ≠ .eof) :
    ∃ w ∈ toCome .outside xs last, w.IsWord ∧ w.pos.line = t.pos.line := by
  obtain ⟨pre, post, hsplit⟩ := List.append_of_mem ht
  by_cases hnewline : t.kind = .newline
  · obtain ⟨before, c, us, rfl, -⟩ := inBody_of_isLayout hxs hsplit (.inl hnewline)
    obtain ⟨front, w, hfront⟩ := List.eq_nil_or_concat (c :: us) |>.resolve_left (List.cons_ne_nil c us)
    rw [hfront, List.concat_eq_append, ← List.append_assoc, List.append_assoc, List.singleton_append] at hsplit
    obtain ⟨hw, hline⟩ := isWord_of_newline hxs hsplit hnewline
    exact ⟨w, by rw [hsplit]; simp, hw, hline⟩
  by_cases hindent : t.kind = .indent
  · obtain ⟨-, -, u, us, -, -, rfl, hu, -, hpos⟩ := around_indent hxs hsplit hindent
    exact ⟨u, by rw [hsplit]; simp, hu, by rw [hpos]⟩
  · exact ⟨t, ht, ⟨hnewline, hindent, hkind⟩, rfl⟩

/-- **The layout of a text is well-formed.** Line breaks and leading blanks are tokens in bodies only, where they tell
the lines apart: the line break first, right behind the colon of the header, one behind each line with a word on it,
and none but the leading blanks of a line, all of them, in front of its words. -/
theorem laidOut_ofText (h : ofText source = .ok tokens) : LaidOut source.toList tokens := by
  obtain ⟨xs, last, hchained, hscanned, rfl⟩ := scanned_ofText h
  have hplaced : ∀ t ∈ toCome .outside xs last, t.kind ≠ .eof → ∃ o, t.StandsAt source.toList o := by
    intro t ht hkind
    obtain ⟨p, hp, rfl⟩ := exists_placed ht hkind 0
    exact ⟨p.1, (standsAt_placed hchained .outside [] rfl p hp).2⟩
  exact {
    inBody := fun pre t post hsplit ht => inBody_of_isLayout hscanned hsplit ht
    opening := by
      intro pre c post hsplit hends
      rcases append_singleton_cases hsplit with ⟨-, rfl, -⟩ | ⟨us, rfl, -⟩
      · obtain ⟨hs, -, hcloses, -⟩ := hends
        cases hcloses.colon
      · cases us with
        | nil => exact ⟨_, [], rfl, .inr rfl⟩
        | cons u us => exact ⟨u, _, rfl, kind_of_endsHeader hscanned hsplit hends⟩
    newline := fun pre t n post hsplit hn => (isWord_of_newline hscanned hsplit hn).1
    indent := fun pre i post hsplit hi => around_indent hscanned hsplit hi
    blanks := by
      intro i hi hkind
      obtain ⟨o, hpos, htext, hspells⟩ := hplaced i hi (by rw [hkind]; decide)
      exact ⟨o, hpos, htext, hspells.ne_nil, (hkind ▸ hspells).blanks⟩
    flush := fun pre n u post hsplit hn hu => column_of_newline hscanned hsplit hn hu
    lines := fun pre t gap u post hsplit ht hgap _ hbody => line_eq_iff hscanned hsplit ht hgap hbody
    bare := by
      intro t ht hkind
      obtain ⟨w, hw, hword, hline⟩ := exists_word hscanned ht hkind
      obtain ⟨p, hp, rfl⟩ := exists_placed hw hword.2.2 0
      rw [← hline]
      exact Lexeme.not_bareLine_placed hchained hscanned hp hword }

/-- A text with lines of blanks and comments between those of a body, and a colon among the inputs. -/
theorem laidOut_spaced : ofText spaced = .ok spacedTokens ∧ LaidOut spaced.toList spacedTokens :=
  ⟨ofText_spaced, laidOut_ofText ofText_spaced⟩

end Token

end NandHdl
