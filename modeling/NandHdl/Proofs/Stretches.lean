import NandHdl.Proofs.Scanning

/-!
# Where tokens stand

The tokens of a text are stretches of it, one behind another, and what lies
between them is blank or a comment.

* `Position.ofOffset`: line and column of a character, counted in the text before it.
* `Token.Spells`: the texts of each kind of token, and where such a text has to end.
* `Token.StandsAt`: a token is what is written at its place.
* `Lexeme.Chained`: lexemes that lie one behind another and make up a text.
* `Token.ofText_stretches`: **the tokens of a text are disjoint stretches of it in order**, spelled as
  their kind asks for, and nothing but blanks, line feeds and comments lies outside.
-/

namespace NandHdl

/-! ## Positions -/

namespace Position

/-- The place of the character with the number `o`: the line feeds before it and the characters since the
last of them, both counted from 1. -/
def ofOffset (cs : List Char) (o : Nat) : Position :=
  ⟨(cs.take o).count '\n' + 1, ((cs.take o).rtakeWhile (· ≠ '\n')).length + 1⟩

/-- An earlier line, or an earlier column of the same line. -/
def Before (p q : Position) : Prop := p.line < q.line ∨ (p.line = q.line ∧ p.column < q.column)

instance (p q : Position) : Decidable (p.Before q) := inferInstanceAs (Decidable (_ ∨ _))

theorem Before.trans {p q r : Position} (h : p.Before q) (h' : q.Before r) : p.Before r := by
  unfold Before at *
  omega

theorem before_advance (p : Position) (c : Char) : p.Before (p.advance c) := by
  unfold advance Before
  split
  · exact .inl (Nat.lt_succ_self _)
  · exact .inr ⟨rfl, Nat.lt_succ_self _⟩

/-- A text that is not empty moves the position on. -/
theorem before_after {cs : List Char} (h : cs ≠ []) : ∀ p : Position, p.Before (p.after cs) := by
  induction cs with
  | nil => exact absurd rfl h
  | cons c cs ih =>
    intro p
    rw [after_cons]
    by_cases hcs : cs = []
    · rw [hcs, after_nil]
      exact before_advance p c
    · exact (before_advance p c).trans (ih hcs (p.advance c))

/-- **Going through a text one by one** ends where counting in it does. -/
theorem after_start (cs : List Char) :
    start.after cs = ⟨cs.count '\n' + 1, (cs.rtakeWhile (· ≠ '\n')).length + 1⟩ := by
  induction cs using List.reverseRecOn with
  | nil => rfl
  | append_singleton cs c ih =>
    rw [after_append, ih, after_cons, after_nil, advance]
    by_cases hc : c = '\n'
    · subst hc
      rw [if_pos rfl, List.rtakeWhile_concat_neg _ _ _ (by simp)]
      simp [List.count_append]
    · rw [if_neg hc, List.rtakeWhile_concat_pos _ _ _ (by simpa using hc)]
      simp [List.count_append, hc]

theorem after_take (cs : List Char) (o : Nat) : start.after (cs.take o) = ofOffset cs o :=
  after_start _

/-- An earlier character stands before a later one, or before the end. -/
theorem ofOffset_before {cs : List Char} {i j : Nat} (hij : i < j) (hj : j ≤ cs.length) :
    (ofOffset cs i).Before (ofOffset cs j) := by
  have hsplit : cs.take j = cs.take i ++ (cs.take j).drop i := by
    have htake : (cs.take j).take i = cs.take i := by rw [List.take_take, Nat.min_eq_left hij.le]
    rw [← htake, List.take_append_drop]
  have hne : (cs.take j).drop i ≠ [] := by
    rw [ne_eq, List.drop_eq_nil_iff, List.length_take]
    omega
  rw [← after_take, ← after_take, hsplit, after_append]
  exact before_after hne _

end Position

/-! ## Spelling -/

open Lexeme (startsName continuesName isHexDigit isBlank punctuation?)

/-- `cs` is a run of characters of the class `p` in front of `rest`, and as long as it can be. -/
structure LongestRun (p : Char → Bool) (cs rest : List Char) : Prop where
  all : ∀ c ∈ cs, p c = true
  stops : ∀ c ∈ rest.head?, p c = false

/-- The text is one of a token of this kind, if `rest` follows it. Names and numbers do not end before they
have to, and a radix mark behind a 0 always makes a number one of base sixteen. -/
inductive Token.Spells : TokenKind → List Char → List Char → Prop
  | ident {c cs rest} (hc : startsName c = true) (hcs : LongestRun continuesName cs rest)
    (hne : c :: cs ≠ "module".toList) : Spells .ident (c :: cs) rest
  | moduleWord {rest} (hend : LongestRun continuesName [] rest) :
    Spells .moduleWord "module".toList rest
  | decimal {c cs rest} (hc : c.isDigit = true) (hcs : LongestRun Char.isDigit cs rest)
    (hmark : c = '0' → ∀ d ∈ (cs ++ rest).head?, d ≠ 'x' ∧ d ≠ 'X') : Spells .number (c :: cs) rest
  | hexadecimal {x cs rest} (hx : x = 'x' ∨ x = 'X') (hcs : LongestRun isHexDigit cs rest) :
    Spells .number ('0' :: x :: cs) rest
  | arrow {rest} : Spells .arrow "->".toList rest
  | mark {c k rest} (h : punctuation? c = some k) : Spells k [c] rest
  | newline {rest} : Spells .newline "\n".toList rest
  | indent {cs rest} (hne : cs ≠ []) (hcs : LongestRun isBlank cs rest) : Spells .indent cs rest

namespace Token

theorem Spells.ne_nil {k : TokenKind} {cs rest : List Char} (h : Spells k cs rest) : cs ≠ [] := by
  cases h with
  | indent hne => exact hne
  | _ => simp

theorem Spells.kind_ne_eof {k : TokenKind} {cs rest : List Char} (h : Spells k cs rest) : k ≠ .eof := by
  cases h with
  | mark h =>
    unfold punctuation? at h
    split at h <;> cases h <;> decide
  | _ => decide

/-- In the text `cs` the token stands at the character with the number `o`: this is its place, its value is
what is written there, and the writing is one of its kind. -/
structure StandsAt (cs : List Char) (o : Nat) (t : Token) : Prop where
  pos : t.pos = .ofOffset cs o
  text : t.value.toList <+: cs.drop o
  spells : Spells t.kind t.value.toList (cs.drop (o + t.value.length))

end Token

/-- The character with the number `i` belongs to a comment: a semicolon stands there or before it on its
line. -/
def InComment (cs : List Char) (i : Nat) : Prop :=
  ∃ j ≤ i, cs[j]? = some ';' ∧ ∀ k, j ≤ k → k ≤ i → cs[k]? ≠ some '\n'

namespace Lexeme

/-! ## Cuts -/

theorem longestRun_run (p : Char → Bool) (cs : List Char) :
    LongestRun p (cs.takeWhile p) (cs.dropWhile p) where
  all := fun _ => List.mem_takeWhile_imp
  stops := by
    intro c hc
    obtain ⟨rest, hrest⟩ : ∃ rest, cs.dropWhile p = c :: rest := List.head?_eq_some_iff.1 hc
    have hne : cs.dropWhile p ≠ [] := by rw [hrest]; exact List.cons_ne_nil c rest
    have hnot := List.head_dropWhile_not p hne
    simpa only [hrest, List.head_cons] using hnot

/-- What a lexeme of each shape looks like in front of `rest`. -/
def Shape.Fits : Shape → List Char → List Char → Prop
  | .blank, cs, rest => cs ≠ [] ∧ LongestRun isBlank cs rest
  | .lineFeed, cs, _ => cs = ['\n']
  | .comment, cs, _ => ∃ ds, cs = ';' :: ds ∧ '\n' ∉ ds
  | .word k, cs, rest => Token.Spells k cs rest

theorem spells_name {c : Char} {cs rest : List Char} (hc : startsName c = true)
    (hcs : LongestRun continuesName cs rest) : Token.Spells (nameKind (c :: cs)) (c :: cs) rest := by
  unfold nameKind
  split
  · next h =>
    rw [h]
    exact .moduleWord ⟨List.forall_mem_nil _, hcs.stops⟩
  · next h => exact .ident hc hcs h

theorem spells_number {c : Char} (cs : List Char) (hc : c.isDigit = true) :
    (cutNumber c cs).shape = .word .number ∧
      Token.Spells .number (cutNumber c cs).text (cutNumber c cs).rest := by
  unfold cutNumber
  split
  · exact ⟨rfl, .hexadecimal (.inl rfl) (longestRun_run isHexDigit _)⟩
  · exact ⟨rfl, .hexadecimal (.inr rfl) (longestRun_run isHexDigit _)⟩
  · next hx hX =>
    refine ⟨rfl, .decimal hc (longestRun_run Char.isDigit cs) ?_⟩
    have hcs : cs.takeWhile Char.isDigit ++ cs.dropWhile Char.isDigit = cs :=
      List.takeWhile_append_dropWhile
    rintro rfl d hd
    obtain ⟨ds, rfl⟩ := List.head?_eq_some_iff.1 (hcs ▸ hd)
    exact ⟨fun h => hx ds rfl (h ▸ rfl), fun h => hX ds rfl (h ▸ rfl)⟩

/-- **A cut takes a lexeme of its shape.** -/
theorem fits_cut {c : Char} {cs : List Char} {x : Cut} (h : cut? c cs = some x) :
    x.shape.Fits x.text x.rest := by
  unfold cut? at h
  split at h
  · next hc =>
    cases h
    have hrun := longestRun_run isBlank cs
    exact ⟨List.cons_ne_nil _ _, List.forall_mem_cons.2 ⟨hc, hrun.all⟩, hrun.stops⟩
  split at h
  · next hc =>
    cases h
    rw [hc]
    rfl
  split at h
  · next hc =>
    cases h
    refine ⟨cs.takeWhile (· ≠ '\n'), by rw [hc]; rfl, fun hmem => ?_⟩
    have hne := List.mem_takeWhile_imp hmem
    simp at hne
  split at h
  · next hc =>
    cases h
    exact spells_name hc (longestRun_run continuesName cs)
  split at h
  · next hc =>
    cases h
    obtain ⟨hshape, hspells⟩ := spells_number cs hc
    rw [hshape]
    exact hspells
  split at h
  · split at h
    · cases h
      exact .arrow
    · cases h
  · obtain ⟨k, hk, rfl⟩ := Option.map_eq_some_iff.1 h
    exact .mark hk

/-! ## Chains of lexemes -/

/-- The lexemes lie one behind another and make up the text, the first of them at `pos`. -/
inductive Chained : Position → List Char → List Lexeme → Prop
  | nil (pos : Position) : Chained pos [] []
  | cons {x : Lexeme} {rest : List Char} {xs : List Lexeme} (hne : x.text ≠ [])
    (hx : x.shape.Fits x.text rest) (hxs : Chained (x.pos.after x.text) rest xs) :
    Chained x.pos (x.text ++ rest) (x :: xs)

/-- **Scanning chains the lexemes of a text.** -/
theorem chained_scanFrom {cs : List Char} : ∀ {pos : Position} {xs : List Lexeme},
    scanFrom pos cs = .ok xs → Chained pos cs xs := by
  induction hn : cs.length using Nat.strongRecOn generalizing cs with
  | _ n ih =>
    intro pos xs h
    cases cs with
    | nil =>
      rw [scanFrom] at h
      cases h
      exact .nil pos
    | cons c cs =>
      rw [scanFrom] at h
      split at h
      · cases h
      · next x hx =>
        cases hrest : scanFrom (pos.after x.text) x.rest with
        | error e =>
          rw [hrest] at h
          cases h
        | ok ys =>
          rw [hrest] at h
          cases h
          rw [← cut?_eq_append hx]
          exact @Chained.cons ⟨x.shape, x.text, pos⟩ _ _ (cut?_text_ne_nil hx) (fits_cut hx)
            (ih x.rest.length (hn ▸ cut?_rest_lt hx) rfl hrest)

/-- The tokens of lexemes, each with the number of the character at which it stands. -/
def placed : Zone → Nat → List Lexeme → List (Nat × Token)
  | _, _, [] => []
  | z, o, x :: xs =>
    (tokenOf? z x xs).toList.map (o, ·) ++ placed (z.next x xs) (o + x.text.length) xs

theorem placed_tokens (xs : List Lexeme) : ∀ z o, (placed z o xs).map Prod.snd = layout z xs := by
  induction xs with
  | nil => exact fun _ _ => rfl
  | cons x xs ih =>
    intro z o
    rw [placed, layout, List.map_append, ih, List.map_map]
    cases tokenOf? z x xs <;> rfl

/-- A lexeme that yields a token yields it with its own text and place. -/
theorem spells_of_tokenOf? {z : Zone} {x : Lexeme} {xs : List Lexeme} {t : Token} {rest : List Char}
    (hx : x.shape.Fits x.text rest) (h : tokenOf? z x xs = some t) :
    t.pos = x.pos ∧ t.value.toList = x.text ∧ Token.Spells t.kind x.text rest := by
  obtain ⟨shape, text, pos⟩ := x
  unfold tokenOf? at h
  dsimp only at h hx
  split at h
  · cases h
    exact ⟨rfl, String.toList_ofList, hx⟩
  · split at h
    · cases h
      exact ⟨rfl, String.toList_ofList, .indent hx.1 hx.2⟩
    · cases h
  · cases h
    exact ⟨rfl, String.toList_ofList, hx ▸ .newline⟩
  · cases h
    exact ⟨rfl, String.toList_ofList, hx ▸ .newline⟩
  · cases h

/-- A lexeme that yields no token is blank, a line feed or a comment. -/
theorem skipped_of_tokenOf? {z : Zone} {x : Lexeme} {xs : List Lexeme} {rest : List Char}
    (hx : x.shape.Fits x.text rest) (h : tokenOf? z x xs = none) :
    (∀ c ∈ x.text, c = ' ' ∨ c = '\t' ∨ c = '\n') ∨ ∃ ds, x.text = ';' :: ds ∧ '\n' ∉ ds := by
  obtain ⟨shape, text, pos⟩ := x
  cases shape with
  | blank =>
    refine .inl fun c hc => ?_
    have hblank := hx.2.all c hc
    rw [isBlank, Bool.or_eq_true, decide_eq_true_eq, decide_eq_true_eq] at hblank
    exact hblank.imp_right .inl
  | lineFeed =>
    refine .inl fun c hc => .inr (.inr ?_)
    rw [show text = ['\n'] from hx] at hc
    exact List.mem_singleton.1 hc
  | comment => exact .inr hx
  | word k => cases h

variable {pos : Position} {cs : List Char} {xs : List Lexeme}

/-- **Every token stands where it is placed**, the lexemes making up the end of a text. -/
theorem standsAt_placed (h : Chained pos cs xs) : ∀ (z : Zone) (pre : List Char),
    pos = Position.start.after pre → ∀ p ∈ placed z pre.length xs,
      pre.length ≤ p.1 ∧ p.2.StandsAt (pre ++ cs) p.1 := by
  induction h with
  | nil pos => exact fun _ _ _ p hp => absurd hp List.not_mem_nil
  | @cons x rest xs hne hx hxs ih =>
    intro z pre hpos p hp
    rw [placed, List.mem_append] at hp
    rcases hp with hp | hp
    · obtain ⟨t, ht, rfl⟩ := List.mem_map.1 hp
      obtain ⟨htpos, htext, hspells⟩ := spells_of_tokenOf? hx (Option.mem_toList.1 ht)
      refine ⟨le_refl _, ?_, ?_, ?_⟩
      · rw [htpos, hpos, ← Position.after_take, List.take_left]
      · rw [htext, List.drop_left]
        exact List.prefix_append x.text rest
      · have hdrop : (pre ++ (x.text ++ rest)).drop (pre.length + t.value.length) = rest := by
          rw [← String.length_toList, htext, List.drop_length_add_append, List.drop_left]
        rw [htext, hdrop]
        exact hspells
    · rw [← List.length_append] at hp
      obtain ⟨hle, hstands⟩ := ih _ _ (by rw [hpos, Position.after_append]) p hp
      rw [List.length_append] at hle
      rw [← List.append_assoc]
      exact ⟨by omega, hstands⟩

/-- **The stretches of tokens lie one behind another.** -/
theorem pairwise_placed (h : Chained pos cs xs) : ∀ (z : Zone) (pre : List Char),
    pos = Position.start.after pre →
      (placed z pre.length xs).Pairwise fun p q => p.1 + p.2.value.length ≤ q.1 := by
  induction h with
  | nil pos => exact fun _ _ _ => List.Pairwise.nil
  | @cons x rest xs hne hx hxs ih =>
    intro z pre hpos
    have hafter : x.pos.after x.text = Position.start.after (pre ++ x.text) := by
      rw [hpos, Position.after_append]
    have htail := ih (z.next x xs) _ hafter
    have hlater := standsAt_placed hxs (z.next x xs) _ hafter
    rw [List.length_append] at htail hlater
    rw [placed]
    cases ht : tokenOf? z x xs with
    | none => exact htail
    | some t =>
      obtain ⟨-, htext, -⟩ := spells_of_tokenOf? hx ht
      refine List.pairwise_cons.2 ⟨fun q hq => ?_, htail⟩
      have hq := (hlater q hq).1
      rwa [← htext, String.length_toList] at hq

/-- **What lies outside the stretches of tokens** is blank, a line feed or in a comment. -/
theorem outside_placed (h : Chained pos cs xs) : ∀ (z : Zone) (pre : List Char) {i : Nat} {c : Char},
    pos = Position.start.after pre → pre.length ≤ i → (pre ++ cs)[i]? = some c →
    (∀ p ∈ placed z pre.length xs, ¬ (p.1 ≤ i ∧ i < p.1 + p.2.value.length)) →
    c = ' ' ∨ c = '\t' ∨ c = '\n' ∨ InComment (pre ++ cs) i := by
  induction h with
  | nil pos =>
    intro z pre i c _ hi hc _
    rw [List.append_nil, List.getElem?_eq_none hi] at hc
    cases hc
  | @cons x rest xs hne hx hxs ih =>
    intro z pre i c hpos hi hc hout
    rcases Nat.lt_or_ge i (pre.length + x.text.length) with hlt | hge
    · -- the character is one of the first lexeme, which yields no token then
      have hin : ∀ k, pre.length ≤ k → k < pre.length + x.text.length →
          (pre ++ (x.text ++ rest))[k]? = x.text[k - pre.length]? := by
        intro k hk hklt
        rw [List.getElem?_append_right hk, List.getElem?_append_left (by omega)]
      have hnone : tokenOf? z x xs = none := by
        refine Option.eq_none_iff_forall_not_mem.2 fun t ht => ?_
        obtain ⟨-, htext, -⟩ := spells_of_tokenOf? hx ht
        refine hout (pre.length, t) ?_ ⟨hi, ?_⟩
        · rw [placed, ht]
          exact List.mem_cons_self
        · rwa [← String.length_toList, htext]
      rw [hin i hi hlt] at hc
      rcases skipped_of_tokenOf? hx hnone with hblank | ⟨ds, hds, hnl⟩
      · rcases hblank c (List.mem_of_getElem? hc) with h | h | h
        · exact .inl h
        · exact .inr (.inl h)
        · exact .inr (.inr (.inl h))
      · refine .inr (.inr (.inr ⟨pre.length, hi, ?_, fun k hk hki hfeed => ?_⟩))
        · rw [hin pre.length (le_refl _) (by omega), Nat.sub_self, hds]
          rfl
        · rw [hin k hk (by omega), hds] at hfeed
          rcases List.mem_cons.1 (List.mem_of_getElem? hfeed) with h | h
          · cases h
          · exact hnl h
    · rw [← List.append_assoc] at hc ⊢
      refine ih (z.next x xs) _ (by rw [hpos, Position.after_append]) (by rw [List.length_append]; omega) hc
        fun p hp => ?_
      rw [List.length_append] at hp
      exact hout p (by rw [placed]; exact List.mem_append_right _ hp)

end Lexeme

open Lexeme

namespace Token

variable {source : String} {tokens : List Token}

/-- The tokens of a text are those of its lexemes, which are chained, and the end. -/
theorem ofText_eq_ok (h : ofText source = .ok tokens) : ∃ xs, Chained .start source.toList xs ∧
    tokens = layout .outside xs ++ [⟨.eof, "", .ofOffset source.toList source.toList.length⟩] := by
  unfold ofText at h
  cases hscan : scan source.toList with
  | error e =>
    rw [hscan] at h
    cases h
  | ok xs =>
    rw [hscan] at h
    cases h
    refine ⟨xs, chained_scanFrom hscan, ?_⟩
    rw [← Position.after_take, List.take_length]

/-- **The tokens of a text are disjoint stretches of it in order.** Each but the last one stands at its
place, with what is written there as its value, and is spelled as its kind asks for; the characters that
belong to none of them are blanks, line feeds and comments. The last token, and no other, marks the end and
stands behind the last character. So positions increase from token to token. -/
theorem ofText_stretches (h : ofText source = .ok tokens) : ∃ stretches : List (Nat × Token),
    tokens = stretches.map Prod.snd ++ [⟨.eof, "", .ofOffset source.toList source.toList.length⟩] ∧
    (∀ p ∈ stretches, p.2.kind ≠ .eof ∧ p.2.value.toList ≠ [] ∧ p.2.StandsAt source.toList p.1) ∧
    (stretches.Pairwise fun p q => p.1 + p.2.value.length ≤ q.1) ∧
    (∀ i c, source.toList[i]? = some c →
      (∀ p ∈ stretches, ¬ (p.1 ≤ i ∧ i < p.1 + p.2.value.length)) →
        c = ' ' ∨ c = '\t' ∨ c = '\n' ∨ InComment source.toList i) ∧
    tokens.Pairwise fun t u => t.pos.Before u.pos := by
  obtain ⟨xs, hchained, rfl⟩ := ofText_eq_ok h
  have hstands : ∀ p ∈ placed .outside 0 xs, p.2.StandsAt source.toList p.1 := fun p hp =>
    (standsAt_placed hchained .outside [] rfl p hp).2
  have horder : (placed .outside 0 xs).Pairwise fun p q => p.1 + p.2.value.length ≤ q.1 :=
    pairwise_placed hchained .outside [] rfl
  -- every stretch has a character, which lies in the text
  have hroom : ∀ p ∈ placed .outside 0 xs, 0 < p.2.value.length ∧
      p.1 + p.2.value.length ≤ source.toList.length := by
    intro p hp
    have hpos := List.length_pos_iff.2 (hstands p hp).spells.ne_nil
    have hle := (hstands p hp).text.length_le
    rw [String.length_toList] at hpos
    rw [List.length_drop, String.length_toList] at hle
    exact ⟨hpos, by omega⟩
  refine ⟨placed .outside 0 xs, ?_, fun p hp => ⟨(hstands p hp).spells.kind_ne_eof,
    (hstands p hp).spells.ne_nil, hstands p hp⟩, horder, fun i c hc hout => ?_, ?_⟩
  · rw [placed_tokens]
  · exact outside_placed hchained .outside [] rfl (Nat.zero_le i) hc hout
  · rw [← placed_tokens xs .outside 0, List.pairwise_append]
    refine ⟨?_, List.pairwise_singleton _ _, ?_⟩
    · refine List.pairwise_map.2 (horder.imp_of_mem fun {p q} hp hq hle => ?_)
      rw [(hstands p hp).pos, (hstands q hq).pos]
      have := hroom p hp
      have := hroom q hq
      exact Position.ofOffset_before (by omega) (by omega)
    · rintro t ht u hu
      obtain ⟨p, hp, rfl⟩ := List.mem_map.1 ht
      rw [List.mem_singleton.1 hu, (hstands p hp).pos]
      have := hroom p hp
      exact Position.ofOffset_before (by omega) (le_refl _)

/-- A text with comments, a number of base sixteen that has no digits, a number that starts with two zeros,
a name that starts with the reserved one, and blanks of both kinds. -/
def spaced : String := "; m 0x\nmodule modules(a:0X) -> out: ;\n\n\tout = a[00] ; out\n ; b\n"

def spacedTokens : List Token :=
  [⟨.moduleWord, "module", ⟨2, 1⟩⟩, ⟨.ident, "modules", ⟨2, 8⟩⟩, ⟨.lparen, "(", ⟨2, 15⟩⟩,
    ⟨.ident, "a", ⟨2, 16⟩⟩, ⟨.colon, ":", ⟨2, 17⟩⟩, ⟨.number, "0X", ⟨2, 18⟩⟩, ⟨.rparen, ")", ⟨2, 20⟩⟩,
    ⟨.arrow, "->", ⟨2, 22⟩⟩, ⟨.ident, "out", ⟨2, 25⟩⟩, ⟨.colon, ":", ⟨2, 28⟩⟩, ⟨.newline, "\n", ⟨2, 31⟩⟩,
    ⟨.indent, "\t", ⟨4, 1⟩⟩, ⟨.ident, "out", ⟨4, 2⟩⟩, ⟨.equals, "=", ⟨4, 6⟩⟩, ⟨.ident, "a", ⟨4, 8⟩⟩,
    ⟨.lbracket, "[", ⟨4, 9⟩⟩, ⟨.number, "00", ⟨4, 10⟩⟩, ⟨.rbracket, "]", ⟨4, 12⟩⟩,
    ⟨.newline, "\n", ⟨4, 19⟩⟩, ⟨.eof, "", ⟨6, 1⟩⟩]

theorem ofText_spaced : ofText spaced = .ok spacedTokens := by
  have hsome : (ofText spaced).toOption = some spacedTokens := by decide +kernel
  cases h : ofText spaced with
  | error e =>
    rw [h] at hsome
    cases hsome
  | ok tokens =>
    rw [h] at hsome
    cases hsome
    rfl

/-- Its tokens are stretches of it, so each but the last one stands where its position says. -/
theorem spaced_stretches : ofText spaced = .ok spacedTokens ∧ ∃ stretches : List (Nat × Token),
    spacedTokens = stretches.map Prod.snd ++ [⟨.eof, "", ⟨6, 1⟩⟩] ∧
    ∀ p ∈ stretches, p.2.StandsAt spaced.toList p.1 := by
  obtain ⟨stretches, htokens, hstands, -⟩ := ofText_stretches ofText_spaced
  exact ⟨ofText_spaced, stretches, htokens, fun p hp => (hstands p hp).2.2⟩

end Token

end NandHdl
