import NandHdl.Proofs.Stretches

/-!
# Which texts can be read

Whether a text can be cut into lexemes is seen from its characters alone. Most of them may stand anywhere,
the two of an arrow only next to each other, and all others only in comments.

* `Plain`, `InArrow`: the characters that may stand outside comments.
* `Illegal`: a character that may not stand where it stands.
* `Lexeme.Cut.illegal_append`: what follows a lexeme is as legal as it is by itself.
* `Lexeme.scanFrom_cases`: the end of a text is cut up, or rejected for its first illegal character.
* `Token.ofText_error_iff`: **a text is rejected for its first illegal character**, if it has one, and for
  nothing else.
-/

namespace NandHdl

/-- A character that may stand anywhere. -/
def Plain (c : Char) : Prop :=
  c.isAlpha ∨ c.isDigit ∨ c ∈ [' ', '\t', '\n', '_', ':', '=', ',', '(', ')', '[', ']', '.', ';']

instance : DecidablePred Plain := fun _ => inferInstanceAs (Decidable (_ ∨ _ ∨ _))

/-- The character with the number `i` is one of an arrow. -/
def InArrow (cs : List Char) (i : Nat) : Prop :=
  (cs[i]? = some '-' ∧ cs[i + 1]? = some '>') ∨ ∃ j, i = j + 1 ∧ cs[j]? = some '-' ∧ cs[i]? = some '>'

/-- The character with the number `i` is `c`, and may not stand there: it is in no comment and in no arrow, and
it is not one of those that may stand anywhere. -/
structure Illegal (cs : List Char) (i : Nat) (c : Char) : Prop where
  here : cs[i]? = some c
  comment : ¬ InComment cs i
  plain : ¬ Plain c
  arrow : ¬ InArrow cs i

namespace Lexeme

/-! ## Plain characters -/

theorem plain_of_isBlank {c : Char} (h : isBlank c = true) : Plain c ∧ c ≠ ';' := by
  rw [isBlank, Bool.or_eq_true, decide_eq_true_eq, decide_eq_true_eq] at h
  rcases h with rfl | rfl <;> decide

theorem plain_of_continuesName {c : Char} (h : continuesName c = true) : Plain c ∧ c ≠ ';' := by
  refine ⟨?_, (ne_of_continuesName h).2.2⟩
  rw [continuesName, Char.isAlphanum, Bool.or_eq_true, Bool.or_eq_true, decide_eq_true_eq] at h
  rcases h with (h | h) | rfl
  · exact .inl h
  · exact .inr (.inl h)
  · decide

theorem continuesName_of_isHexDigit {c : Char} (h : isHexDigit c = true) : continuesName c = true := by
  have hle : ∀ a b : Char, a ≤ b ↔ a.toNat ≤ b.toNat := fun _ _ => UInt32.le_iff_toNat_le
  simp only [isHexDigit, Bool.or_eq_true, Bool.and_eq_true, decide_eq_true_eq, hle, Char.reduceToNat] at h
  have hv : c.val.toNat = c.toNat := rfl
  simp only [continuesName, Char.isAlphanum, Char.isAlpha, Char.isUpper, Char.isLower,
    UInt32.le_iff_toNat_le, ge_iff_le, Bool.or_eq_true, Bool.and_eq_true, decide_eq_true_eq, hv,
    show 'A'.val.toNat = 65 from rfl, show 'Z'.val.toNat = 90 from rfl, show 'a'.val.toNat = 97 from rfl,
    show 'z'.val.toNat = 122 from rfl]
  -- both ranges of letters lie in their alphabets
  rcases h with (h | h) | h
  · exact .inl (.inr h)
  · exact .inl (.inl (.inr (by omega)))
  · exact .inl (.inl (.inl (by omega)))

theorem plain_of_punctuation? {c : Char} {k : TokenKind} (h : punctuation? c = some k) :
    Plain c ∧ c ≠ ';' := by
  unfold punctuation? at h
  split at h <;> first | decide | cases h

/-- What a token is made of: characters of names, or blanks, or it is a mark, an arrow or a line feed. -/
theorem spells_cases {k : TokenKind} {cs rest : List Char} (h : Token.Spells k cs rest) :
    (∀ c ∈ cs, continuesName c = true) ∨ (∀ c ∈ cs, isBlank c = true) ∨
      (∃ c m, cs = [c] ∧ punctuation? c = some m) ∨ cs = "->".toList ∨ k = .newline ∧ cs = ['\n'] := by
  cases h with
  | ident hc hcs => exact .inl (List.forall_mem_cons.2 ⟨continuesName_of_startsName hc, hcs.all⟩)
  | moduleWord => exact .inl (List.all_eq_true.1 rfl)
  | decimal hc hcs =>
    exact .inl (List.forall_mem_cons.2 ⟨continuesName_of_isDigit hc, fun c hc =>
      continuesName_of_isDigit (hcs.all c hc)⟩)
  | hexadecimal hx hcs =>
    refine .inl (List.forall_mem_cons.2 ⟨by decide, List.forall_mem_cons.2 ⟨?_, fun c hc =>
      continuesName_of_isHexDigit (hcs.all c hc)⟩⟩)
    rcases hx with rfl | rfl <;> decide
  | arrow => exact .inr (.inr (.inr (.inl rfl)))
  | mark h => exact .inr (.inr (.inl ⟨_, _, rfl, h⟩))
  | newline => exact .inr (.inr (.inr (.inr ⟨rfl, rfl⟩)))
  | indent hne hcs => exact .inr (.inl hcs.all)

/-- What is no comment is an arrow or made of plain characters, of which none starts a comment. -/
theorem Shape.Fits.plain {shape : Shape} {cs rest : List Char} (h : shape.Fits cs rest)
    (hshape : shape ≠ .comment) : (∀ c ∈ cs, Plain c ∧ c ≠ ';') ∨ cs = "->".toList := by
  have hfeed : ∀ c ∈ ['\n'], Plain c ∧ c ≠ ';' := List.forall_mem_singleton.2 (by decide)
  cases shape with
  | blank => exact .inl fun c hc => plain_of_isBlank (h.2.all c hc)
  | lineFeed => exact .inl (by rwa [show cs = ['\n'] from h])
  | comment => exact absurd rfl hshape
  | word k =>
    rcases spells_cases h with hcs | hcs | ⟨c, m, rfl, hc⟩ | hcs | ⟨-, rfl⟩
    · exact .inl fun c hc => plain_of_continuesName (hcs c hc)
    · exact .inl fun c hc => plain_of_isBlank (hcs c hc)
    · exact .inl (List.forall_mem_singleton.2 (plain_of_punctuation? hc))
    · exact .inr hcs
    · exact .inl hfeed

/-! ## Cuts and what follows them -/

/-- A comment is cut off where its line ends. -/
theorem cut?_comment {c : Char} {cs : List Char} {x : Cut} (h : cut? c cs = some x)
    (hshape : x.shape = .comment) : c = ';' ∧ x = .run (fun _ => .comment) [c] (· ≠ '\n') cs := by
  unfold cut? at h
  split at h
  · cases h; cases hshape
  split at h
  · cases h; cases hshape
  split at h
  · next hc => cases h; exact ⟨hc, rfl⟩
  split at h
  · cases h; cases hshape
  split at h
  · next hc => cases h; rw [(spells_number cs hc).1] at hshape; cases hshape
  split at h
  · split at h <;> cases h; cases hshape
  · obtain ⟨k, -, rfl⟩ := Option.map_eq_some_iff.1 h
    cases hshape

section

variable {t rest : List Char} {i : Nat}

/-- What stands behind a stretch without semicolons, or behind one that ends its line, is in a comment only if
one starts there. -/
theorem inComment_append (h : ';' ∉ t ∨ ∀ c ∈ rest.head?, c = '\n') (hi : i < rest.length) :
    InComment (t ++ rest) (t.length + i) ↔ InComment rest i := by
  have hright : ∀ k, (t ++ rest)[t.length + k]? = rest[k]? := fun k => by
    rw [List.getElem?_append_right (Nat.le_add_right _ _), Nat.add_sub_cancel_left]
  constructor
  · rintro ⟨j, hj, hsemi, hline⟩
    rcases Nat.lt_or_ge j t.length with hlt | hge
    · rw [List.getElem?_append_left hlt] at hsemi
      rcases h with h | h
      · exact absurd (List.mem_of_getElem? hsemi) h
      · -- the line of the semicolon ends in front of the rest
        obtain ⟨c, cs, rfl⟩ := List.exists_cons_of_length_pos (Nat.zero_lt_of_lt hi)
        refine absurd ?_ (hline t.length hlt.le (Nat.le_add_right _ _))
        rw [← Nat.add_zero t.length, hright]
        exact congrArg some (h c rfl)
    · obtain ⟨k, rfl⟩ := Nat.exists_eq_add_of_le hge
      refine ⟨k, by omega, by rwa [← hright], fun m hkm hmi => ?_⟩
      rw [← hright]
      exact hline _ (by omega) (by omega)
  · rintro ⟨j, hj, hsemi, hline⟩
    refine ⟨t.length + j, by omega, by rwa [hright], fun m hjm hmi => ?_⟩
    obtain ⟨k, rfl⟩ := Nat.exists_eq_add_of_le (Nat.le_of_add_right_le hjm)
    rw [hright]
    exact hline k (by omega) (by omega)

/-- No arrow starts in a stretch that does not end in a minus sign and goes on behind it. -/
theorem inArrow_append (h : t.getLast? = some '-' → rest.head? ≠ some '>') :
    InArrow (t ++ rest) (t.length + i) ↔ InArrow rest i := by
  have hright : ∀ k, (t ++ rest)[t.length + k]? = rest[k]? := fun k => by
    rw [List.getElem?_append_right (Nat.le_add_right _ _), Nat.add_sub_cancel_left]
  unfold InArrow
  rw [hright, Nat.add_assoc, hright]
  refine or_congr_right ⟨?_, ?_⟩
  · rintro ⟨j, hj, hminus, hgt⟩
    rcases Nat.lt_or_ge j t.length with hlt | hge
    · -- the last character of the stretch and the first one behind it
      obtain ⟨rfl, hlast⟩ : i = 0 ∧ j = t.length - 1 := by omega
      rw [List.getElem?_append_left hlt, hlast, ← List.getLast?_eq_getElem?] at hminus
      exact absurd (List.head?_eq_getElem? ▸ hgt) (h hminus)
    · obtain ⟨k, rfl⟩ := Nat.exists_eq_add_of_le hge
      exact ⟨k, by omega, by rwa [← hright], hgt⟩
  · rintro ⟨j, rfl, hminus, hgt⟩
    exact ⟨t.length + j, rfl, by rwa [hright], hgt⟩

end

variable {c : Char} {cs : List Char} {x : Cut}

/-- The three ways a cut looks like, as far as legality goes: plain characters, an arrow, or a comment, behind
which the text goes on with the next line. -/
theorem Cut.legality (h : cut? c cs = some x) : (∀ d ∈ x.text, Plain d ∧ d ≠ ';') ∨ x.text = "->".toList ∨
    (∃ ds, x.text = ';' :: ds ∧ '\n' ∉ ds) ∧ ∀ d ∈ x.rest.head?, d = '\n' := by
  have hfits := fits_cut h
  by_cases hshape : x.shape = .comment
  · obtain ⟨-, hx⟩ := cut?_comment h hshape
    rw [hshape] at hfits
    refine .inr (.inr ⟨hfits, fun d hd => ?_⟩)
    rw [hx] at hd
    have hstop := (longestRun_run (· ≠ '\n') cs).stops d hd
    simpa using hstop
  · rcases hfits.plain hshape with hplain | harrow
    · exact .inl hplain
    · exact .inr (.inl harrow)

/-- **A lexeme holds no illegal character.** -/
theorem Cut.legal (h : cut? c cs = some x) {i : Nat} {d : Char} (hi : i < x.text.length) :
    ¬ Illegal (x.text ++ x.rest) i d := by
  rintro ⟨hd, hcomment, hplain, harrow⟩
  rw [List.getElem?_append_left hi] at hd
  rcases Cut.legality h with htext | htext | ⟨⟨ds, htext, hline⟩, -⟩
  · exact hplain (htext d (List.mem_of_getElem? hd)).1
  · rw [htext] at hi harrow
    match i, hi with
    | 0, _ => exact harrow (.inl ⟨rfl, rfl⟩)
    | 1, _ => exact harrow (.inr ⟨0, rfl, rfl, rfl⟩)
  · refine hcomment ⟨0, Nat.zero_le i, by rw [htext]; rfl, fun k _ hk hfeed => ?_⟩
    rw [List.getElem?_append_left (by omega), htext] at hfeed
    rcases List.mem_cons.1 (List.mem_of_getElem? hfeed) with hk | hk
    · cases hk
    · exact hline hk

/-- **What follows a lexeme is as legal as it is by itself.** -/
theorem Cut.illegal_append (h : cut? c cs = some x) {i : Nat} {d : Char} :
    Illegal (x.text ++ x.rest) (x.text.length + i) d ↔ Illegal x.rest i d := by
  have hends : ';' ∉ x.text ∨ ∀ d ∈ x.rest.head?, d = '\n' := by
    rcases Cut.legality h with htext | htext | ⟨-, hrest⟩
    · exact .inl fun hmem => (htext ';' hmem).2 rfl
    · exact .inl (by rw [htext]; decide)
    · exact .inr hrest
  have hminus : x.text.getLast? = some '-' → x.rest.head? ≠ some '>' := by
    intro hlast hgt
    rcases Cut.legality h with htext | htext | ⟨-, hrest⟩
    · exact absurd (htext '-' (List.mem_of_getLast? hlast)).1 (by decide)
    · rw [htext] at hlast
      exact absurd hlast (by decide)
    · exact absurd (hrest '>' hgt) (by decide)
  have hhere : (x.text ++ x.rest)[x.text.length + i]? = x.rest[i]? := by
    rw [List.getElem?_append_right (Nat.le_add_right _ _), Nat.add_sub_cancel_left]
  constructor
  · rintro ⟨hd, hcomment, hplain, harrow⟩
    rw [hhere] at hd
    have hi := (List.getElem?_eq_some_iff.1 hd).1
    exact ⟨hd, (inComment_append hends hi).not.1 hcomment, hplain, (inArrow_append hminus).not.1 harrow⟩
  · rintro ⟨hd, hcomment, hplain, harrow⟩
    have hi := (List.getElem?_eq_some_iff.1 hd).1
    exact ⟨hhere.trans hd, (inComment_append hends hi).not.2 hcomment, hplain,
      (inArrow_append hminus).not.2 harrow⟩

/-- A text that starts with no lexeme starts with an illegal character. -/
theorem illegal_of_cut?_eq_none (h : cut? c cs = none) : Illegal (c :: cs) 0 c := by
  unfold cut? at h
  split at h
  · cases h
  next hblank =>
  split at h
  · cases h
  next hfeed =>
  split at h
  · cases h
  next hsemi =>
  split at h
  · cases h
  next hname =>
  split at h
  · cases h
  next hdigit =>
  refine ⟨rfl, ?_, ?_, ?_⟩
  · rintro ⟨j, hj, hc, -⟩
    rw [Nat.le_zero.1 hj] at hc
    exact hsemi (Option.some.inj hc)
  · rintro (hc | hc | hc)
    · exact hname (by rw [startsName, hc, Bool.true_or])
    · exact hdigit hc
    · simp only [List.mem_cons, List.not_mem_nil, or_false] at hc
      rcases hc with rfl | rfl | rfl | rfl | rfl | rfl | rfl | rfl | rfl | rfl | rfl | rfl | rfl
      all_goals contradiction
  · rintro (⟨hc, hgt⟩ | ⟨j, hj, -⟩)
    · obtain rfl := Option.some.inj hc
      cases cs with
      | nil => cases hgt
      | cons d ds =>
        obtain rfl := Option.some.inj hgt
        cases h
    · cases hj

/-! ## Scanning -/

/-- **The end of a text is cut up, or rejected for its first illegal character.** -/
theorem scanFrom_cases (cs : List Char) : ∀ pos : Position,
    ((∃ xs, scanFrom pos cs = .ok xs) ∧ ∀ i d, ¬ Illegal cs i d) ∨
    ∃ i d, Illegal cs i d ∧ (∀ j < i, ∀ b, ¬ Illegal cs j b) ∧
      scanFrom pos cs = .error ⟨d, pos.after (cs.take i)⟩ := by
  induction hn : cs.length using Nat.strongRecOn generalizing cs with
  | _ n ih =>
    intro pos
    cases cs with
    | nil =>
      refine .inl ⟨⟨[], by rw [scanFrom]⟩, fun i d h => ?_⟩
      have hhere := h.here
      rw [List.getElem?_nil] at hhere
      cases hhere
    | cons c cs =>
      rw [scanFrom]
      split
      · next hcut =>
        exact .inr ⟨0, c, illegal_of_cut?_eq_none hcut, fun j hj => absurd hj (Nat.not_lt_zero j), rfl⟩
      · next x hx =>
        -- the lexeme is legal, so the first illegal character is that of the rest
        have hlegal : ∀ i d, Illegal (c :: cs) i d →
            ∃ k, i = x.text.length + k ∧ Illegal x.rest k d := by
          intro i d hi
          rw [← cut?_eq_append hx] at hi
          rcases Nat.lt_or_ge i x.text.length with hlt | hge
          · exact absurd hi (Cut.legal hx hlt)
          · obtain ⟨k, rfl⟩ := Nat.exists_eq_add_of_le hge
            exact ⟨k, rfl, (Cut.illegal_append hx).1 hi⟩
        rcases ih x.rest.length (hn ▸ cut?_rest_lt hx) x.rest rfl (pos.after x.text) with
          ⟨⟨xs, hxs⟩, hnone⟩ | ⟨k, d, hk, hfirst, herror⟩
        · rw [hxs]
          refine .inl ⟨⟨_, rfl⟩, fun i d hi => ?_⟩
          obtain ⟨k, -, hk⟩ := hlegal i d hi
          exact hnone k d hk
        · rw [herror]
          refine .inr ⟨x.text.length + k, d, ?_, fun j hj b hb => ?_, ?_⟩
          · rw [← cut?_eq_append hx]
            exact (Cut.illegal_append hx).2 hk
          · obtain ⟨m, rfl, hm⟩ := hlegal j b hb
            exact hfirst m (by omega) b hm
          · rw [← cut?_eq_append hx, List.take_length_add_append, Position.after_append]
            rfl

end Lexeme

/-! ## Whole texts -/

/-- **A text is rejected for its first illegal character, and for nothing else.** Every text with an illegal
character is rejected, with the first of them and its line and column. Whether a character is illegal has
nothing to do with headers, bodies, lines, parentheses or the tokens before it. -/
theorem Token.ofText_error_iff (source : String) :
    ((∃ e, ofText source = .error e) ↔ ∃ i c, Illegal source.toList i c) ∧
    ∀ e, ofText source = .error e ↔ ∃ i, Illegal source.toList i e.char ∧
      (∀ j < i, ∀ c, ¬ Illegal source.toList j c) ∧ e.pos = .ofOffset source.toList i := by
  rcases Lexeme.scanFrom_cases source.toList .start with
    ⟨⟨xs, hxs⟩, hnone⟩ | ⟨i, c, hi, hfirst, herror⟩
  · have hok : ∀ e, ofText source ≠ .error e := by
      intro e
      rw [ofText, Lexeme.scan, hxs]
      exact nofun
    refine ⟨⟨fun ⟨e, he⟩ => absurd he (hok e), fun ⟨i, c, hi⟩ => absurd hi (hnone i c)⟩, fun e => ?_⟩
    exact ⟨fun he => absurd he (hok e), fun ⟨i, hi, _⟩ => absurd hi (hnone i _)⟩
  · rw [Position.after_take] at herror
    have hfail : ofText source = .error ⟨c, .ofOffset source.toList i⟩ := by
      rw [ofText, Lexeme.scan, herror]
      rfl
    refine ⟨⟨fun _ => ⟨i, c, hi⟩, fun _ => ⟨_, hfail⟩⟩, fun e => ?_⟩
    rw [hfail]
    constructor
    · rintro ⟨⟩
      exact ⟨i, hi, hfirst, rfl⟩
    · rintro ⟨j, hj, hfirst', hpos⟩
      obtain rfl : i = j := Nat.le_antisymm (Nat.le_of_not_lt fun h => hfirst j h _ hj)
        (Nat.le_of_not_lt fun h => hfirst' i h _ hi)
      obtain ⟨d, p⟩ := e
      have hd : some c = some d := hi.here.symm.trans hj.here
      rw [Option.some.inj hd, show p = _ from hpos]

/-- A comment may hold what it likes. Outside of it a minus sign needs its arrow head at once. -/
example : (match Token.ofText "; é -\nm - >" with | .ok _ => none | .error e => some e) =
    some ⟨'-', ⟨2, 3⟩⟩ := by decide +kernel

end NandHdl
