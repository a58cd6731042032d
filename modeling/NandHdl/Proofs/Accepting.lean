import NandHdl.Design.Parser
import NandHdl.Proofs.Grammar

/-!
# All designs of the grammar are read

* `Parser.Takes`: what a parser makes of the words in front of it, and what it
  leaves.
* `takes_expr`, `takes_statement`, `takes_module`: every phrase of the grammar is read, in front of
  whatever the grammar lets follow it.
* `parseFrom_of_isDesign`: **a design of the grammar is read as what it stands for.**
* `isDesign_unique`: the grammar is unambiguous.
-/

namespace NandHdl

open Grammar
open Numeral (IsLiteral)

/-- What a reader sees from here on. -/
def Cursor.words (c : Cursor) : List Word := (c.current :: c.later).map Token.word

namespace Parser

variable {α β : Type} {p : Parser α} {f : α → Parser β} {a : α} {b : β} {k : TokenKind} {s : String}
variable {w : Word} {ws us rest : List Word}

/-- Wherever the words `ws` come next, `p` returns `a` and leaves `rest`. -/
def Takes (p : Parser α) (ws : List Word) (a : α) (rest : List Word) : Prop :=
  ∀ c : Cursor, c.words = ws → ∃ c', p.run c = .ok (a, c') ∧ c'.words = rest

theorem Takes.pure : Takes (pure a) ws a ws := fun c hc => ⟨c, rfl, hc⟩

theorem Takes.bind (hp : Takes p ws a us) (hf : Takes (f a) us b rest) : Takes (p >>= f) ws b rest := by
  intro c hc
  obtain ⟨c', hrun, hc'⟩ := hp c hc
  obtain ⟨c'', hrun', hc''⟩ := hf c' hc'
  refine ⟨c'', ?_, hc''⟩
  rw [StateT.run_bind, hrun]
  exact hrun'

/-- The cursor itself is only known by its words. -/
theorem Takes.get_bind {f : Cursor → Parser β} (hf : ∀ c, c.words = ws → Takes (f c) ws b rest) :
    Takes (get >>= f) ws b rest := fun c hc => hf c hc c hc

/-- The current token is only known by its word. -/
theorem Takes.peek_bind {f : Token → Parser β} (hf : ∀ t, t.word = w → Takes (f t) (w :: ws) b rest) :
    Takes (peek >>= f) (w :: ws) b rest := by
  intro c hc
  rw [Cursor.words, List.map_cons, List.cons.injEq] at hc
  exact hf c.current hc.1 c (by rw [Cursor.words, List.map_cons, hc.1, hc.2])

/-- Passing a token that is not the last one. -/
theorem Takes.advance_bind {f : Token → Parser β}
    (hf : ∀ t, t.word = w → Takes (f t) us b rest) (hne : us ≠ []) :
    Takes (advance >>= f) (w :: us) b rest := by
  intro c hc
  obtain ⟨t, ts⟩ := c
  rw [Cursor.words, List.map_cons, List.cons.injEq] at hc
  cases ts with
  | nil => exact absurd hc.2.symm hne
  | cons t' ts => exact hf t hc.1 ⟨t', ts⟩ hc.2

theorem remaining_eq {c : Cursor} (h : c.words = ws) : c.remaining = ws.length := by
  rw [← h, Cursor.words, List.length_map]
  rfl

theorem followedBy_eq {c : Cursor} (h : c.words = w :: ws) (k : TokenKind) :
    c.followedBy k = ws.head?.any (·.1 = k) := by
  rw [Cursor.words, List.map_cons, List.cons.injEq] at h
  rw [Cursor.followedBy, ← h.2]
  cases c.later <;> rfl

theorem kind_eq {c : Cursor} (h : c.words = w :: ws) : c.kind = w.1 := by
  rw [Cursor.words, List.map_cons, List.cons.injEq] at h
  rw [← h.1]
  rfl

theorem run_expect {c : Cursor} (h : c.kind = k) : (expect k).run c = .ok (c.current, c.next) := by
  change (if c.kind = k then advance else expected k.name).run c = _
  rw [if_pos h]
  rfl

/-- Passing a token that has to stand there. -/
theorem Takes.expect_bind {f : Token → Parser β} (hf : ∀ t, t.word = (k, s) → Takes (f t) us b rest)
    (hne : us ≠ []) : Takes (expect k >>= f) ((k, s) :: us) b rest := by
  intro c hc
  have hkind := kind_eq hc
  obtain ⟨t, ts⟩ := c
  rw [Cursor.words, List.map_cons, List.cons.injEq] at hc
  rw [StateT.run_bind, run_expect hkind]
  cases ts with
  | nil => exact absurd hc.2.symm hne
  | cons t' ts => exact hf t hc.1 ⟨t', ts⟩ hc.2

theorem takes_eat (hne : us ≠ []) : Takes (eat k) ((k, s) :: us) true us := by
  refine Takes.peek_bind fun t ht => ?_
  have hkind : t.kind = k := congrArg Prod.fst ht
  rw [if_pos hkind]
  exact Takes.advance_bind (fun _ _ => Takes.pure) hne

theorem takes_eat_other (hk : w.1 ≠ k) : Takes (eat k) (w :: ws) false (w :: ws) := by
  refine Takes.peek_bind fun t ht => ?_
  have hkind : t.kind ≠ k := by
    rw [← ht] at hk
    exact hk
  rw [if_neg hkind]
  exact Takes.pure

theorem takes_name (hne : us ≠ []) : Takes name ((.ident, s) :: us) s us := by
  refine Takes.expect_bind (fun t ht => ?_) hne
  have hvalue : t.value = s := congrArg Prod.snd ht
  rw [hvalue]
  exact Takes.pure

/-! ## Numbers -/

theorem takes_number {text : String} {v : Nat} (h : IsLiteral text v) (hne : us ≠ []) :
    Takes number ((.number, text) :: us) v us := by
  refine Takes.expect_bind (fun t ht => ?_) hne
  have hvalue : t.value = text := congrArg Prod.snd ht
  simp only [hvalue, Numeral.literal?_eq_some.2 h]
  exact Takes.pure

theorem takes_index {text : String} {v : Nat} (h : IsLiteral text v) (hv : v ≤ widthLimit) (hne : us ≠ []) :
    Takes index ((.number, text) :: us) v us := by
  refine Takes.peek_bind fun t _ => Takes.bind (takes_number h hne) ?_
  rw [if_pos hv]
  exact Takes.pure

/-! ## Lists -/

section Lists

variable {P : List Word → α → Prop} {xs : List α} {n fuel : Nat}

/-- What follows an item of a list: a comma or the closing parenthesis. -/
def Separates (w : Word) : Prop := w.1 = .comma ∨ w.1 = .rparen

/-- **Items that are separated by commas** are read one after another, if each of them is read in front
of a comma and of a closing parenthesis. -/
theorem takes_commaList (h : CommaList P ws xs) (hlen : ws.length ≤ n)
    (hp : ∀ vs a, vs.length ≤ n → P vs a → ∀ w us, Separates w → us ≠ [] → Takes p (vs ++ w :: us) a (w :: us))
    (hfuel : ws.length ≤ fuel) (hne : us ≠ []) :
    Takes (commaList p fuel) (ws ++ (.rparen, s) :: us) xs ((.rparen, s) :: us) := by
  induction h generalizing fuel with
  | one ha =>
    have htake := hp _ _ hlen ha (.rparen, s) us (.inr rfl) hne
    cases fuel with
    | zero => exact htake.bind .pure
    | succ fuel => exact htake.bind (Takes.bind (takes_eat_other nofun) .pure)
  | more ha t _ ih =>
    rw [List.length_append, List.length_cons] at hlen hfuel
    -- one more item means one more round
    obtain ⟨fuel, rfl⟩ : ∃ f, fuel = f + 1 := ⟨fuel - 1, by omega⟩
    have htail := ih (by omega) (by omega : _ ≤ fuel)
    rw [List.append_assoc, List.cons_append]
    refine (hp _ _ (by omega) ha (.comma, t) _ (.inl rfl) (by simp)).bind ?_
    exact Takes.bind (takes_eat (by simp)) (htail.bind .pure)

/-- A list starts like its first item. -/
theorem commaList_head (hhead : ∀ vs a, P vs a → ∃ w us, vs = w :: us ∧ w.1 ≠ .rparen)
    (h : CommaList P ws xs) : ∃ w us, ws = w :: us ∧ w.1 ≠ .rparen := by
  cases h with
  | one ha => exact hhead _ _ ha
  | more ha s _ =>
    obtain ⟨w, us, rfl, hw⟩ := hhead _ _ ha
    exact ⟨w, _, List.cons_append, hw⟩

/-- **Items between parentheses.** No item may look like the closing parenthesis. -/
theorem takes_closedList (h : Enclosed P ws xs) (hlen : ws.length ≤ n)
    (hhead : ∀ vs a, P vs a → ∃ w us, vs = w :: us ∧ w.1 ≠ .rparen)
    (hp : ∀ vs a, vs.length ≤ n → P vs a → ∀ w us, Separates w → us ≠ [] → Takes p (vs ++ w :: us) a (w :: us))
    (hne : us ≠ []) :
    ∃ s vs, ws = (.lparen, s) :: vs ∧ Takes (closedList p) (vs ++ us) xs us := by
  have hclose : ∀ (t : String) (ys : List α),
      Takes (do let _ ← expect .rparen; return ys) ((.rparen, t) :: us) ys us :=
    fun _ _ => Takes.expect_bind (fun _ _ => Takes.pure) hne
  cases h with
  | none s t =>
    refine ⟨s, _, rfl, Takes.peek_bind fun u hu => ?_⟩
    have hkind : u.kind = .rparen := congrArg Prod.fst hu
    rw [if_pos hkind]
    exact hclose t []
  | @some vs _ s t hlist =>
    refine ⟨s, _, rfl, ?_⟩
    rw [List.length_cons, List.length_append] at hlen
    have htake : Takes (list p) (vs ++ (.rparen, t) :: us) xs ((.rparen, t) :: us) := by
      refine Takes.get_bind fun c hc => takes_commaList hlist (by omega) hp ?_ hne
      rw [remaining_eq hc, List.length_append]
      omega
    -- the first word tells a list from an empty one
    obtain ⟨w, rest, rfl, hw⟩ := commaList_head hhead hlist
    rw [List.append_assoc, List.singleton_append]
    refine Takes.peek_bind fun u hu => ?_
    rw [if_neg (by rw [← hu] at hw; exact hw)]
    exact Takes.bind htake (hclose t xs)

end Lists

/-! ## Ports and ranges -/

theorem isPort_head {p : Port} (h : IsPort ws p) : ∃ w us, ws = w :: us ∧ w.1 ≠ .rparen := by
  cases h with
  | bare name => exact ⟨_, _, rfl, nofun⟩
  | wide name s _ _ _ => exact ⟨_, _, rfl, nofun⟩

/-- A port is read where no width can follow it. -/
theorem takes_port {p : Port} (h : IsPort ws p) (hne : us ≠ [])
    (hnot : ∀ w vs, us = w :: vs → w.1 = .colon → vs.head?.any (·.1 = .number) = false) :
    Takes port (ws ++ us) p us := by
  cases h with
  | bare name =>
    refine Takes.bind (takes_name hne) (Takes.get_bind fun c hc => ?_)
    -- a colon that no number follows belongs to what comes next
    have hnone : (c.kind = .colon && c.followedBy .number) = false := by
      obtain ⟨w, vs, rfl⟩ := List.exists_cons_of_ne_nil hne
      rw [kind_eq hc, followedBy_eq hc]
      by_cases hk : w.1 = .colon
      · simp [hnot w vs rfl hk]
      · simp [hk]
    rw [hnone]
    exact Takes.pure
  | @wide text width name t hwidth hpos hle =>
    refine Takes.bind (takes_name (by simp)) (Takes.get_bind fun c hc => ?_)
    have hsome : (c.kind = .colon && c.followedBy .number) = true := by
      rw [kind_eq hc, followedBy_eq hc]
      rfl
    rw [hsome]
    refine Takes.advance_bind (fun _ _ => Takes.peek_bind fun t _ => ?_) (by simp)
    refine Takes.bind (takes_index hwidth hle hne) ?_
    rw [if_neg (by omega)]
    exact Takes.pure

/-- A range is read behind its opening bracket. -/
theorem takes_range {r : BitRange} (h : IsRange ws r) (hne : us ≠ []) :
    ∃ s vs, ws = (.lbracket, s) :: vs ∧ Takes range (vs ++ us) r us := by
  have hclose : ∀ (t : String) (r : BitRange),
      Takes (do let _ ← expect .rbracket; return r) ((.rbracket, t) :: us) r us :=
    fun _ r => Takes.expect_bind (fun _ _ => Takes.pure) hne
  cases h with
  | bit s t hi hle =>
    refine ⟨s, _, rfl, Takes.bind (takes_index hi hle (by simp)) (Takes.bind (takes_eat_other nofun) ?_)⟩
    exact Takes.bind .pure (hclose t _)
  | slice s t u ha hb hle hle' =>
    refine ⟨s, _, rfl, Takes.bind (takes_index ha hle (by simp)) (Takes.bind (takes_eat (by simp)) ?_)⟩
    exact Takes.bind (Takes.bind (takes_index hb hle' (by simp)) .pure) (hclose u _)

/-! ## Expressions -/

/-- What follows an expression: nothing that would continue it. -/
def Closes (w : Word) : Prop := w.1 ≠ .dot ∧ w.1 ≠ .lbracket ∧ w.1 ≠ .lparen

theorem Separates.closes (h : Separates w) : Closes w := by
  rcases h with h | h <;> rw [Closes, h] <;> decide

theorem takes_suffixes_end {e : Expr} (hw : Closes w) (n : Nat) :
    Takes (suffixes n e) (w :: ws) e (w :: ws) := by
  cases n with
  | zero => exact Takes.pure
  | succ n => exact Takes.bind (takes_eat_other hw.1) (Takes.bind (takes_eat_other hw.2.1) .pure)

/-- An expression starts with a name or a number. -/
theorem isExpr_head : ∀ {ws : List Word} {e : Expr}, IsExpr ws e → ∃ w us, ws = w :: us ∧ w.1 ≠ .rparen
  | _, _, .identifier _ => ⟨_, _, rfl, nofun⟩
  | _, _, .number _ => ⟨_, _, rfl, nofun⟩
  | _, _, .call _ _ => ⟨_, _, rfl, nofun⟩
  | _, _, .member h _ _ => by
    obtain ⟨w, us, rfl, hw⟩ := isExpr_head h
    exact ⟨w, _, List.cons_append, hw⟩
  | _, _, .select h _ => by
    obtain ⟨w, us, rfl, hw⟩ := isExpr_head h
    exact ⟨w, _, List.cons_append, hw⟩

theorem takes_primary_identifier {args : Parser (List Expr)} {n : String} (hw : w.1 ≠ .lparen) :
    Takes (primary args) ((.ident, n) :: w :: ws) (.identifier n) (w :: ws) := by
  refine Takes.get_bind fun c hc => ?_
  have hkind : c.kind = .ident := kind_eq hc
  have hnone : c.followedBy .lparen = false := by
    rw [followedBy_eq hc]
    simp [hw]
  rw [hkind, hnone]
  exact Takes.bind (takes_name (by simp)) .pure

theorem takes_primary_number {args : Parser (List Expr)} {text : String} {v : Nat} (h : IsLiteral text v)
    (hne : us ≠ []) : Takes (primary args) ((.number, text) :: us) (.number v) us := by
  refine Takes.get_bind fun c hc => ?_
  have hkind : c.kind = .number := kind_eq hc
  rw [hkind]
  exact Takes.bind (takes_number h hne) .pure

theorem takes_primary_call {args : Parser (List Expr)} {n : String} {as : List Expr}
    (hargs : Takes args us as rest) (hne : us ≠ []) :
    Takes (primary args) ((.ident, n) :: (.lparen, s) :: us) (.call n as) rest := by
  refine Takes.get_bind fun c hc => ?_
  have hkind : c.kind = .ident := kind_eq hc
  have hsome : c.followedBy .lparen = true := by
    rw [followedBy_eq hc]
    rfl
  rw [hkind, hsome]
  refine Takes.bind (takes_name (by simp)) (Takes.expect_bind (fun _ _ => ?_) hne)
  exact Takes.bind hargs .pure

/-- Suffixes are read with as much fuel as there are words. -/
theorem Takes.suffixes {p : Parser Expr} {e e' : Expr} (hp : Takes p us e ws)
    (hs : ∀ n, ws.length ≤ n → Takes (suffixes n e) ws e' rest) :
    Takes (do let e ← p; suffixes (← get).remaining e) us e' rest := by
  refine Takes.bind hp (Takes.get_bind fun c hc => hs _ ?_)
  exact Nat.le_of_eq (remaining_eq hc).symm

/-- **An expression is read up to where its last suffix ends.** Whatever the reading of suffixes then
makes of it and the rest is what the reading of the whole makes. -/
theorem takes_exprWithin (n : Nat) : ∀ {vs : List Word} {e e' : Expr} {fuel : Nat} {w : Word}
    {ws rest : List Word}, vs.length < n → IsExpr vs e → vs.length ≤ fuel → w.1 ≠ .lparen →
      (∀ k, (w :: ws).length ≤ k → Takes (suffixes k e) (w :: ws) e' rest) →
      Takes (exprWithin fuel) (vs ++ w :: ws) e' rest := by
  -- the induction is on the number of words, of which a part of an expression has fewer
  induction n with
  | zero => exact fun hn => absurd hn (Nat.not_lt_zero _)
  | succ n ih =>
    intro vs e e' fuel w ws rest hn h hfuel hw hs
    -- there is a word, so there is fuel
    obtain ⟨f, rfl⟩ : ∃ f, fuel = f + 1 := by
      obtain ⟨v, us, rfl, -⟩ := isExpr_head h
      exact Nat.exists_eq_add_one_of_ne_zero (Nat.ne_of_gt (Nat.lt_of_lt_of_le (Nat.succ_pos _) hfuel))
    cases h with
    | identifier name => exact Takes.suffixes (takes_primary_identifier hw) hs
    | number hv => exact Takes.suffixes (takes_primary_number hv (by simp)) hs
    | @call us args name hargs =>
      rw [List.length_cons] at hn hfuel
      -- each argument has fewer words than the call, so the fuel that is left is enough
      obtain ⟨s, vs, rfl, htake⟩ := takes_closedList (p := exprWithin f) hargs (Nat.le_refl _)
        (fun _ _ => isExpr_head) (fun as a has ha v us hv _ =>
          ih (by omega) ha (by omega) hv.closes.2.2 fun k _ => takes_suffixes_end hv.closes k)
        (List.cons_ne_nil w ws)
      exact Takes.suffixes (takes_primary_call htake (by simp)) hs
    | member hobject s field =>
      rw [List.length_append] at hn hfuel
      rw [List.append_assoc, List.cons_append, List.cons_append, List.nil_append]
      simp only [List.length_cons] at hn hfuel
      refine ih (by omega) hobject (by omega) (by simp) fun k hk => ?_
      obtain ⟨k, rfl⟩ := Nat.exists_eq_add_of_lt hk
      refine Takes.bind (takes_eat (by simp)) (Takes.bind (takes_name (by simp)) (hs _ ?_))
      simp only [List.length_cons]
      omega
    | select hobject hrange =>
      obtain ⟨s, us, rfl, htake⟩ := takes_range hrange (List.cons_ne_nil w ws)
      rw [List.length_append] at hn hfuel
      rw [List.append_assoc, List.cons_append]
      simp only [List.length_cons] at hn hfuel
      refine ih (by omega) hobject (by omega) (by simp) fun k hk => ?_
      obtain ⟨k, rfl⟩ := Nat.exists_eq_add_of_lt hk
      refine Takes.bind (takes_eat_other (by simp)) (Takes.bind (takes_eat (by simp)) ?_)
      refine Takes.bind htake (hs _ ?_)
      simp only [List.length_cons, List.length_append]
      omega

theorem takes_expr {e : Expr} (h : IsExpr us e) (hw : Closes w) :
    Takes expr (us ++ w :: ws) e (w :: ws) := by
  refine Takes.get_bind fun c hc => takes_exprWithin (us.length + 1) (Nat.lt_succ_self _) h ?_ hw.2.2
    fun n _ => takes_suffixes_end hw n
  rw [remaining_eq hc, List.length_append]
  omega

/-! ## Statements and modules -/

theorem takes_statement {t : Statement} (h : IsStatement us t) (hw : Closes w) :
    Takes statement (us ++ w :: ws) t (w :: ws) := by
  -- the right side is read the same way with and without a range
  have hright : ∀ {vs e} (name s : String) (range? : Option BitRange), IsExpr vs e →
      Takes (do let _ ← expect .equals; return (⟨⟨name, range?⟩, ← expr⟩ : Statement))
        ((.equals, s) :: (vs ++ w :: ws)) ⟨⟨name, range?⟩, e⟩ (w :: ws) :=
    fun _ _ _ he => Takes.expect_bind (fun _ _ => Takes.bind (takes_expr he hw) .pure) (by simp)
  cases h with
  | whole name s he =>
    refine Takes.bind (takes_name (by simp)) (Takes.bind (takes_eat_other (by simp)) ?_)
    exact Takes.bind .pure (hright name s none he)
  | @part rs vs range e name s hrange he =>
    obtain ⟨t, us, rfl, htake⟩ := takes_range hrange (List.cons_ne_nil (.equals, s) (vs ++ w :: ws))
    rw [List.cons_append, List.append_assoc, List.cons_append]
    refine Takes.bind (takes_name (by simp)) (Takes.bind (takes_eat (by simp)) ?_)
    exact Takes.bind (Takes.bind htake .pure) (hright name s (some range) he)

/-- A line ends with a line break or in front of the end of the text. -/
theorem endsLine_head (h : EndsLine us rest) : ∃ w vs, us ++ rest = w :: vs ∧ Closes w ∧ w.1 ≠ .number := by
  cases h with
  | newline s rest => exact ⟨_, _, rfl, ⟨nofun, nofun, nofun⟩, nofun⟩
  | eof s rest => exact ⟨_, _, rfl, ⟨nofun, nofun, nofun⟩, nofun⟩

theorem takes_endOfLine (h : EndsLine us rest) (hne : rest ≠ []) : Takes endOfLine (us ++ rest) () rest := by
  cases h with
  | newline s rest =>
    refine Takes.peek_bind fun t ht => ?_
    have hkind : t.kind = .newline := congrArg Prod.fst ht
    rw [hkind]
    exact Takes.advance_bind (fun _ _ => Takes.pure) hne
  | eof s rest =>
    refine Takes.peek_bind fun t ht => ?_
    have hkind : t.kind = .eof := congrArg Prod.fst ht
    rw [hkind]
    exact Takes.pure

theorem takes_statements {ss : List Statement} (h : IsBody us rest ss) (hne : rest = w :: ws)
    (hw : w.1 ≠ .indent) {fuel : Nat} (hfuel : us.length ≤ fuel) :
    Takes (statements fuel) (us ++ rest) ss rest := by
  induction h generalizing fuel with
  | nil rest =>
    subst hne
    cases fuel with
    | zero => exact Takes.pure
    | succ fuel => exact Takes.bind (takes_eat_other hw) .pure
  | @cons us es vs rest t ts s ht hend _ ih =>
    simp only [List.length_cons, List.length_append] at hfuel
    obtain ⟨fuel, rfl⟩ : ∃ f, fuel = f + 1 := ⟨fuel - 1, by omega⟩
    have htail := ih hne (by omega : _ ≤ fuel)
    have hrest : vs ++ rest ≠ [] := by simp [hne]
    obtain ⟨v, vs', hv, hclose, -⟩ := endsLine_head hend
    have hstatement : Takes statement (us ++ (es ++ (vs ++ rest))) t (es ++ (vs ++ rest)) := by
      rw [hv]
      exact takes_statement ht hclose
    rw [List.cons_append, List.append_assoc, List.append_assoc]
    refine Takes.bind (takes_eat ?_) (Takes.bind hstatement ?_)
    · rw [hv]
      simp
    · exact Takes.bind (takes_endOfLine hend hrest) (htail.bind .pure)

theorem takes_ports {ps : List Port} (h : Enclosed IsPort ws ps) (hne : us ≠ []) :
    ∃ s vs, ws = (.lparen, s) :: vs ∧ Takes (closedList port) (vs ++ us) ps us := by
  refine takes_closedList h (Nat.le_refl _) (fun _ _ => isPort_head) (fun vs p _ hp w us hw _ => ?_) hne
  refine takes_port hp (by simp) fun v vs' hv hk => ?_
  rw [List.cons.injEq] at hv
  rw [← hv.1] at hk
  rcases hw with hw | hw <;> rw [hw] at hk <;> cases hk

/-- The colon behind a bare output is followed by the end of the line, which is no width. -/
theorem takes_outputs {ps : List Port} (h : AreOutputs ws ps) (hw : w.1 ≠ .number) :
    Takes outputs (ws ++ (.colon, s) :: w :: us) ps ((.colon, s) :: w :: us) := by
  cases h with
  | @single p hp =>
    have hport : Takes port (ws ++ (.colon, s) :: w :: us) p ((.colon, s) :: w :: us) := by
      refine takes_port hp (by simp) fun v vs hv _ => ?_
      rw [List.cons.injEq] at hv
      rw [← hv.2]
      simpa using hw
    cases hp with
    | bare name => exact Takes.bind (takes_eat_other (by simp)) (Takes.bind hport .pure)
    | wide name t _ _ _ => exact Takes.bind (takes_eat_other (by simp)) (Takes.bind hport .pure)
  | enclosed hps =>
    obtain ⟨t, vs, rfl, htake⟩ := takes_ports hps (List.cons_ne_nil (.colon, s) (w :: us))
    exact Takes.bind (takes_eat (by simp)) htake

/-- **A module is read** in front of anything that does not go on with its body. -/
theorem takes_module {m : Module} (h : IsModule us rest m) (hne : rest = w :: ws) (hw : w.1 ≠ .indent) :
    Takes module (us ++ rest) m rest := by
  cases h with
  | @intro is os es vs _ inputs outputs ts s name t u hi ho hend hts =>
    have hrest : vs ++ rest ≠ [] := by simp [hne]
    -- the body has at least one word for each statement, so its words are fuel enough
    have hbody : Takes (do return (⟨name, inputs, outputs, ← statements (← get).remaining⟩ : Module))
        (vs ++ rest) ⟨name, inputs, outputs, ts⟩ rest := by
      refine Takes.get_bind fun c hc => Takes.bind (takes_statements hts hne hw ?_) .pure
      rw [remaining_eq hc, List.length_append]
      omega
    obtain ⟨v, vs', hv, -, hnumber⟩ := endsLine_head hend
    have houtputs : Takes Parser.outputs (os ++ (.colon, u) :: (es ++ (vs ++ rest))) outputs
        ((.colon, u) :: (es ++ (vs ++ rest))) := by
      rw [hv]
      exact takes_outputs ho hnumber
    obtain ⟨x, xs, rfl, hinputs⟩ := takes_ports hi
      (List.cons_ne_nil (.arrow, t) (os ++ (.colon, u) :: (es ++ (vs ++ rest))))
    have hwords : (.moduleWord, s) :: (.ident, name) :: ((.lparen, x) :: xs ++ (.arrow, t) ::
          (os ++ (.colon, u) :: (es ++ vs))) ++ rest =
        (.moduleWord, s) :: (.ident, name) :: (.lparen, x) :: (xs ++ (.arrow, t) ::
          (os ++ (.colon, u) :: (es ++ (vs ++ rest)))) := by simp
    rw [hwords]
    refine Takes.expect_bind (fun _ _ => Takes.bind (takes_name (by simp)) ?_) (by simp)
    refine Takes.expect_bind (fun _ _ => Takes.bind hinputs ?_) (by simp)
    refine Takes.expect_bind (fun _ _ => Takes.bind houtputs ?_) (by simp)
    refine Takes.expect_bind (fun _ _ => ?_) (by rw [hv]; simp)
    exact Takes.bind (takes_endOfLine hend hrest) hbody

end Parser

/-! ## Designs -/

/-- A design starts with a module or the end of the text. -/
theorem isDesign_head {ws : List Word} {ms : List Module} (h : IsDesign ws ms) :
    ∃ w us, ws = w :: us ∧ w.1 ≠ .indent := by
  cases h with
  | nil s => exact ⟨_, _, rfl, nofun⟩
  | cons hm _ =>
    cases hm with
    | intro _ _ _ _ _ _ _ _ => exact ⟨_, _, rfl, nofun⟩

/-- A design has more words than modules. -/
theorem length_lt_of_isDesign {ws : List Word} {ms : List Module} (h : IsDesign ws ms) :
    ms.length < ws.length := by
  induction h with
  | nil s => exact Nat.zero_lt_one
  | cons hm _ ih =>
    cases hm with
    | intro _ _ _ _ _ _ _ _ =>
      simp only [List.length_cons, List.length_append] at ih ⊢
      omega

/-- **A design of the grammar is read as what it stands for.** -/
theorem parseFrom_of_isDesign {ws : List Word} {ms : List Module} (h : IsDesign ws ms) :
    ∀ {c : Cursor} {fuel : Nat}, c.words = ws → ms.length < fuel → parseFrom fuel c = ⟨ms, none⟩ := by
  induction h with
  | nil s =>
    intro c fuel hc hfuel
    obtain ⟨fuel, rfl⟩ := Nat.exists_eq_add_of_lt hfuel
    rw [parseFrom, if_pos (Parser.kind_eq hc)]
  | @cons us rest m ms hm hms ih =>
    intro c fuel hc hfuel
    obtain ⟨fuel, rfl⟩ := Nat.exists_eq_add_of_lt hfuel
    have hkind : c.kind ≠ .eof := by
      cases hm with
      | intro _ _ _ _ _ _ _ _ =>
        rw [Parser.kind_eq hc]
        nofun
    -- what follows a module is the next one or the end, and neither is indented
    obtain ⟨w, vs, hrest, hw⟩ := isDesign_head hms
    obtain ⟨c', hrun, hc'⟩ := Parser.takes_module hm hrest hw c hc
    have hlen : ms.length < (m :: ms).length + fuel := by
      rw [List.length_cons]
      omega
    have htail := ih hc' hlen
    rw [parseFrom, if_neg hkind, hrun]
    simp only [htail]

/-- **The grammar is unambiguous**, since each of its readings is what the reader makes of the words. -/
theorem isDesign_unique {ws : List Word} {ms ms' : List Module} (h : IsDesign ws ms) (h' : IsDesign ws ms') :
    ms = ms' := by
  obtain ⟨c, hc⟩ : ∃ c : Cursor, c.words = ws := by
    obtain ⟨w, us, rfl, -⟩ := isDesign_head h
    refine ⟨⟨⟨w.1, w.2, .start⟩, us.map fun v => ⟨v.1, v.2, .start⟩⟩, ?_⟩
    rw [Cursor.words, List.map_cons, List.map_map, List.cons.injEq]
    exact ⟨rfl, List.map_id _⟩
  have hread := parseFrom_of_isDesign h hc (length_lt_of_isDesign h)
  rw [parseFrom_of_isDesign h' hc (length_lt_of_isDesign h')] at hread
  exact (congrArg Parsed.modules hread).symm

end NandHdl
