import NandHdl.Proofs.Accepting

/-!
# Only designs of the grammar are read

A reader is compared with itself on the tokens up to the first end of the text, where
it may have other fuel, as long as there is no less of it than tokens on either side.

* `uptoEof`, `Cursor.cut`: a stream without what lies behind the first end of the
  text.
* `Parser.Needs`: readers that go on from few kinds of tokens only, so that no token
  at the end of a stream is passed twice.
* `Parser.Reads`: readers that make the same of both streams, and whose reading
  belongs to the grammar.
* `reads_expr`, `reads_statement`, `reads_module`: every phrase of the grammar.
* `parse_iff_isDesign`: **a stream is read exactly if it is a design of the grammar.**
-/

namespace NandHdl

open Grammar
open Numeral (IsLiteral)

/-! ## The end of the text -/

/-- The tokens up to the first end of the text, which is the last of them. -/
def uptoEof : List Token → List Token
  | [] => []
  | t :: ts => t :: if t.kind = .eof then [] else uptoEof ts

theorem length_uptoEof_le (ts : List Token) : (uptoEof ts).length ≤ ts.length := by
  induction ts with
  | nil => exact Nat.le_refl _
  | cons t ts ih =>
    rw [uptoEof, List.length_cons, List.length_cons]
    split
    · exact Nat.succ_le_succ (Nat.zero_le _)
    · exact Nat.succ_le_succ ih

namespace Cursor

variable {c : Cursor}

/-- The same place in the tokens up to the first end of the text. -/
def cut (c : Cursor) : Cursor := ⟨c.current, if c.kind = .eof then [] else uptoEof c.later⟩

/-- The text ends somewhere from here on. -/
def Ends (c : Cursor) : Prop := ∃ t ∈ c.current :: c.later, t.kind = .eof

theorem uptoEof_cons (t : Token) (ts : List Token) : uptoEof (t :: ts) = t :: (cut ⟨t, ts⟩).later := rfl

/-- Nothing is left behind the end of the text. -/
theorem words_cut_of_eof (h : c.kind = .eof) : c.cut.words = [(.eof, c.current.value)] := by
  rw [words, cut, if_pos h, ← h]
  rfl

theorem remaining_cut_le (c : Cursor) : c.cut.remaining ≤ c.remaining := by
  unfold remaining cut
  split
  · exact Nat.succ_le_succ (Nat.zero_le _)
  · exact Nat.succ_le_succ (length_uptoEof_le _)

/-- In front of the end of the text, passing a token and cutting commute. -/
theorem cut_next (h : c.kind ≠ .eof) : c.cut.next = c.next.cut := by
  obtain ⟨t, ts⟩ := c
  rw [cut, if_neg h]
  cases ts with
  | nil =>
    change (⟨t, []⟩ : Cursor) = cut ⟨t, []⟩
    rw [cut, if_neg h]
    rfl
  | cons u us =>
    rw [uptoEof_cons]
    rfl

theorem followedBy_cut (h : c.kind ≠ .eof) (k : TokenKind) : c.cut.followedBy k = c.followedBy k := by
  obtain ⟨t, ts⟩ := c
  rw [followedBy, followedBy, cut, if_neg h]
  cases ts <;> rfl

theorem ends_next (h : c.kind ≠ .eof) : c.next.Ends ↔ c.Ends := by
  obtain ⟨t, ts⟩ := c
  cases ts with
  | nil => exact Iff.rfl
  | cons u us =>
    constructor
    · rintro ⟨v, hv, he⟩
      exact ⟨v, List.mem_cons_of_mem t hv, he⟩
    · rintro ⟨v, hv, he⟩
      rcases List.mem_cons.1 hv with rfl | hv
      · exact absurd he h
      · exact ⟨v, hv, he⟩

/-- **Passing a token** leaves the others, unless it is the last one of a text without an end. -/
theorem next_cases (h : c.kind ≠ .eof) : c.next = c ∧ ¬ c.Ends ∨
    c.cut.words = c.current.word :: c.next.cut.words ∧ c.cut.remaining = c.next.cut.remaining + 1 := by
  obtain ⟨t, ts⟩ := c
  cases ts with
  | nil =>
    refine .inl ⟨rfl, ?_⟩
    rintro ⟨v, hv, he⟩
    rw [List.mem_singleton.1 hv] at he
    exact h he
  | cons u us =>
    have hcut : cut ⟨t, u :: us⟩ = ⟨t, u :: (cut ⟨u, us⟩).later⟩ := by
      rw [cut, if_neg h, uptoEof_cons]
    rw [hcut]
    exact .inr ⟨rfl, rfl⟩

end Cursor

namespace Parser

variable {α β : Type} {p q : Parser α} {f g : α → Parser β} {a : α} {k : TokenKind} {c : Cursor}
variable {what : String} {ks : List TokenKind} {δ n : Nat}
variable {P : List Word → List Word → α → Prop} {R : List Word → List Word → β → Prop}

/-! ## Readers that need certain tokens -/

/-- In front of a token that is none of the kinds `ks`, the reader fails for want of `what`. -/
def Needs (what : String) (ks : List TokenKind) (p : Parser α) : Prop :=
  ∀ c : Cursor, c.kind ∉ ks → p.run c = .error ⟨.expected what c.current, c.current.pos⟩

theorem Needs.bind (hp : Needs what ks p) : Needs what ks (p >>= f) := fun c hc => by
  rw [StateT.run_bind, hp c hc]
  rfl

theorem Needs.peek_bind {f : Token → Parser β} (hf : ∀ t, Needs what ks (f t)) :
    Needs what ks (peek >>= f) := fun c hc => hf c.current c hc

theorem run_peek (c : Cursor) : peek.run c = pure (c.current, c) := rfl

theorem needs_expect (k : TokenKind) : Needs k.name [k] (expect k) := by
  intro c hc
  change (if c.kind = k then advance else expected k.name).run c = _
  rw [if_neg (by simpa using hc)]
  rfl

theorem needs_name : Needs "IDENT" [.ident] name := (needs_expect .ident).bind

theorem needs_index : Needs "NUMBER" [.number] index :=
  .peek_bind fun _ => Needs.bind (needs_expect .number).bind

theorem needs_port : Needs "IDENT" [.ident] port := needs_name.bind

theorem needs_range : Needs "NUMBER" [.number] range := needs_index.bind

theorem needs_commaList (hp : Needs what ks p) : ∀ fuel, Needs what ks (commaList p fuel)
  | 0 => hp.bind
  | _ + 1 => hp.bind

theorem needs_primary (args : Parser (List Expr)) :
    Needs "expression" [.ident, .number] (primary args) := by
  intro c hc
  simp only [List.mem_cons, List.not_mem_nil, or_false, not_or] at hc
  simp only [primary, StateT.run_bind, StateT.run_get, pure_bind]
  split
  · next h => exact absurd h hc.1
  · next h => exact absurd h hc.2
  · rfl

theorem needs_exprWithin : ∀ fuel, Needs "expression" [.ident, .number] (exprWithin fuel)
  | 0 => fun _ _ => rfl
  | _ + 1 => (needs_primary _).bind

theorem needs_endOfLine : Needs "NEWLINE" [.newline, .eof] endOfLine := by
  intro c hc
  simp only [List.mem_cons, List.not_mem_nil, or_false, not_or] at hc
  simp only [endOfLine, StateT.run_bind, run_peek, pure_bind]
  split
  · next h => exact absurd h hc.1
  · next h => exact absurd h hc.2
  · rfl

theorem needs_statement : Needs "IDENT" [.ident] statement := needs_name.bind

/-! ## The same reading -/

/-- Both results are the same up to what lies behind the end of the text. At least `δ` tokens were
passed, and in a text with an end they were `P` in front of the others. -/
inductive Outcome (δ : Nat) (P : List Word → List Word → α → Prop) (c : Cursor) :
    Except ParseError (α × Cursor) → Except ParseError (α × Cursor) → Prop
  | error (e : ParseError) : Outcome δ P c (.error e) (.error e)
  | ok {a : α} {c' : Cursor} (hlen : c'.cut.remaining + δ ≤ c.cut.remaining) (hends : c'.Ends ↔ c.Ends)
    (hwords : c.Ends → ∃ ws, c.cut.words = ws ++ c'.cut.words ∧ P ws c'.cut.words a) :
    Outcome δ P c (.ok (a, c')) (.ok (a, c'.cut))

/-- Of at most `n` tokens, `p` makes the same as `q` makes without those behind the end of the text. -/
def Reads (δ n : Nat) (p q : Parser α) (P : List Word → List Word → α → Prop) : Prop :=
  ∀ c : Cursor, c.cut.remaining ≤ n → Outcome δ P c (p.run c) (q.run c.cut)

theorem Outcome.imp {Q : List Word → List Word → α → Prop} {r r' : Except ParseError (α × Cursor)}
    (h : Outcome δ P c r r') (himp : ∀ ws rest a, P ws rest a → Q ws rest a) : Outcome δ Q c r r' := by
  cases h with
  | error e => exact .error e
  | ok hlen hends hwords =>
    refine .ok hlen hends fun he => ?_
    obtain ⟨ws, hws, hP⟩ := hwords he
    exact ⟨ws, hws, himp _ _ _ hP⟩

theorem Reads.imp {Q : List Word → List Word → α → Prop} (h : Reads δ n p q P)
    (himp : ∀ ws rest a, P ws rest a → Q ws rest a) : Reads δ n p q Q := fun c hc => (h c hc).imp himp

theorem Reads.mono {m : Nat} (h : Reads δ n p q P) (hm : m ≤ n) : Reads δ m p q P :=
  fun c hc => h c (Nat.le_trans hc hm)

/-- There is always a current token. -/
theorem reads_zero : Reads δ 0 p q P := fun c hc => absurd hc (Nat.not_succ_le_zero c.cut.later.length)

theorem Reads.pure (h : ∀ rest, P [] rest a) : Reads 0 n (pure a) (pure a) P := fun _ _ =>
  .ok (Nat.le_refl _) Iff.rfl fun _ => ⟨[], rfl, h _⟩

theorem Outcome.bind (hc : c.cut.remaining ≤ n) (hp : Outcome δ P c (p.run c) (q.run c.cut))
    (hf : ∀ a, Reads 0 n (f a) (g a) fun us rest b => ∀ ws, P ws (us ++ rest) a → R (ws ++ us) rest b) :
    Outcome δ R c ((p >>= f).run c) ((q >>= g).run c.cut) := by
  rw [StateT.run_bind, StateT.run_bind]
  generalize p.run c = r at hp ⊢
  generalize q.run c.cut = r' at hp ⊢
  cases hp with
  | error e => exact .error e
  | @ok a c' hlen hends hwords =>
    change Outcome δ R c ((f a).run c') ((g a).run c'.cut)
    have hrest := hf a c' (by omega)
    generalize (f a).run c' = r at hrest ⊢
    generalize (g a).run c'.cut = r' at hrest ⊢
    cases hrest with
    | error e => exact .error e
    | @ok b c'' hlen' hends' hwords' =>
      refine .ok (by omega) (hends'.trans hends) fun he => ?_
      obtain ⟨ws, hws, hP⟩ := hwords he
      obtain ⟨us, hus, hR⟩ := hwords' (hends.2 he)
      rw [hus] at hws hP
      exact ⟨ws ++ us, by rw [hws, List.append_assoc], hR ws hP⟩

/-- One reader after another. -/
theorem Reads.bind (hp : Reads δ n p q P)
    (hf : ∀ a, Reads 0 n (f a) (g a) fun us rest b => ∀ ws, P ws (us ++ rest) a → R (ws ++ us) rest b) :
    Reads δ n (p >>= f) (q >>= g) R := fun c hc => (hp c hc).bind hc hf

/-- The current token is the same one in both streams. -/
theorem Reads.peek_bind {f g : Token → Parser β} (h : ∀ t, Reads δ n (f t) (g t) R) :
    Reads δ n (peek >>= f) (peek >>= g) R := fun c hc => h c.current c hc

theorem Reads.get_bind {f g : Cursor → Parser β}
    (h : ∀ c, c.cut.remaining ≤ n → Outcome δ R c ((f c).run c) ((g c.cut).run c.cut)) :
    Reads δ n (get >>= f) (get >>= g) R := h

/-- The number of tokens is fuel that is enough. -/
theorem Reads.remaining_bind {f g : Nat → Parser β}
    (h : ∀ m ≤ n, ∀ i j, m ≤ i → m ≤ j → Reads δ m (f i) (g j) R) :
    Reads δ n (get >>= fun c => f c.remaining) (get >>= fun c => g c.remaining) R := fun c hc =>
  h _ hc _ _ c.remaining_cut_le (Nat.le_refl _) c (Nat.le_refl _)

theorem Outcome.of_needs (hp : Needs what ks p) (hq : Needs what ks q) (h : c.kind ∉ ks) :
    Outcome δ P c (p.run c) (q.run c.cut) := by
  rw [hp c h, hq c.cut h]
  exact .error _

theorem reads_failAt (t : Token) (fault : ParseFault) : Reads δ n (failAt t fault) (failAt t fault) P :=
  fun _ _ => .error _

/-! ## Single tokens -/

/-- A token in front of the end of the text is passed in both streams. -/
theorem outcome_advance (hkind : c.kind = k) (hk : k ≠ .eof) :
    Outcome 0 (fun ws _ t => ws = [(k, t.value)]) c (advance.run c) (advance.run c.cut) := by
  have hne : c.kind ≠ .eof := by rw [hkind]; exact hk
  have hrun : advance.run c.cut = .ok (c.current, c.next.cut) := by
    rw [← Cursor.cut_next hne]
    rfl
  rw [hrun]
  rcases Cursor.next_cases hne with ⟨hnext, hnot⟩ | ⟨hwords, hlen⟩
  · exact .ok (by rw [hnext, Nat.add_zero]) (Cursor.ends_next hne) fun he => absurd he hnot
  · exact .ok (by omega) (Cursor.ends_next hne) fun _ => ⟨[c.current.word], hwords, by rw [← hkind]; rfl⟩

theorem reads_expect (hk : k ≠ .eof) :
    Reads 0 n (expect k) (expect k) fun ws _ t => ws = [(k, t.value)] := by
  intro c hc
  by_cases hkind : c.kind = k
  · have hcut : c.cut.kind = k := hkind
    rw [run_expect hkind, run_expect hcut]
    exact outcome_advance hkind hk
  · exact .of_needs (needs_expect k) (needs_expect k) (by simpa using hkind)

/-- A last token behind what is returned. -/
theorem reads_close (hk : k ≠ .eof) (a : α) : Reads 0 n (do let _ ← expect k; return a)
    (do let _ ← expect k; return a) fun ws _ b => b = a ∧ ∃ s, ws = [(k, s)] :=
  .bind (reads_expect hk) fun t => .pure fun _ _ hws => ⟨rfl, t.value, by rw [hws]; rfl⟩

theorem reads_name : Reads 0 n name name fun ws _ s => ws = [(.ident, s)] :=
  .bind (reads_expect nofun) fun t => .pure fun _ _ hws => by rw [hws]; rfl

theorem run_eat (h : c.kind = k) : (eat k).run c = .ok (true, c.next) := by
  change (if c.kind = k then _ else _ : Parser Bool).run c = _
  rw [if_pos h]
  rfl

theorem run_eat_other (h : c.kind ≠ k) : (eat k).run c = .ok (false, c) := by
  change (if c.kind = k then _ else _ : Parser Bool).run c = _
  rw [if_neg h]
  rfl

/-- What was passed, given whether a token of kind `k` was. -/
def Eaten (k : TokenKind) (ws : List Word) : Bool → Prop
  | true => ∃ s, ws = [(k, s)]
  | false => ws = []

theorem reads_eat (hk : k ≠ .eof) : Reads 0 n (eat k) (eat k) fun ws _ b => Eaten k ws b := by
  intro c hc
  by_cases hkind : c.kind = k
  · have hcut : c.cut.kind = k := hkind
    have hadvance := outcome_advance hkind hk
    have hpass : Outcome 0 (fun ws _ b => Eaten k ws b) c ((advance >>= fun _ => return true).run c)
        ((advance >>= fun _ => return true).run c.cut) :=
      hadvance.bind hc fun t => .pure fun _ ws hws => ⟨t.value, by rw [hws]; rfl⟩
    rw [run_eat hkind, run_eat hcut]
    exact hpass
  · have hcut : c.cut.kind ≠ k := hkind
    rw [run_eat_other hkind, run_eat_other hcut]
    exact .ok (Nat.le_refl _) Iff.rfl fun _ => ⟨[], rfl, rfl⟩

/-- **A token that is not passed twice**, since the reader behind it needs another one. -/
theorem Outcome.pass (hkind : c.kind = k) (hk : k ≠ .eof) (hks : k ∉ ks) (hp : Needs what ks p)
    (hq : Needs what ks q) (hc : c.cut.remaining ≤ n + 1)
    (h : Reads 0 n p q fun us rest a => P ((k, c.current.value) :: us) rest a) :
    Outcome 1 P c (p.run c.next) (q.run c.cut.next) := by
  have hne : c.kind ≠ .eof := by rw [hkind]; exact hk
  rw [Cursor.cut_next hne]
  rcases Cursor.next_cases hne with ⟨hnext, -⟩ | ⟨hwords, hlen⟩
  · rw [hnext]
    exact .of_needs hp hq (by rw [hkind]; exact hks)
  · have hrest := h c.next (by omega)
    generalize p.run c.next = r at hrest ⊢
    generalize q.run c.next.cut = r' at hrest ⊢
    cases hrest with
    | error e => exact .error e
    | @ok a c' hlen' hends hpassed =>
      refine .ok (by omega) (hends.trans (Cursor.ends_next hne)) fun he => ?_
      obtain ⟨us, hus, hP⟩ := hpassed ((Cursor.ends_next hne).2 he)
      refine ⟨(k, c.current.value) :: us, ?_, hP⟩
      rw [hwords, hus, ← hkind]
      rfl

theorem Outcome.weaken {r r' : Except ParseError (α × Cursor)} (h : Outcome δ P c r r') :
    Outcome 0 P c r r' := by
  cases h with
  | error e => exact .error e
  | ok hlen hends hwords => exact .ok (by omega) hends hwords

/-- A token that is not passed twice and has to be there. -/
theorem Reads.expect_bind {f g : Token → Parser β} (hk : k ≠ .eof) (hks : k ∉ ks)
    (hf : ∀ t, Needs what ks (f t)) (hg : ∀ t, Needs what ks (g t))
    (h : ∀ t, Reads 0 n (f t) (g t) fun us rest b => R ((k, t.value) :: us) rest b) :
    Reads 1 (n + 1) (expect k >>= f) (expect k >>= g) R := by
  intro c hc
  by_cases hkind : c.kind = k
  · have hcut : c.cut.kind = k := hkind
    rw [StateT.run_bind, StateT.run_bind, run_expect hkind, run_expect hcut]
    exact Outcome.pass hkind hk hks (hf c.current) (hg c.current) hc (h c.current)
  · exact .of_needs (needs_expect k).bind (needs_expect k).bind (by simpa using hkind)

/-- A token that is not passed twice, if it is there at all. -/
theorem Reads.eat_bind {f g : Bool → Parser β} (hk : k ≠ .eof) (hks : k ∉ ks) (hf : Needs what ks (f true))
    (hg : Needs what ks (g true)) (h : Reads 0 n (f true) (g true) fun us rest b => ∀ s, R ((k, s) :: us) rest b)
    (hother : Reads 0 (n + 1) (f false) (g false) R) :
    Reads 0 (n + 1) (eat k >>= f) (eat k >>= g) R := by
  intro c hc
  rw [StateT.run_bind, StateT.run_bind]
  by_cases hkind : c.kind = k
  · have hcut : c.cut.kind = k := hkind
    have hpass : Reads 0 n (f true) (g true) fun us rest b => R ((k, c.current.value) :: us) rest b :=
      h.imp fun _ _ _ hR => hR _
    rw [run_eat hkind, run_eat hcut]
    exact (Outcome.pass hkind hk hks hf hg hc hpass).weaken
  · have hcut : c.cut.kind ≠ k := hkind
    rw [run_eat_other hkind, run_eat_other hcut]
    exact hother c hc

/-! ## Numbers -/

theorem reads_number : Reads 0 n number number fun ws _ v => ∃ text, ws = [(.number, text)] ∧ IsLiteral text v := by
  refine .bind (reads_expect nofun) fun t => ?_
  split
  · next v hv =>
    refine .pure fun _ ws hws => ⟨t.value, by rw [hws]; rfl, Numeral.literal?_eq_some.1 hv⟩
  · exact reads_failAt _ _

theorem reads_index : Reads 0 n index index fun ws _ v =>
    ∃ text, ws = [(.number, text)] ∧ IsLiteral text v ∧ v ≤ widthLimit := by
  refine .peek_bind fun t => .bind reads_number fun v => ?_
  split
  · next hv =>
    refine .pure ?_
    rintro _ _ ⟨text, rfl, h⟩
    exact ⟨text, rfl, h, hv⟩
  · exact reads_failAt _ _

/-! ## Lists -/

section Lists

variable {P : List Word → α → Prop}

/-- **A list of what is read is read**, if a comma is no item of it. -/
theorem reads_commaList (hp : Reads 0 n p q fun ws _ a => P ws a) (hneeds : Needs what ks p)
    (hneeds' : Needs what ks q) (hcomma : .comma ∉ ks) :
    ∀ i j, n ≤ i → n ≤ j → Reads 0 n (commaList p i) (commaList q j) fun ws _ as => CommaList P ws as := by
  induction n with
  | zero => exact fun _ _ _ _ => reads_zero
  | succ n ih =>
    intro i j hi hj
    obtain ⟨i, rfl⟩ := Nat.exists_eq_add_of_lt hi
    obtain ⟨j, rfl⟩ := Nat.exists_eq_add_of_lt hj
    have htail := ih (hp.mono (Nat.le_succ n)) _ _ (Nat.le_add_right n i) (Nat.le_add_right n j)
    refine .bind hp fun a => .eat_bind nofun hcomma (needs_commaList hneeds _).bind
      (needs_commaList hneeds' _).bind (.bind htail fun as => .pure ?_) (.pure ?_)
    · intro rest us hus s ws ha
      rw [List.append_nil]
      exact .more ha s hus
    · intro rest ws ha
      rw [List.append_nil]
      exact .one ha

theorem reads_list (hp : Reads 0 n p q fun ws _ a => P ws a) (hneeds : Needs what ks p)
    (hneeds' : Needs what ks q) (hcomma : .comma ∉ ks) :
    Reads 0 n (list p) (list q) fun ws _ as => CommaList P ws as :=
  .remaining_bind fun _ hm => reads_commaList (hp.mono hm) hneeds hneeds' hcomma

theorem reads_closedList (hp : Reads 0 n p q fun ws _ a => P ws a) (hneeds : Needs what ks p)
    (hneeds' : Needs what ks q) (hcomma : .comma ∉ ks) :
    Reads 0 n (closedList p) (closedList q) fun ws _ as => ∀ s, Enclosed P ((.lparen, s) :: ws) as := by
  refine .peek_bind fun t => ?_
  split
  · refine (reads_close (k := .rparen) nofun []).imp ?_
    rintro _ _ _ ⟨rfl, t, rfl⟩ s
    exact .none s t
  · refine .bind (reads_list hp hneeds hneeds' hcomma) fun as => (reads_close (k := .rparen) nofun as).imp ?_
    rintro _ _ _ ⟨rfl, t, rfl⟩ ws hws s
    exact .some s t hws

end Lists

/-! ## Ports and ranges -/

theorem reads_port : Reads 0 n port port fun ws _ p => IsPort ws p := by
  refine .bind reads_name fun name => .get_bind fun c hc => ?_
  -- both streams show whether a width follows
  have hkind : c.cut.kind = c.kind := rfl
  have hboth : (decide (c.kind = .colon) && c.cut.followedBy .number) =
      (decide (c.kind = .colon) && c.followedBy .number) := by
    by_cases hcolon : c.kind = .colon
    · rw [Cursor.followedBy_cut (by rw [hcolon]; nofun)]
    · rw [decide_eq_false hcolon, Bool.false_and, Bool.false_and]
  rw [hkind, hboth]
  split
  · next hwide =>
    have hcolon : c.kind = .colon := of_decide_eq_true (Bool.and_eq_true_iff.1 hwide).1
    have hadvance := outcome_advance hcolon nofun
    refine hadvance.bind hc fun colon => .peek_bind fun t => ?_
    refine .bind reads_index fun width => ?_
    by_cases hwidth : width = 0
    · rw [if_pos hwidth]
      intro c _
      exact .error _
    · rw [if_neg hwidth]
      refine .pure ?_
      rintro _ _ ⟨text, rfl, h, hle⟩ _ rfl _ rfl
      exact .wide name _ h (Nat.pos_of_ne_zero hwidth) hle
  · refine Reads.pure ?_ c hc
    rintro _ _ rfl
    exact .bare name

theorem reads_range : Reads 0 n range range fun ws _ r => ∀ s, IsRange ((.lbracket, s) :: ws) r := by
  refine .bind reads_index fun i => .bind (reads_eat nofun) fun colon => ?_
  cases colon with
  | true =>
    have hsecond : Reads 0 n (do return BitRange.slice i (← index)) (do return BitRange.slice i (← index))
        fun ws _ r => ∃ text j, ws = [(.number, text)] ∧ IsLiteral text j ∧ j ≤ widthLimit ∧ r = .slice i j := by
      refine .bind reads_index fun j => .pure ?_
      rintro _ _ ⟨text, rfl, hj, hle⟩
      exact ⟨text, j, rfl, hj, hle, rfl⟩
    refine .bind hsecond fun r => (reads_close (k := .rbracket) nofun r).imp ?_
    rintro _ _ _ ⟨rfl, t, rfl⟩ _ ⟨text', j, rfl, hj, hlej, rfl⟩ _ ⟨u, rfl⟩ _ ⟨text, rfl, hi, hlei⟩ s
    exact .slice s u t hi hj hlei hlej
  | false =>
    refine (reads_close (k := .rbracket) nofun (BitRange.bit i)).imp ?_
    rintro _ _ _ ⟨rfl, t, rfl⟩ _ rfl _ ⟨text, rfl, hi, hlei⟩ s
    exact .bit s t hi hlei

/-! ## Expressions -/

/-- Suffixes go behind any expression. -/
theorem reads_suffixes : ∀ (i j : Nat) (e : Expr), n ≤ i → n ≤ j →
    Reads 0 n (suffixes i e) (suffixes j e) fun ws _ e' => ∀ vs, IsExpr vs e → IsExpr (vs ++ ws) e' := by
  induction n with
  | zero => exact fun _ _ _ _ _ => reads_zero
  | succ n ih =>
    intro i j e hi hj
    obtain ⟨i, rfl⟩ := Nat.exists_eq_add_of_lt hi
    obtain ⟨j, rfl⟩ := Nat.exists_eq_add_of_lt hj
    refine .eat_bind nofun (by decide) needs_name.bind needs_name.bind ?_
      (.eat_bind nofun (by decide) needs_range.bind needs_range.bind ?_ (.pure ?_))
    · refine .bind reads_name fun field => (ih _ _ _ (Nat.le_add_right n i) (Nat.le_add_right n j)).imp ?_
      rintro ws _ e' hws _ rfl s vs hvs
      have hmember := hws _ (.member hvs s field)
      rwa [List.append_assoc] at hmember
    · refine .bind reads_range fun r => (ih _ _ _ (Nat.le_add_right n i) (Nat.le_add_right n j)).imp ?_
      rintro ws _ e' hws us hus s vs hvs
      have hselect := hws _ (.select hvs (hus s))
      rwa [List.append_assoc] at hselect
    · intro _ vs hvs
      rwa [List.append_nil]

theorem run_name (h : c.kind = .ident) : name.run c = .ok (c.current.value, c.next) := by
  change ((expect .ident >>= fun t => pure t.value : Parser String)).run c = _
  rw [StateT.run_bind, run_expect h]
  rfl

/-- **A call passes its name before its arguments**, which are read with less fuel. -/
theorem reads_primary {args args' : Parser (List Expr)}
    (hargs : Reads 0 n args args' fun ws _ as => ∀ s, Enclosed IsExpr ((.lparen, s) :: ws) as) :
    Reads 0 (n + 1) (primary args) (primary args') fun ws _ e => IsExpr ws e := by
  refine .get_bind fun c hc => ?_
  have hkind : c.cut.kind = c.kind := rfl
  by_cases hident : c.kind = .ident
  · have hcut : c.cut.kind = .ident := hident
    rw [hkind, hident, Cursor.followedBy_cut (by rw [hident]; nofun)]
    dsimp only
    cases c.followedBy .lparen with
    | true =>
      have hcall : Reads 0 n (do let _ ← expect .lparen; return .call c.current.value (← args))
          (do let _ ← expect .lparen; return .call c.current.value (← args'))
          fun ws _ e => IsExpr ((.ident, c.current.value) :: ws) e := by
        refine .bind (reads_expect nofun) fun t => .bind hargs fun as => .pure ?_
        rintro _ ws hws _ rfl
        rw [List.append_nil]
        exact .call _ (hws t.value)
      have hneeds := needs_expect .lparen
      rw [StateT.run_bind, StateT.run_bind, run_name hident, run_name hcut]
      exact (Outcome.pass (P := fun ws _ e => IsExpr ws e) hident nofun (by decide) hneeds.bind hneeds.bind hc
        hcall).weaken
    | false =>
      refine Reads.bind reads_name (fun name => .pure ?_) c hc
      rintro _ _ rfl
      exact .identifier name
  · by_cases hnumber : c.kind = .number
    · rw [hkind, hnumber]
      dsimp only
      refine Reads.bind reads_number (fun v => .pure ?_) c hc
      rintro _ _ ⟨text, rfl, h⟩
      exact .number h
    · have hks : c.kind ∉ [.ident, .number] := by simp [hident, hnumber]
      change Outcome 0 _ c ((primary args).run c) ((primary args').run c.cut)
      exact .of_needs (needs_primary args) (needs_primary args') hks

theorem reads_exprWithin : ∀ i j, n ≤ i → n ≤ j →
    Reads 0 n (exprWithin i) (exprWithin j) fun ws _ e => IsExpr ws e := by
  induction n with
  | zero => exact fun _ _ _ _ => reads_zero
  | succ n ih =>
    intro i j hi hj
    obtain ⟨i, rfl⟩ := Nat.exists_eq_add_of_lt hi
    obtain ⟨j, rfl⟩ := Nat.exists_eq_add_of_lt hj
    have hargs := reads_closedList (ih _ _ (Nat.le_add_right n i) (Nat.le_add_right n j))
      (needs_exprWithin _) (needs_exprWithin _) (by decide)
    refine .bind (reads_primary hargs) fun e =>
      .remaining_bind (f := fun k => suffixes k e) (g := fun k => suffixes k e) fun m _ i j hi hj => ?_
    exact (reads_suffixes i j e hi hj).imp fun ws _ e' hws vs hvs => hws vs hvs

theorem reads_expr : Reads 0 n expr expr fun ws _ e => IsExpr ws e :=
  .remaining_bind fun _ _ i j hi hj => reads_exprWithin i j hi hj

/-! ## Statements and modules -/

theorem reads_statement : Reads 0 n statement statement fun ws _ t => IsStatement ws t := by
  have hright : ∀ (name : String) (range? : Option BitRange),
      Reads 0 n (do let _ ← expect .equals; return (⟨⟨name, range?⟩, ← expr⟩ : Statement))
        (do let _ ← expect .equals; return (⟨⟨name, range?⟩, ← expr⟩ : Statement))
        fun ws _ t => ∃ s us e, ws = (.equals, s) :: us ∧ IsExpr us e ∧ t = ⟨⟨name, range?⟩, e⟩ := by
    intro name range?
    refine .bind (reads_expect nofun) fun t => .bind reads_expr fun e => .pure ?_
    rintro _ us hus _ rfl
    exact ⟨t.value, us, e, by simp, hus, rfl⟩
  refine .bind reads_name fun name => .bind (reads_eat nofun) fun bracket => ?_
  cases bracket with
  | true =>
    have hrange : Reads 0 n (do return some (← range)) (do return some (← range))
        fun ws _ r? => ∃ r, r? = some r ∧ ∀ s, IsRange ((.lbracket, s) :: ws) r := by
      refine .bind reads_range fun r => .pure ?_
      intro _ ws hws
      rw [List.append_nil]
      exact ⟨r, rfl, hws⟩
    refine .bind hrange fun range? => (hright name range?).imp ?_
    rintro _ _ _ ⟨t, us, e, rfl, he, rfl⟩ ws ⟨r, rfl, hr⟩ _ ⟨s, rfl⟩ _ rfl
    exact .part name t (hr s) he
  | false =>
    refine (hright name none).imp ?_
    rintro _ _ _ ⟨t, us, e, rfl, he, rfl⟩ _ rfl _ rfl
    exact .whole name t he

theorem run_endOfLine_newline (h : c.kind = .newline) :
    endOfLine.run c = (advance >>= fun _ => return ()).run c := by
  have hkind : c.current.kind = .newline := h
  simp only [endOfLine, StateT.run_bind, run_peek, pure_bind, hkind]
  rfl

theorem run_endOfLine_eof (h : c.kind = .eof) : endOfLine.run c = .ok ((), c) := by
  have hkind : c.current.kind = .eof := h
  simp only [endOfLine, StateT.run_bind, run_peek, pure_bind, hkind]
  rfl

theorem reads_endOfLine : Reads 0 n endOfLine endOfLine fun ws rest _ => EndsLine ws rest := by
  intro c hc
  by_cases hnewline : c.kind = .newline
  · have hcut : c.cut.kind = .newline := hnewline
    rw [run_endOfLine_newline hnewline, run_endOfLine_newline hcut]
    refine (outcome_advance hnewline nofun).bind hc fun t => .pure ?_
    rintro rest _ rfl
    exact .newline t.value _
  · by_cases heof : c.kind = .eof
    · have hcut : c.cut.kind = .eof := heof
      rw [run_endOfLine_eof heof, run_endOfLine_eof hcut]
      refine .ok (Nat.le_refl _) Iff.rfl fun _ => ⟨[], rfl, ?_⟩
      rw [Cursor.words_cut_of_eof heof]
      exact .eof _ _
    · have hks : c.kind ∉ [.newline, .eof] := by simp [hnewline, heof]
      exact .of_needs needs_endOfLine needs_endOfLine hks

theorem reads_statements : ∀ i j, n ≤ i → n ≤ j →
    Reads 0 n (statements i) (statements j) fun ws rest ts => IsBody ws rest ts := by
  induction n with
  | zero => exact fun _ _ _ _ => reads_zero
  | succ n ih =>
    intro i j hi hj
    obtain ⟨i, rfl⟩ := Nat.exists_eq_add_of_lt hi
    obtain ⟨j, rfl⟩ := Nat.exists_eq_add_of_lt hj
    refine .eat_bind nofun (by decide) needs_statement.bind needs_statement.bind ?_ (.pure fun rest => .nil rest)
    refine .bind reads_statement fun t => .bind reads_endOfLine fun _ => ?_
    refine .bind (ih _ _ (Nat.le_add_right n i) (Nat.le_add_right n j)) fun ts => .pure ?_
    intro rest vs hvs us hus ws hws s
    have hbody : IsBody ((.indent, s) :: (ws ++ us ++ vs)) rest (t :: ts) :=
      .cons s hws (by simpa using hus) hvs
    simpa using hbody

theorem reads_outputs : Reads 0 n outputs outputs fun ws _ ps => AreOutputs ws ps := by
  refine .bind (reads_eat nofun) fun paren => ?_
  cases paren with
  | true =>
    refine (reads_closedList reads_port needs_port needs_port (by decide)).imp ?_
    rintro ws _ ps hws _ ⟨s, rfl⟩
    exact .enclosed (hws s)
  | false =>
    refine .bind reads_port fun p => .pure ?_
    rintro _ ws hws _ rfl
    rw [List.append_nil]
    exact .single hws

theorem reads_module : Reads 1 n module module fun ws rest m => IsModule ws rest m := by
  cases n with
  | zero => exact reads_zero
  | succ n =>
    refine .expect_bind nofun (by decide) (fun _ => needs_name.bind) (fun _ => needs_name.bind) fun s => ?_
    refine .bind reads_name fun name => .bind (reads_expect nofun) fun t => ?_
    refine .bind (reads_closedList reads_port needs_port needs_port (by decide)) fun inputs => ?_
    refine .bind (reads_expect nofun) fun u => .bind reads_outputs fun outputs => ?_
    refine .bind (reads_expect nofun) fun v => .bind reads_endOfLine fun _ => ?_
    refine .remaining_bind (f := fun k => do return (⟨name, inputs, outputs, ← statements k⟩ : Module))
      (g := fun k => do return (⟨name, inputs, outputs, ← statements k⟩ : Module)) fun m _ i j hi hj => ?_
    refine .bind (reads_statements i j hi hj) fun ts => .pure ?_
    rintro rest vs hvs us hus _ rfl os hos _ rfl is his _ rfl _ rfl
    have hmodule := IsModule.intro s.value name u.value v.value (his t.value) hos (by simpa using hus) hvs
    simpa using hmodule

end Parser

/-! ## Streams -/

/-- **All modules of a stream** are read the same way up to the end of the text and beyond it, under
any fuel that is enough, and only a text with an end is read without a violation. -/
theorem parseFrom_cut {n : Nat} : ∀ (c : Cursor) (i j : Nat), c.cut.remaining ≤ n → n ≤ i → n ≤ j →
    parseFrom i c = parseFrom j c.cut ∧
      ((parseFrom i c).error = none → c.Ends ∧ IsDesign c.cut.words (parseFrom i c).modules) := by
  induction n with
  | zero => exact fun c _ _ hc _ _ => absurd hc (Nat.not_succ_le_zero c.cut.later.length)
  | succ n ih =>
    intro c i j hc hi hj
    obtain ⟨i, rfl⟩ := Nat.exists_eq_add_of_lt hi
    obtain ⟨j, rfl⟩ := Nat.exists_eq_add_of_lt hj
    have hkind : c.cut.kind = c.kind := rfl
    rw [parseFrom, parseFrom, hkind]
    by_cases heof : c.kind = .eof
    · rw [if_pos heof, if_pos heof, Cursor.words_cut_of_eof heof]
      exact ⟨rfl, fun _ => ⟨⟨c.current, List.mem_cons_self, heof⟩, .nil _⟩⟩
    · rw [if_neg heof, if_neg heof]
      have hmodule := Parser.reads_module c hc
      generalize Parser.module.run c = r at hmodule ⊢
      generalize Parser.module.run c.cut = r' at hmodule ⊢
      cases hmodule with
      | error e => exact ⟨rfl, fun herror => absurd herror (Option.some_ne_none e)⟩
      | @ok m c' hlen hends hwords =>
        obtain ⟨heq, hdesign⟩ := ih c' _ _ (by omega) (Nat.le_add_right n i) (Nat.le_add_right n j)
        refine ⟨by simp only [heq], fun herror => ?_⟩
        obtain ⟨hends', hms⟩ := hdesign herror
        obtain ⟨ws, hws, hm⟩ := hwords (hends.1 hends')
        rw [hws]
        exact ⟨hends.1 hends', .cons hm hms⟩

/-- What lies behind the first end of the text does not matter, and neither does more fuel. -/
theorem parseFrom_eq_parse_uptoEof (t : Token) (ts : List Token) {fuel : Nat} (h : ts.length < fuel) :
    parseFrom fuel ⟨t, ts⟩ = parse (uptoEof (t :: ts)) := by
  have hlen := Cursor.remaining_cut_le ⟨t, ts⟩
  have hcut := parseFrom_cut ⟨t, ts⟩ fuel _ (Nat.le_refl _) (Nat.le_trans hlen h) (Nat.le_refl _)
  exact hcut.1

theorem parse_uptoEof : ∀ ts : List Token, parse (uptoEof ts) = parse ts
  | [] => rfl
  | t :: ts => (parseFrom_eq_parse_uptoEof t ts (Nat.lt_succ_self _)).symm

/-- A text that is read without a violation has an end and belongs to the grammar. -/
theorem isDesign_of_parse {t : Token} {ts : List Token} (h : (parse (t :: ts)).error = none) :
    (∃ u ∈ t :: ts, u.kind = .eof) ∧
      IsDesign ((uptoEof (t :: ts)).map Token.word) (parse (t :: ts)).modules := by
  have hlen := Cursor.remaining_cut_le ⟨t, ts⟩
  exact (parseFrom_cut ⟨t, ts⟩ _ _ (Nat.le_refl _) hlen (Nat.le_refl _)).2 h

theorem uptoEof_append {t : Token} (h : t.kind = .eof) (ts us : List Token) :
    uptoEof (ts ++ t :: us) = uptoEof (ts ++ [t]) := by
  induction ts with
  | nil =>
    change t :: (if t.kind = .eof then [] else _) = t :: (if t.kind = .eof then [] else _)
    rw [if_pos h, if_pos h]
  | cons v ts ih => rw [List.cons_append, List.cons_append, uptoEof, uptoEof, ih]

/-- A stream with a token is read without a violation exactly if it is a design up to its end. -/
theorem parse_eq_iff {t : Token} {ts : List Token} {ms : List Module} :
    parse (t :: ts) = ⟨ms, none⟩ ↔ IsDesign ((uptoEof (t :: ts)).map Token.word) ms := by
  constructor
  · intro h
    have hdesign := (isDesign_of_parse (by rw [h])).2
    rwa [h] at hdesign
  · intro h
    have hc : (Cursor.cut ⟨t, ts⟩).words = (uptoEof (t :: ts)).map Token.word := rfl
    have hlen := length_lt_of_isDesign h
    rw [List.length_map] at hlen
    rw [← parse_uptoEof]
    exact parseFrom_of_isDesign h hc hlen

theorem Parsed.result_eq_ok {r : Parsed} {ms : List Module} : r.result = .ok ms ↔ r = ⟨ms, none⟩ := by
  obtain ⟨modules, error⟩ := r
  cases error <;> simp [result]

/-- **A stream is read exactly if it is a design of the grammar**, and then as what the grammar makes of it.
Nothing behind an end of the text matters, a text without an end is never read, and the reading stops by
itself, since more fuel changes nothing. -/
theorem parse_iff_isDesign (ts : List Token) :
    ((∃ t ∈ ts, t.kind = .eof) →
      ∀ ms, (parse ts).result = .ok ms ↔ IsDesign ((uptoEof ts).map Token.word) ms) ∧
    (∀ t us us', t.kind = .eof → parse (ts ++ t :: us) = parse (ts ++ t :: us')) ∧
    (ts ≠ [] → (∀ t ∈ ts, t.kind ≠ .eof) → ∃ e, (parse ts).result = .error e) ∧
    (ts = [] → (parse ts).result = .ok []) ∧
    ∀ t us fuel, ts = t :: us → ts.length ≤ fuel → parseFrom fuel ⟨t, us⟩ = parse ts := by
  refine ⟨?_, ?_, ?_, ?_, ?_⟩
  · rintro ⟨u, hu, -⟩ ms
    rw [Parsed.result_eq_ok]
    cases ts with
    | nil => cases hu
    | cons t ts => exact parse_eq_iff
  · intro t us us' ht
    rw [← parse_uptoEof, ← parse_uptoEof (ts ++ t :: us'), uptoEof_append ht, uptoEof_append ht ts us']
  · intro hne hnone
    cases ts with
    | nil => exact absurd rfl hne
    | cons t ts =>
      cases herror : (parse (t :: ts)).error with
      | none =>
        obtain ⟨u, hu, heof⟩ := (isDesign_of_parse herror).1
        exact absurd heof (hnone u hu)
      | some e => exact ⟨e, by rw [Parsed.result, herror]⟩
  · rintro rfl
    rfl
  · rintro t us fuel rfl hfuel
    rw [parseFrom_eq_parse_uptoEof t us hfuel, parse_uptoEof]

/-- A header whose line break is the last token: the break is passed and then found where the next
module would have to start. -/
example : parse [⟨.moduleWord, "module", .start⟩, ⟨.ident, "m", .start⟩, ⟨.lparen, "(", .start⟩,
      ⟨.rparen, ")", .start⟩, ⟨.arrow, "->", .start⟩, ⟨.ident, "y", .start⟩, ⟨.colon, ":", .start⟩,
      ⟨.newline, "\n", .start⟩] =
    ⟨[⟨"m", [], [⟨"y", 1⟩], []⟩], some ⟨.expected "MODULE" ⟨.newline, "\n", .start⟩, .start⟩⟩ := by
  rfl

end NandHdl
