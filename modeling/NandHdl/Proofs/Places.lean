import NandHdl.Proofs.Parsing

/-!
# Reading does not look at places

What a stream of tokens is read as has nothing to do with where the tokens stand. Two streams that differ in nothing
else give the same modules, or the same message at the same one of their tokens.

* `Paired`: two results, both of them failures or neither.
* `Cursor.Beside`, `ParseError.Beside`: places in two streams, and violations at such places.
* `Parser.Beside`: readers side by side.
* `parse_beside`: **two streams that differ in places only are read alike.**
-/

namespace NandHdl

/-- Both results are failures, related by `E`, or both are values, related by `R`. -/
inductive Paired {ε ε' α β : Type} (E : ε → ε' → Prop) (R : α → β → Prop) : Except ε α → Except ε' β → Prop
  | error {e : ε} {e' : ε'} (h : E e e') : Paired E R (.error e) (.error e')
  | ok {a : α} {b : β} (h : R a b) : Paired E R (.ok a) (.ok b)

variable {S : Token → Token → Prop}

/-- Tokens that read the same are named the same. -/
theorem Token.shown_eq {t u : Token} (h : t.word = u.word) : t.shown = u.shown := by
  obtain ⟨kind, value, pos⟩ := t
  obtain ⟨kind', value', pos'⟩ := u
  cases h
  rfl

/-- The streams have related tokens from here on. -/
structure Cursor.Beside (S : Token → Token → Prop) (c d : Cursor) : Prop where
  current : S c.current d.current
  later : List.Forall₂ S c.later d.later

/-- The violations have the same message and show at related tokens. -/
structure ParseError.Beside (S : Token → Token → Prop) (e e' : ParseError) : Prop where
  message : e.message = e'.message
  pos : ∃ t u, S t u ∧ e.pos = t.pos ∧ e'.pos = u.pos

/-- From places side by side, both readers fail alike, or they lead to places side by side, with results related by
`R`. -/
def Parser.Beside (S : Token → Token → Prop) {α β : Type} (R : α → β → Prop) (p : Parser α) (q : Parser β) : Prop :=
  ∀ c d, Cursor.Beside S c d →
    Paired (ParseError.Beside S) (fun r r' => R r.1 r'.1 ∧ r.2.Beside S r'.2) (p.run c) (q.run d)

namespace Cursor.Beside

variable {c d : Cursor}

theorem next (h : c.Beside S d) : c.next.Beside S d.next := by
  obtain ⟨t, ts⟩ := c
  obtain ⟨u, us⟩ := d
  obtain ⟨hcurrent, hlater⟩ := h
  cases hlater with
  | nil => exact ⟨hcurrent, .nil⟩
  | cons htu htus => exact ⟨htu, htus⟩

theorem remaining_eq (h : c.Beside S d) : c.remaining = d.remaining := by
  rw [remaining, remaining, h.later.length_eq]

theorem kind_eq (hS : ∀ t u, S t u → t.word = u.word) (h : c.Beside S d) : c.kind = d.kind :=
  congrArg Prod.fst (hS _ _ h.current)

theorem followedBy_eq (hS : ∀ t u, S t u → t.word = u.word) (h : c.Beside S d) (k : TokenKind) :
    c.followedBy k = d.followedBy k := by
  obtain ⟨t, ts⟩ := c
  obtain ⟨u, us⟩ := d
  obtain ⟨-, hlater⟩ := h
  cases hlater with
  | nil => rfl
  | @cons v w _ _ hvw _ =>
    have hkind : v.kind = w.kind := congrArg Prod.fst (hS v w hvw)
    simp only [followedBy, List.head?_cons, Option.any_some, hkind]

end Cursor.Beside

namespace Parser

variable {α β γ δ : Type} {R : α → β → Prop} {R' : γ → δ → Prop}

/-! ## Readers one after another -/

theorem Beside.pure {a : α} {b : β} (h : R a b) : Beside S R (pure a) (pure b) := fun _ _ hcd => .ok ⟨h, hcd⟩

theorem Beside.bind {p : Parser α} {q : Parser β} {f : α → Parser γ} {g : β → Parser δ} (hp : Beside S R p q)
    (hf : ∀ a b, R a b → Beside S R' (f a) (g b)) : Beside S R' (p >>= f) (q >>= g) := by
  intro c d hcd
  have hrun := hp c d hcd
  rw [StateT.run_bind, StateT.run_bind]
  generalize p.run c = r at hrun ⊢
  generalize q.run d = r' at hrun ⊢
  cases hrun with
  | error h => exact .error h
  | ok h => exact hf _ _ h.1 _ _ h.2

/-- One reader after another, where the first one gives the same on both sides. -/
theorem Beside.andThen {p q : Parser α} {f : α → Parser γ} {g : α → Parser δ} (hp : Beside S Eq p q)
    (hf : ∀ a, Beside S R' (f a) (g a)) : Beside S R' (p >>= f) (q >>= g) :=
  hp.bind fun a _ h => h ▸ hf a

theorem Beside.get_bind {f : Cursor → Parser γ} {g : Cursor → Parser δ}
    (h : ∀ c d, c.Beside S d → Beside S R' (f c) (g d)) : Beside S R' (get >>= f) (get >>= g) :=
  fun c d hcd => h c d hcd c d hcd

theorem Beside.peek_bind {f : Token → Parser γ} {g : Token → Parser δ}
    (h : ∀ t u, S t u → Beside S R' (f t) (g u)) : Beside S R' (peek >>= f) (peek >>= g) :=
  fun c d hcd => h _ _ hcd.current c d hcd

/-- The number of tokens to come is the same. -/
theorem Beside.remaining_bind {f : Nat → Parser γ} {g : Nat → Parser δ} (h : ∀ n, Beside S R' (f n) (g n)) :
    Beside S R' (get >>= fun c => f c.remaining) (get >>= fun c => g c.remaining) :=
  .get_bind fun c d hcd => by
    rw [hcd.remaining_eq]
    exact h _

theorem beside_failAt {t u : Token} {fault fault' : ParseFault} (h : S t u) (hfault : fault.message = fault'.message) :
    Beside S R (failAt t fault) (failAt u fault') := fun _ _ _ => .error ⟨hfault, t, u, h, rfl, rfl⟩

theorem beside_advance : Beside S S advance advance := fun _ _ hcd => .ok ⟨hcd.current, hcd.next⟩

/-! ## Phrases -/

section Phrases

variable (hS : ∀ t u, S t u → t.word = u.word)
include hS

theorem beside_expected (what : String) : Beside S R (expected what) (expected what) := by
  refine .peek_bind fun t u h => beside_failAt h ?_
  exact congrArg ("Expected " ++ what ++ ", found " ++ ·) (Token.shown_eq (hS t u h))

theorem beside_expect (k : TokenKind) : Beside S S (expect k) (expect k) := by
  refine .peek_bind fun t u h => ?_
  have hkind : t.kind = u.kind := congrArg Prod.fst (hS t u h)
  rw [hkind]
  split
  · exact beside_advance
  · exact beside_expected hS _

theorem beside_eat (k : TokenKind) : Beside S Eq (eat k) (eat k) := by
  refine .peek_bind fun t u h => ?_
  have hkind : t.kind = u.kind := congrArg Prod.fst (hS t u h)
  rw [hkind]
  split
  · exact beside_advance.bind fun _ _ _ => .pure rfl
  · exact .pure rfl

theorem beside_endOfLine : Beside S Eq endOfLine endOfLine := by
  refine .peek_bind fun t u h => ?_
  have hkind : t.kind = u.kind := congrArg Prod.fst (hS t u h)
  rw [hkind]
  split
  · exact beside_advance.bind fun _ _ _ => .pure rfl
  · exact .pure rfl
  · exact beside_expected hS _

theorem beside_name : Beside S Eq name name :=
  (beside_expect hS .ident).bind fun t u h => .pure (congrArg Prod.snd (hS t u h))

theorem beside_number : Beside S Eq number number := by
  refine (beside_expect hS .number).bind fun t u h => ?_
  have hvalue : t.value = u.value := congrArg Prod.snd (hS t u h)
  rw [hvalue]
  split
  · exact .pure rfl
  · exact beside_failAt h rfl

theorem beside_index : Beside S Eq index index := by
  refine .peek_bind fun t u h => (beside_number hS).andThen fun v => ?_
  split
  · exact .pure rfl
  · exact beside_failAt h rfl

theorem beside_commaList {p q : Parser α} (hp : Beside S Eq p q) :
    ∀ fuel, Beside S Eq (commaList p fuel) (commaList q fuel)
  | 0 => hp.andThen fun _ => .pure rfl
  | fuel + 1 => by
    refine hp.andThen fun x => (beside_eat hS .comma).andThen fun comma => ?_
    cases comma with
    | true => exact (beside_commaList hp fuel).andThen fun _ => .pure rfl
    | false => exact .pure rfl

theorem beside_closedList {p q : Parser α} (hp : Beside S Eq p q) : Beside S Eq (closedList p) (closedList q) := by
  have hclose : ∀ xs : List α, Beside S Eq (do let _ ← expect .rparen; return xs)
      (do let _ ← expect .rparen; return xs) := fun xs => (beside_expect hS .rparen).bind fun _ _ _ => .pure rfl
  refine .peek_bind fun t u h => ?_
  have hkind : t.kind = u.kind := congrArg Prod.fst (hS t u h)
  rw [hkind]
  split
  · exact hclose []
  · exact (Beside.remaining_bind fun n => beside_commaList hS hp n).andThen hclose

theorem beside_port : Beside S Eq port port := by
  refine (beside_name hS).andThen fun name => .get_bind fun c d hcd => ?_
  rw [hcd.kind_eq hS, hcd.followedBy_eq hS]
  split
  · refine beside_advance.bind fun _ _ _ => .peek_bind fun t u h => (beside_index hS).andThen fun width => ?_
    dsimp only
    split
    · exact (beside_failAt (R := Eq) h rfl).andThen fun _ => .pure rfl
    · exact .pure rfl
  · exact .pure rfl

theorem beside_range : Beside S Eq range range := by
  have hclose : ∀ r : BitRange, Beside S Eq (do let _ ← expect .rbracket; return r)
      (do let _ ← expect .rbracket; return r) := fun r => (beside_expect hS .rbracket).bind fun _ _ _ => .pure rfl
  refine (beside_index hS).andThen fun i => (beside_eat hS .colon).andThen fun colon => ?_
  cases colon with
  | true => exact ((beside_index hS).andThen fun j => Beside.pure (a := BitRange.slice i j) rfl).andThen hclose
  | false => exact hclose (.bit i)

theorem beside_suffixes : ∀ (fuel : Nat) (e : Expr), Beside S Eq (suffixes fuel e) (suffixes fuel e)
  | 0, _ => .pure rfl
  | fuel + 1, e => by
    refine (beside_eat hS .dot).andThen fun dot => ?_
    cases dot with
    | true => exact (beside_name hS).andThen fun field => beside_suffixes fuel _
    | false =>
      refine (beside_eat hS .lbracket).andThen fun bracket => ?_
      cases bracket with
      | true => exact (beside_range hS).andThen fun r => beside_suffixes fuel _
      | false => exact .pure rfl

theorem beside_primary {args args' : Parser (List Expr)} (hargs : Beside S Eq args args') :
    Beside S Eq (primary args) (primary args') := by
  refine .get_bind fun c d hcd => ?_
  rw [hcd.kind_eq hS, hcd.followedBy_eq hS]
  split
  · refine (beside_name hS).andThen fun name => ?_
    split
    · exact (beside_expect hS .lparen).bind fun _ _ _ => hargs.andThen fun _ => .pure rfl
    · exact .pure rfl
  · exact (beside_number hS).andThen fun _ => .pure rfl
  · exact beside_expected hS _

theorem beside_exprWithin : ∀ fuel, Beside S Eq (exprWithin fuel) (exprWithin fuel)
  | 0 => beside_expected hS _
  | fuel + 1 => (beside_primary hS (beside_closedList hS (beside_exprWithin fuel))).andThen fun e =>
    .remaining_bind fun n => beside_suffixes hS n e

theorem beside_expr : Beside S Eq expr expr := .remaining_bind (beside_exprWithin hS)

theorem beside_statement : Beside S Eq statement statement := by
  have hright : ∀ (name : String) (range? : Option BitRange),
      Beside S Eq (do let _ ← expect .equals; return (⟨⟨name, range?⟩, ← expr⟩ : Statement))
        (do let _ ← expect .equals; return (⟨⟨name, range?⟩, ← expr⟩ : Statement)) := fun name range? =>
    (beside_expect hS .equals).bind fun _ _ _ => (beside_expr hS).andThen fun _ => .pure rfl
  refine (beside_name hS).andThen fun name => (beside_eat hS .lbracket).andThen fun bracket => ?_
  cases bracket with
  | true => exact ((beside_range hS).andThen fun r => Beside.pure (a := some r) rfl).andThen (hright name)
  | false => exact hright name none

theorem beside_statements : ∀ fuel, Beside S Eq (statements fuel) (statements fuel)
  | 0 => .pure rfl
  | fuel + 1 => by
    refine (beside_eat hS .indent).andThen fun indent => ?_
    cases indent with
    | true =>
      exact (beside_statement hS).andThen fun st => (beside_endOfLine hS).andThen fun _ =>
        (beside_statements fuel).andThen fun _ => .pure rfl
    | false => exact .pure rfl

theorem beside_outputs : Beside S Eq outputs outputs := by
  refine (beside_eat hS .lparen).andThen fun paren => ?_
  cases paren with
  | true => exact beside_closedList hS (beside_port hS)
  | false => exact (beside_port hS).andThen fun _ => .pure rfl

theorem beside_module : Beside S Eq module module := by
  refine (beside_expect hS .moduleWord).bind fun _ _ _ => (beside_name hS).andThen fun name => ?_
  refine (beside_expect hS .lparen).bind fun _ _ _ => (beside_closedList hS (beside_port hS)).andThen fun inputs => ?_
  refine (beside_expect hS .arrow).bind fun _ _ _ => (beside_outputs hS).andThen fun outputs => ?_
  refine (beside_expect hS .colon).bind fun _ _ _ => (beside_endOfLine hS).andThen fun _ => ?_
  exact Beside.remaining_bind (f := fun n => do return (⟨name, inputs, outputs, ← statements n⟩ : Module))
    (g := fun n => do return (⟨name, inputs, outputs, ← statements n⟩ : Module)) fun n =>
      (beside_statements hS n).andThen fun _ => .pure rfl

end Phrases

end Parser

/-! ## Streams -/

/-- The same modules were read, and then both streams end or are violated alike. -/
structure Parsed.Beside (S : Token → Token → Prop) (r r' : Parsed) : Prop where
  modules : r.modules = r'.modules
  error : Option.Rel (ParseError.Beside S) r.error r'.error

theorem parseFrom_beside (hS : ∀ t u, S t u → t.word = u.word) : ∀ (fuel : Nat) {c d : Cursor},
    c.Beside S d → (parseFrom fuel c).Beside S (parseFrom fuel d)
  | 0, _, _, _ => ⟨rfl, .none⟩
  | fuel + 1, c, d, h => by
    rw [parseFrom, parseFrom, h.kind_eq hS]
    split
    · exact ⟨rfl, .none⟩
    · have hmodule := Parser.beside_module hS c d h
      generalize Parser.module.run c = r at hmodule ⊢
      generalize Parser.module.run d = r' at hmodule ⊢
      cases hmodule with
      | error herror => exact ⟨rfl, .some herror⟩
      | @ok a b hab =>
        obtain ⟨m, c'⟩ := a
        obtain ⟨m', d'⟩ := b
        obtain ⟨rfl, hrest⟩ := hab
        obtain ⟨hmodules, herror⟩ := parseFrom_beside hS fuel hrest
        exact ⟨congrArg (m :: ·) hmodules, herror⟩

/-- **Two streams that differ in places only are read alike.** -/
theorem parse_beside (hS : ∀ t u, S t u → t.word = u.word) {ts us : List Token} (h : List.Forall₂ S ts us) :
    (parse ts).Beside S (parse us) := by
  cases h with
  | nil => exact ⟨rfl, .none⟩
  | @cons t u ts us htu htus =>
    have hcursor : Cursor.Beside S ⟨t, ts⟩ ⟨u, us⟩ := ⟨htu, htus⟩
    rw [parse, parse, hcursor.remaining_eq]
    exact parseFrom_beside hS _ hcursor

/-- So is their result: the same modules, or violations alike. -/
theorem Parsed.Beside.result {r r' : Parsed} (h : r.Beside S r') :
    Paired (ParseError.Beside S) Eq r.result r'.result := by
  obtain ⟨modules, error⟩ := r
  obtain ⟨modules', error'⟩ := r'
  obtain ⟨rfl, herror⟩ := h
  cases herror with
  | none => exact .ok rfl
  | some herror => exact .error herror

end NandHdl
