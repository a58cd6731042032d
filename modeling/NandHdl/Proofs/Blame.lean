import NandHdl.Proofs.Tracing

/-!
# Violations are reported where they show

A reader that fails reports a token. The tokens in front of it can be completed to a phrase that is read, and
whatever shows the same tokens up to that one and one more fails as well.

* `Parser.Viable`: words that can be completed to a phrase.
* `blames_expr`, `blames_statement`, `blames_module`: every phrase of the grammar.
* `parseFrom_blames`: all modules of a stream.
* `error_is_to_the_point`: **a violation is reported at the token that makes reading impossible.**
-/

namespace NandHdl

open Grammar
open Numeral (IsLiteral)

namespace Parser

variable {α : Type} {p : Parser α} {a : α} {n : Nat}

/-! ## Lists -/

/-- The words can be completed to a phrase. -/
def Viable (P : List Word → α → Prop) (ws : List Word) : Prop := ∃ us a, P (ws ++ us) a

theorem viable_self {P : List Word → α → Prop} {ws : List Word} (h : P ws a) : Viable P ws :=
  ⟨[], a, by rwa [List.append_nil]⟩

/-- What comes first in viable words is viable. -/
theorem Viable.of_append {P : List Word → α → Prop} {ws : List Word} (us : List Word)
    (h : Viable P (ws ++ us)) : Viable P ws := by
  obtain ⟨vs, a, hP⟩ := h
  exact ⟨us ++ vs, a, by rwa [← List.append_assoc]⟩

section Lists

variable {P : List Word → α → Prop} {what : String} {ks : List TokenKind}

theorem blames_commaList (hp : Blames n p (Viable P)) (hreads : Reads 0 n p p fun ws _ a => P ws a) :
    ∀ i, n ≤ i → Blames n (commaList p i) (Viable (CommaList P)) := by
  have hfirst : ∀ ws, Viable P ws → Viable (CommaList P) ws := by
    rintro ws ⟨us, a, h⟩
    exact ⟨us, [a], .one h⟩
  induction n with
  | zero => exact fun _ _ => blames_zero
  | succ n ih =>
    intro i hi
    obtain ⟨i, rfl⟩ := Nat.exists_eq_add_of_lt hi
    have htail := ih (hp.mono (Nat.le_succ n)) (hreads.mono (Nat.le_succ n)) _ (Nat.le_add_right n i)
    refine .bind hreads (hp.imp hfirst) fun a => .eat_bind nofun ?_ (.pure _)
    refine htail.map.imp ?_
    rintro us ⟨vs, as, hvs⟩ s ws ha
    have hmore : CommaList P (ws ++ (.comma, s) :: (us ++ vs)) (a :: as) := .more ha s hvs
    exact ⟨vs, a :: as, by simpa using hmore⟩

theorem blames_closedList (hp : Blames n p (Viable P)) (hreads : Reads 0 n p p fun ws _ a => P ws a)
    (hneeds : Needs what ks p) (hcomma : .comma ∉ ks) :
    Blames n (closedList p) fun us => ∀ s, Viable (Enclosed P) ((.lparen, s) :: us) := by
  have hclose : ∀ as : List α, Blames n (do let _ ← expect .rparen; return as) fun us =>
      ∀ ws, CommaList P ws as → ∀ s, Viable (Enclosed P) ((.lparen, s) :: (ws ++ us)) := by
    intro as
    refine .expect_bind nofun (fun ws hws s => ⟨[(.rparen, "")], as, ?_⟩) fun _ => .pure as
    rw [List.append_nil]
    exact .some s "" hws
  refine .peek_bind fun t => ?_
  split
  · have hnone : Blames n (do let _ ← expect .rparen; return ([] : List α)) fun us =>
        ∀ s, Viable (Enclosed P) ((.lparen, s) :: us) :=
      .expect_bind nofun (fun s => ⟨[(.rparen, "")], [], .none s ""⟩) fun _ => .pure []
    exact hnone
  · refine .bind (reads_list hreads hneeds hneeds hcomma) (.remaining_bind fun m hm i hi => ?_) hclose
    refine (blames_commaList (hp.mono hm) (hreads.mono hm) i hi).imp ?_
    rintro us ⟨vs, as, hvs⟩ s
    refine ⟨vs ++ [(.rparen, "")], as, ?_⟩
    rw [List.cons_append, ← List.append_assoc]
    exact .some s "" hvs

end Lists

/-! ## Ports and ranges -/

theorem isLiteral_one : IsLiteral "1" 1 := Numeral.literal?_eq_some.1 (by decide)

theorem blames_width (name : String) (hV : V []) : Blames n (do
    let t ← peek
    let width ← index
    if width = 0 then failAt t .zeroWidth
    return (⟨name, width⟩ : Port)) V := by
  refine Single.blames (Single.peek_bind single_index fun t width => ?_) hV
  by_cases hwidth : width = 0
  · refine .inr ⟨.zeroWidth, ?_⟩
    rw [if_pos hwidth]
    rfl
  · refine .inl ⟨⟨name, width⟩, ?_⟩
    rw [if_neg hwidth]

theorem blames_port : Blames n port (Viable IsPort) := by
  have hbare : ∀ name : String, Viable IsPort [(.ident, name)] := fun name => viable_self (.bare name)
  have hwide : ∀ name s : String, Viable IsPort [(.ident, name), (.colon, s)] := fun name s =>
    ⟨[(.number, "1")], _, .wide name s isLiteral_one (Nat.le_refl 1) (by decide)⟩
  have hnone : Viable IsPort [] := Viable.of_append [(.ident, "")] (hbare "")
  refine .bind reads_name (single_name.blames hnone) fun name => .get_bind fun c => ?_
  -- whether a width follows shows in the next two tokens
  have htail : ∀ d, c.Like d → (d.kind = .colon && d.followedBy .number) =
      (c.kind = .colon && c.followedBy .number) := fun d hlike => by rw [hlike.kind, hlike.followedBy]
  cases hcolon : (c.kind = .colon && c.followedBy .number) with
  | true =>
    have hwidth : Blames n (do
        let _ ← expect .colon
        let t ← peek
        let width ← index
        if width = 0 then failAt t .zeroWidth
        return (⟨name, width⟩ : Port)) fun us => ∀ ws, ws = [(.ident, name)] → Viable IsPort (ws ++ us) := by
      refine .expect_bind nofun ?_ fun t => blames_width name ?_
      · rintro _ rfl
        exact hbare name
      · rintro _ rfl
        exact hwide name t.value
    refine ⟨_, hwidth, fun d hlike => ?_⟩
    have hd : (d.kind = .colon && d.followedBy .number) = true := (htail d hlike).trans hcolon
    have hkind : d.kind = .colon := of_decide_eq_true (Bool.and_eq_true_iff.1 hd).1
    rw [if_pos hd, StateT.run_bind, StateT.run_bind, run_expect hkind]
    rfl
  | false =>
    refine ⟨_, .pure ⟨name, 1⟩, fun d hlike => ?_⟩
    rw [if_neg (by rw [htail d hlike, hcolon]; decide)]

theorem blames_range : Blames n range fun us => ∀ s, Viable IsRange ((.lbracket, s) :: us) := by
  have hfirst : ∀ s, Viable IsRange [(.lbracket, s)] := fun s =>
    ⟨[(.number, "1"), (.rbracket, "")], _, .bit s "" isLiteral_one (by decide)⟩
  have hclose : ∀ r : BitRange, Blames n (do let _ ← expect .rbracket; return r) fun us =>
      ∀ ws, (∀ t, ∀ s, IsRange ((.lbracket, s) :: (ws ++ [(.rbracket, t)])) r) →
        ∀ s, Viable IsRange ((.lbracket, s) :: (ws ++ us)) := by
    intro r
    refine .expect_bind nofun (fun ws hr s => ⟨[(.rbracket, "")], r, ?_⟩) fun _ => .pure r
    simpa using hr "" s
  have hcolon : ∀ s i text t, IsLiteral text i → i ≤ widthLimit →
      Viable IsRange [(.lbracket, s), (.number, text), (.colon, t)] := fun s i text t hi hle =>
    ⟨[(.number, "1"), (.rbracket, "")], _, .slice s t "" hi isLiteral_one hle (by decide)⟩
  refine .bind reads_index (single_index.blames hfirst) fun i => .eat_bind nofun ?_ ?_
  · have hassoc : (do
        let r ← (do return BitRange.slice i (← index) : Parser BitRange)
        let _ ← expect .rbracket
        return r : Parser BitRange) = (do
        let j ← index
        let _ ← expect .rbracket
        return BitRange.slice i j) := by simp only [bind_assoc, pure_bind]
    change Blames _ (do
        let r ← (do return BitRange.slice i (← index) : Parser BitRange)
        let _ ← expect .rbracket
        return r) _
    rw [hassoc]
    refine .bind reads_index (single_index.blames ?_) fun j =>
      ((hclose (.slice i j)).mono (Nat.sub_le n 1)).imp ?_
    · rintro t _ ⟨text, rfl, hi, hle⟩ s
      exact hcolon s i text t hi hle
    · rintro us hus _ ⟨text', rfl, hj, hle'⟩ t _ ⟨text, rfl, hi, hle⟩ s
      exact hus [(.number, text), (.colon, t), (.number, text')] (fun u s => .slice s t u hi hj hle hle') s
  · refine (hclose (.bit i)).imp ?_
    rintro us hus ws ⟨text, rfl, hi, hle⟩ s
    exact hus [(.number, text)] (fun t s => .bit s t hi hle) s

/-! ## Expressions -/

theorem blames_suffixes : ∀ (i : Nat) (e : Expr), n ≤ i →
    Blames n (suffixes i e) fun us => ∀ vs e, IsExpr vs e → Viable IsExpr (vs ++ us) := by
  have hstop : ∀ vs e, IsExpr vs e → Viable IsExpr (vs ++ []) := fun vs e h => by
    rw [List.append_nil]
    exact viable_self h
  induction n with
  | zero => exact fun _ _ _ => blames_zero
  | succ n ih =>
    intro i e hi
    obtain ⟨i, rfl⟩ := Nat.exists_eq_add_of_lt hi
    refine .eat_bind nofun ?_ (.eat_bind nofun ?_ (.pure e))
    · have hdot : ∀ s, ∀ vs e, IsExpr vs e → Viable IsExpr (vs ++ [(.dot, s)]) := fun s vs e h =>
        ⟨[(.ident, "")], _, by simpa using .member h s ""⟩
      refine .bind reads_name (single_name.blames hdot) fun field =>
        (ih (n + i) (.member e field) (Nat.le_add_right n i)).imp ?_
      rintro us hus _ rfl s vs e h
      simpa using hus _ _ (.member h s field)
    · refine .bind reads_range (blames_range.imp ?_) fun r =>
        (ih (n + i) (.select e r) (Nat.le_add_right n i)).imp ?_
      · intro us hus s vs e h
        obtain ⟨us', r, hr⟩ := hus s
        exact ⟨us', _, by simpa using .select h hr⟩
      · intro us hus ws hr s vs e h
        simpa using hus _ _ (.select h (hr s))

theorem blames_primary {args : Parser (List Expr)}
    (hargs : Blames n args fun us => ∀ s, Viable (Enclosed IsExpr) ((.lparen, s) :: us)) :
    Blames (n + 1) (primary args) (Viable IsExpr) := by
  have hname : ∀ name : String, Viable IsExpr [(.ident, name)] := fun name => viable_self (.identifier name)
  have hnone : Viable IsExpr [] := Viable.of_append [(.ident, "")] (hname "")
  refine .get_bind fun c => ?_
  by_cases hident : c.kind = .ident
  · cases hparen : c.followedBy .lparen with
    | true =>
      have hcall : Blames (n + 1) (do let name ← name; let _ ← expect .lparen; return Expr.call name (← args))
          (Viable IsExpr) := by
        simp only [name, bind_assoc, pure_bind]
        refine .expect_bind nofun hnone fun t => .expect_bind nofun (hname t.value) fun paren => ?_
        refine (hargs.mono (Nat.sub_le n 1)).map.imp fun us hus => ?_
        obtain ⟨vs, as, h⟩ := hus paren.value
        exact ⟨vs, _, .call t.value h⟩
      refine ⟨_, hcall, fun d hlike => ?_⟩
      have hkind : d.kind = .ident := hlike.kind.trans hident
      simp only [hkind, hlike.followedBy, hparen]
      rfl
    | false =>
      have hidentifier : Blames (n + 1) (do return Expr.identifier (← name)) (Viable IsExpr) :=
        (single_name.blames hnone).map
      refine ⟨_, hidentifier, fun d hlike => ?_⟩
      have hkind : d.kind = .ident := hlike.kind.trans hident
      simp only [hkind, hlike.followedBy, hparen]
      rfl
  · by_cases hnumber : c.kind = .number
    · have hliteral : Blames (n + 1) (do return Expr.number (← number)) (Viable IsExpr) :=
        (single_number.blames hnone).map
      refine ⟨_, hliteral, fun d hlike => ?_⟩
      have hkind : d.kind = .number := hlike.kind.trans hnumber
      simp only [hkind]
    · refine ⟨expected "expression", (single_expected "expression").blames hnone, fun d hlike => ?_⟩
      rw [hlike.kind]
      split
      · next h => exact absurd h hident
      · next h => exact absurd h hnumber
      · rfl

theorem blames_exprWithin : ∀ i, n ≤ i → Blames n (exprWithin i) (Viable IsExpr) := by
  induction n with
  | zero => exact fun _ _ => blames_zero
  | succ n ih =>
    intro i hi
    obtain ⟨i, rfl⟩ := Nat.exists_eq_add_of_lt hi
    have hreads : Reads 0 n (exprWithin (n + i)) (exprWithin (n + i)) fun ws _ e => IsExpr ws e :=
      reads_exprWithin _ _ (Nat.le_add_right n i) (Nat.le_add_right n i)
    have hargs := blames_closedList (ih (n + i) (Nat.le_add_right n i)) hreads (needs_exprWithin _) (by decide)
    have hreads' := reads_closedList hreads (needs_exprWithin _) (needs_exprWithin _) (by decide)
    refine .bind (reads_primary hreads') (blames_primary hargs) fun e =>
      .remaining_bind fun m _ j hj => (blames_suffixes j e hj).imp ?_
    exact fun us hus ws h => hus ws e h

theorem blames_expr : Blames n expr (Viable IsExpr) := .remaining_bind fun _ _ i hi => blames_exprWithin i hi

/-! ## Statements and modules -/

theorem blames_right (target : Target) {W : List Word → Prop} (hnone : W [])
    (hright : ∀ s ws, Viable IsExpr ws → W ((.equals, s) :: ws)) :
    Blames n (do let _ ← expect .equals; return (⟨target, ← expr⟩ : Statement)) W :=
  .expect_bind nofun hnone fun t => (blames_expr.map).imp (hright t.value)

theorem blames_statement : Blames n statement (Viable IsStatement) := by
  have hwhole : ∀ name s ws, Viable IsExpr ws → Viable IsStatement ((.ident, name) :: (.equals, s) :: ws) := by
    rintro name s ws ⟨us, e, h⟩
    exact ⟨us, _, .whole name s h⟩
  have hpart : ∀ name vs r s ws, IsRange vs r → Viable IsExpr ws →
      Viable IsStatement ((.ident, name) :: (vs ++ (.equals, s) :: ws)) := by
    rintro name vs r s ws hr ⟨us, e, h⟩
    exact ⟨us, _, by simpa using IsStatement.part name s hr h⟩
  have hexpr : Viable IsExpr [] := ⟨[(.ident, "")], _, .identifier ""⟩
  have hranged : ∀ name vs r, IsRange vs r → Viable IsStatement ((.ident, name) :: vs) := fun name vs r hr =>
    Viable.of_append [(.equals, "")] (hpart name vs r "" [] hr hexpr)
  have hname : ∀ name, Viable IsStatement [(.ident, name)] := fun name =>
    Viable.of_append [(.equals, "")] (hwhole name "" [] hexpr)
  have hnone : Viable IsStatement [] := Viable.of_append [(.ident, "")] (hname "")
  refine .bind reads_name (single_name.blames hnone) fun name => .eat_bind nofun ?_ ?_
  · have hassoc : (do
        let range? ← (do return some (← range) : Parser (Option BitRange))
        let _ ← expect .equals
        return (⟨⟨name, range?⟩, ← expr⟩ : Statement) : Parser Statement) = (do
        let r ← range
        let _ ← expect .equals
        return (⟨⟨name, some r⟩, ← expr⟩ : Statement)) := by simp only [bind_assoc, pure_bind]
    change Blames _ (do
        let range? ← (do return some (← range) : Parser (Option BitRange))
        let _ ← expect .equals
        return (⟨⟨name, range?⟩, ← expr⟩ : Statement)) _
    rw [hassoc]
    refine .bind reads_range (blames_range.imp ?_) fun r => blames_right ⟨name, some r⟩ ?_ ?_
    · rintro us hus s _ rfl
      obtain ⟨vs, r, hr⟩ := hus s
      exact (hranged name _ r hr).of_append vs
    · rintro ws hr s _ rfl
      rw [List.append_nil]
      exact hranged name _ r (hr s)
    · rintro t us hus ws hr s _ rfl
      exact hpart name _ r t us (hr s) hus
  · refine blames_right ⟨name, none⟩ ?_ ?_
    · rintro _ rfl
      exact hname name
    · rintro s us hus _ rfl
      exact hwhole name s us hus

/-- Words in a body that can be completed to it, whatever follows. -/
theorem blames_statements : ∀ i, n ≤ i →
    Blames n (statements i) (Viable fun ws ts => ∀ rest, IsBody ws rest ts) := by
  induction n with
  | zero => exact fun _ _ => blames_zero
  | succ n ih =>
    intro i hi
    obtain ⟨i, rfl⟩ := Nat.exists_eq_add_of_lt hi
    have hline : ∀ s ws t, IsStatement ws t →
        Viable (fun ws ts => ∀ rest, IsBody ws rest ts) ((.indent, s) :: ws) := by
      intro s ws t h
      refine ⟨[(.newline, "")], [t], fun rest => ?_⟩
      simpa using IsBody.cons s h (.newline "" _) (.nil rest)
    refine .eat_bind nofun ?_ (.pure [])
    refine .bind reads_statement (blames_statement.imp ?_) fun t => .endOfLine_bind ?_ ?_
    · rintro us ⟨vs, t, h⟩ s
      exact (hline s _ t h).of_append vs
    · intro ws h s
      rw [List.append_nil]
      exact hline s ws t h
    · refine (ih (n + i) (Nat.le_add_right n i)).map.imp ?_
      rintro us ⟨vs, ts, hts⟩ s ws h s'
      refine ⟨vs, t :: ts, fun rest => ?_⟩
      simpa using IsBody.cons s' h (.newline s _) (hts rest)

theorem blames_outputs : Blames n outputs (Viable AreOutputs) := by
  refine .eat_bind nofun ?_ ?_
  · refine (blames_closedList blames_port reads_port needs_port (by decide)).imp ?_
    intro us hus s
    obtain ⟨vs, ps, h⟩ := hus s
    exact ⟨vs, ps, .enclosed h⟩
  · refine blames_port.map.imp ?_
    rintro us ⟨vs, p, h⟩
    exact ⟨vs, [p], .single h⟩

/-- Words that can be completed to a module, whatever follows. -/
abbrev BeginsModule : List Word → Prop := Viable fun ws m => ∀ rest, IsModule ws rest m

/-- The words that a module may start with, from the whole header down to nothing. -/
theorem beginsModule_body {is os ws : List Word} {inputs outputs : List Port} (s name t u v : String)
    (hi : Enclosed IsPort is inputs) (ho : AreOutputs os outputs)
    (hws : Viable (fun ws ts => ∀ rest, IsBody ws rest ts) ws) :
    BeginsModule ((.moduleWord, s) :: (.ident, name) ::
      (is ++ (.arrow, t) :: (os ++ (.colon, u) :: (.newline, v) :: ws))) := by
  obtain ⟨us, ts, hts⟩ := hws
  refine ⟨us, ⟨name, inputs, outputs, ts⟩, fun rest => ?_⟩
  simpa using IsModule.intro s name t u hi ho (.newline v _) (hts rest)

theorem beginsModule_colon {is os : List Word} {inputs outputs : List Port} (s name t u : String)
    (hi : Enclosed IsPort is inputs) (ho : AreOutputs os outputs) :
    BeginsModule ((.moduleWord, s) :: (.ident, name) :: (is ++ (.arrow, t) :: (os ++ [(.colon, u)]))) := by
  have hbody := beginsModule_body s name t u "" hi ho (viable_self fun rest => .nil rest)
  exact Viable.of_append [(.newline, "")] (by simpa using hbody)

theorem beginsModule_outputs {is os : List Word} {inputs : List Port} (s name t : String)
    (hi : Enclosed IsPort is inputs) (ho : Viable AreOutputs os) :
    BeginsModule ((.moduleWord, s) :: (.ident, name) :: (is ++ (.arrow, t) :: os)) := by
  obtain ⟨us, outputs, ho⟩ := ho
  have hcolon := beginsModule_colon s name t "" hi ho
  exact Viable.of_append (us ++ [(.colon, "")]) (by simpa using hcolon)

theorem beginsModule_inputs {is : List Word} (s name : String) (hi : Viable (Enclosed IsPort) is) :
    BeginsModule ((.moduleWord, s) :: (.ident, name) :: is) := by
  obtain ⟨us, inputs, hi⟩ := hi
  have houtputs := beginsModule_outputs s name "" hi (viable_self (.single (.bare "")))
  exact Viable.of_append (us ++ [(.arrow, ""), (.ident, "")]) (by simpa using houtputs)

theorem beginsModule_name (s name : String) : BeginsModule [(.moduleWord, s), (.ident, name)] :=
  beginsModule_inputs s name ⟨[(.lparen, ""), (.rparen, "")], [], .none "" ""⟩

theorem beginsModule_moduleWord (s : String) : BeginsModule [(.moduleWord, s)] :=
  Viable.of_append [(.ident, "")] (beginsModule_name s "")

theorem blames_module : Blames n module BeginsModule := by
  have hports := blames_closedList (n := n) blames_port reads_port needs_port (by decide)
  have hreads := reads_closedList (n := n) reads_port needs_port needs_port (by decide)
  refine .expect_bind nofun (Viable.of_append [(.moduleWord, "")] (beginsModule_moduleWord "")) fun s => ?_
  refine Blames.mono ?_ (Nat.sub_le n 1)
  refine .bind reads_name (single_name.blames (beginsModule_moduleWord s.value)) fun name => ?_
  refine .expect_bind nofun ?_ fun t => Blames.mono ?_ (Nat.sub_le n 1)
  · rintro _ rfl
    exact beginsModule_name s.value name
  refine .bind hreads (hports.imp ?_) fun inputs => .expect_bind nofun ?_ fun u => Blames.mono ?_ (Nat.sub_le n 1)
  · rintro us hus _ rfl
    exact beginsModule_inputs s.value name (hus t.value)
  · rintro ws hws _ rfl
    rw [List.append_nil]
    exact beginsModule_inputs s.value name (viable_self (hws t.value))
  refine .bind reads_outputs (blames_outputs.imp ?_) fun outputs => .expect_bind nofun ?_ fun v =>
    Blames.mono ?_ (Nat.sub_le n 1)
  · rintro us hus ws hws _ rfl
    exact beginsModule_outputs s.value name u.value (hws t.value) hus
  · rintro os hos ws hws _ rfl
    rw [List.append_nil]
    exact beginsModule_outputs s.value name u.value (hws t.value) (viable_self hos)
  refine .endOfLine_bind ?_ (.remaining_bind (f := fun k => do
    return (⟨name, inputs, outputs, ← statements k⟩ : Module)) fun m _ i hi => ?_)
  · rintro os hos ws hws _ rfl
    exact beginsModule_colon s.value name u.value v.value (hws t.value) hos
  · refine (blames_statements i hi).map.imp ?_
    rintro us hus s' os hos ws hws _ rfl
    exact beginsModule_body s.value name u.value v.value s' (hws t.value) hos hus

end Parser

/-! ## Streams -/

namespace Grammar

variable {ws us vs rest : List Word} {ts : List Statement} {m : Module}

/-- If the text goes on behind a body, the line in front of the body ends by a line break. -/
theorem EndsLine.before_any (h : EndsLine us (vs ++ rest)) (hbody : IsBody vs rest ts)
    (hgoes : ∀ s ws, rest ≠ (.eof, s) :: ws) (rest' : List Word) : EndsLine us (vs ++ rest') := by
  generalize hfollows : vs ++ rest = follows at h
  cases h with
  | newline s _ => exact .newline s _
  | eof s ws =>
    cases hbody with
    | nil _ => exact absurd hfollows (hgoes s ws)
    | cons _ _ _ _ => cases hfollows

/-- If the text goes on behind a body, anything may stand there. -/
theorem IsBody.before_any (h : IsBody ws rest ts) (hgoes : ∀ s ws, rest ≠ (.eof, s) :: ws) (rest' : List Word) :
    IsBody ws rest' ts := by
  induction h with
  | nil rest => exact .nil rest'
  | cons s hs hend hts ih => exact .cons s hs (hend.before_any hts hgoes rest') (ih hgoes)

theorem IsModule.before_any (h : IsModule ws rest m) (hgoes : ∀ s ws, rest ≠ (.eof, s) :: ws)
    (rest' : List Word) : IsModule ws rest' m := by
  cases h with
  | intro s name t u hi ho hend hts =>
    exact .intro s name t u hi ho (hend.before_any hts hgoes rest') (hts.before_any hgoes rest')

end Grammar

/-- Nothing is wrong with the end of the text where a module would have to start. -/
theorem kind_ne_eof_of_error {fuel : Nat} {c : Cursor} {e : ParseError} (h : (parseFrom fuel c).error = some e) :
    c.kind ≠ .eof := by
  intro heof
  cases fuel with
  | zero => cases h
  | succ fuel =>
    rw [parseFrom, if_pos heof] at h
    cases h

/-- **All modules of a stream.** The words in front of the token that is reported can be completed to a design. -/
theorem parseFrom_blames {e : ParseError} : ∀ (fuel : Nat) (c : Cursor), c.Ends →
    (parseFrom fuel c).error = some e →
    ∃ ts c', c.Passes ts c' ∧ e.pos = c'.current.pos ∧ Parser.Viable IsDesign (ts.map Token.word) ∧
      ∀ d d', d.Passes ts d' → c'.Like d' → ∃ e', (parseFrom fuel d).error = some e' := by
  intro fuel
  induction fuel with
  | zero => exact fun c _ h => nomatch h
  | succ fuel ih =>
    intro c he h
    have heof := kind_ne_eof_of_error h
    have hreads : ∀ m c' ts, Parser.module.run c = .ok (m, c') → c.Passes ts c' →
        IsModule (ts.map Token.word) c'.cut.words m := fun m c' ts hrun hpass =>
      (Parser.reads_module (n := c.remaining)).passed (Nat.le_refl _) he hrun hpass
    have hmodule := Parser.blames_module c (Nat.le_refl _) he
    rw [parseFrom, if_neg heof] at h
    generalize hrun : Parser.module.run c = r at h hmodule
    cases hmodule with
    | @error e' c' ts hpass hpos hviable hagain =>
      cases h
      refine ⟨ts, c', hpass, hpos, ?_, fun d d' hd hlike => ?_⟩
      · obtain ⟨us, m, hm⟩ := hviable
        have hdesign := IsDesign.cons (hm [(.eof, "")]) (.nil "")
        exact ⟨us ++ [(.eof, "")], [m], by rwa [← List.append_assoc]⟩
      · obtain ⟨e', he'⟩ := hagain d d' hd hlike
        have hkind : d.kind ≠ .eof := (hlike.of_passes hpass hd).kind ▸ heof
        exact ⟨e', by rw [parseFrom, if_neg hkind, he']⟩
    | @ok m c' ts hpass hagain =>
      have hrest : (parseFrom fuel c').error = some e := h
      obtain ⟨us, c'', hus, hpos, ⟨vs, ms, hms⟩, hagain'⟩ := ih c' (hpass.ends he) hrest
      refine ⟨ts ++ us, c'', hpass.trans hus, hpos, ⟨vs, m :: ms, ?_⟩, fun d d'' hd hlike => ?_⟩
      · -- the module that was read goes on to be one in front of the completed words
        have hgoes : ∀ s ws, c'.cut.words ≠ (.eof, s) :: ws := by
          intro s ws hwords
          have hkind : c'.kind = .eof := congrArg Prod.fst (List.cons.inj hwords).1
          exact kind_ne_eof_of_error hrest hkind
        have hm := (hreads m c' ts hrun hpass).before_any hgoes (us.map Token.word ++ vs)
        rw [List.map_append, List.append_assoc]
        exact .cons hm hms
      · obtain ⟨d', hd', hd''⟩ := hd.split
        have hlike' : c'.Like d' := hlike.of_passes hus hd''
        obtain ⟨e', he'⟩ := hagain' d' d'' hd'' hlike
        have hkind : d.kind ≠ .eof := (hlike'.of_passes hpass hd').kind ▸ heof
        exact ⟨e', by rw [parseFrom, if_neg hkind, hagain d d' hd' hlike']; exact he'⟩

/-- Tokens behind the end of the text do not matter. -/
theorem parse_append {ts : List Token} (h : ∃ t ∈ ts, t.kind = .eof) (us : List Token) :
    parse (ts ++ us) = parse ts := by
  obtain ⟨t, ht, heof⟩ := h
  obtain ⟨before, behind, rfl⟩ := List.append_of_mem ht
  rw [← parse_uptoEof, ← parse_uptoEof (before ++ t :: behind), List.append_assoc, List.cons_append,
    uptoEof_append heof before (behind ++ us), uptoEof_append heof before behind]

theorem Parsed.result_eq_error {r : Parsed} {e : ParseError} : r.result = .error e ↔ r.error = some e := by
  obtain ⟨modules, error⟩ := r
  cases error <;> simp [result]

theorem starts_of_viable {ts : List Token} (h : Parser.Viable IsDesign (ts.map Token.word)) :
    ∃ us ms, (parse (ts ++ us)).result = .ok ms := by
  obtain ⟨ws, ms, hms⟩ := h
  let us : List Token := ws.map fun w => ⟨w.1, w.2, .start⟩
  have hus : us.map Token.word = ws := by
    rw [List.map_map]
    exact List.map_id ws
  refine ⟨us, ms, Parsed.result_eq_ok.2 ?_⟩
  have hwords : (ts ++ us).map Token.word = ts.map Token.word ++ ws := by rw [List.map_append, hus]
  have hlen := length_lt_of_isDesign hms
  rw [← hwords] at hms hlen
  rw [List.length_map] at hlen
  cases hstream : ts ++ us with
  | nil =>
    rw [hstream] at hlen
    cases hlen
  | cons t rest =>
    rw [hstream] at hms hlen
    exact parseFrom_of_isDesign hms rfl hlen

section Streams

variable {ts us behind : List Token} {t : Token} {e : ParseError}

/-- **The stream falls into what can be completed and what is reported**, and with `padding` behind its end it
looks like other streams of that length. -/
theorem error_split (hends : ∃ t ∈ ts, t.kind = .eof) (h : (parse ts).error = some e) (padding : List Token) :
    ∃ us t behind, ts = us ++ t :: behind ∧ (∀ u ∈ us, u.kind ≠ .eof) ∧ e.pos = t.pos ∧
      Parser.Viable IsDesign (us.map Token.word) ∧
      ∀ d later, d.Passes us ⟨t, later⟩ → Cursor.Like ⟨t, behind ++ padding⟩ ⟨t, later⟩ →
        ∃ e', (parseFrom (ts ++ padding).length d).error = some e' := by
  rw [← parse_append hends padding] at h
  obtain ⟨u, hu, heof⟩ := hends
  obtain ⟨t, rest, rfl⟩ := List.exists_cons_of_ne_nil (List.ne_nil_of_mem hu)
  obtain ⟨us, c', hpass, hpos, hviable, hagain⟩ :=
    parseFrom_blames _ ⟨t, rest ++ padding⟩ ⟨u, List.mem_append_left padding hu, heof⟩ h
  have htokens : t :: rest ++ padding = us ++ c'.tokens := hpass.tokens
  have hshort : us.length < (t :: rest).length := by
    by_contra hlong
    have hstart : t :: rest <+: us := List.prefix_of_prefix_length_le (List.prefix_append _ padding)
      (htokens ▸ List.prefix_append us c'.tokens) (Nat.le_of_not_lt hlong)
    exact hpass.inside u (hstart.subset hu) heof
  obtain ⟨tail, htail⟩ : us <+: t :: rest := List.prefix_of_prefix_length_le
    (htokens ▸ List.prefix_append us c'.tokens) (List.prefix_append _ padding) (Nat.le_of_lt hshort)
  cases tail with
  | nil =>
    rw [List.append_nil] at htail
    exact absurd (congrArg List.length htail) (Nat.ne_of_lt hshort)
  | cons v behind =>
    rw [← htail, List.append_assoc] at htokens
    have hc' : c' = ⟨v, behind ++ padding⟩ := Cursor.eq_of_tokens (List.append_cancel_left htokens).symm
    subst hc'
    exact ⟨us, v, behind, htail.symm, hpass.inside, hpos, hviable, fun d later hd hlike => hagain d _ hd hlike⟩

/-- A stream with tokens behind it is not read, so it is not read without them. -/
theorem error_of_append (hne : us ≠ []) (h : (parse (us ++ behind)).error = some e) :
    ∃ e', (parse us).result = .error e' := by
  cases herror : (parse us).error with
  | some e' => exact ⟨e', Parsed.result_eq_error.2 herror⟩
  | none =>
    obtain ⟨t, rest, rfl⟩ := List.exists_cons_of_ne_nil hne
    rw [parse_append (isDesign_of_parse herror).1, herror] at h
    cases h

end Streams

/-- A token that is reported, and the start of a design in front of it. -/
structure PointedAt (ts : List Token) (e : ParseError) (k : Nat) : Prop where
  position : ∃ t, ts[k]? = some t ∧ e.pos = t.pos
  viable : ∃ us ms, (parse (ts.take k ++ us)).result = .ok ms

/-- The token that is reported, as it shows to streams of one length. -/
theorem pointedAt_of_error {ts : List Token} {e : ParseError} (hends : ∃ t ∈ ts, t.kind = .eof)
    (h : (parse ts).error = some e) (length : Nat) :
    ∃ k, PointedAt ts e k ∧ ∀ us, us.length = length → ts.take (k + 2) <+: us →
      ∃ e', (parse us).result = .error e' := by
  obtain ⟨padding, hpadding⟩ : ∃ padding : List Token, padding.length = length :=
    ⟨List.replicate length ⟨.eof, "", .start⟩, List.length_replicate⟩
  obtain ⟨us, t, behind, rfl, hinside, hpos, hviable, hagain⟩ := error_split hends h padding
  refine ⟨us.length, ⟨⟨t, by simp, hpos⟩, ?_⟩, ?_⟩
  · rw [List.take_left]
    exact starts_of_viable hviable
  rintro _ hlength ⟨later, rfl⟩
  rw [List.take_length_add_append, List.append_assoc] at hlength ⊢
  by_cases heof : t.kind = .eof
  · -- the text ends at the reported token, so both streams are the same up to their end
    have hsame : ∀ later', parse (us ++ t :: later') = parse (us ++ [t]) := fun later' => by
      have hmem : ∃ u ∈ us ++ [t], u.kind = .eof := ⟨t, by simp, heof⟩
      rw [← parse_append hmem later', List.append_assoc]
      rfl
    rw [hsame] at h
    refine ⟨e, Parsed.result_eq_error.2 ?_⟩
    rw [List.take_succ_cons, List.cons_append, hsame]
    exact h
  · obtain ⟨u, hu, hueof⟩ := hends
    have hbehind : u ∈ behind := by
      rcases List.mem_append.1 hu with hu | hu
      · exact absurd hueof (hinside u hu)
      · rcases List.mem_cons.1 hu with rfl | hu
        · exact absurd hueof heof
        · exact hu
    obtain ⟨v, behind, rfl⟩ := List.exists_cons_of_ne_nil (List.ne_nil_of_mem hbehind)
    -- with as much behind it as the first stream has, the second one is as long as that with its padding
    let more := List.replicate (us ++ t :: v :: behind).length t
    have hlong : (us ++ (t :: v :: later) ++ more).length = (us ++ t :: v :: behind ++ padding).length := by
      have hlater : us.length + (later.length + 2) = length := by
        rw [← hlength, List.length_append, List.length_append]
        exact congrArg (us.length + ·) (Nat.add_comm later.length 2)
      simp only [more, List.length_append, List.length_cons, List.length_replicate]
      omega
    obtain ⟨t', rest, hd⟩ := List.exists_cons_of_ne_nil (by simp : us ++ (t :: v :: later) ++ more ≠ [])
    have hpass : Cursor.Passes ⟨t', rest⟩ us ⟨t, v :: later ++ more⟩ := by
      refine ⟨?_, hinside⟩
      rw [Cursor.tokens, ← hd, List.append_assoc]
      rfl
    have hlike : Cursor.Like ⟨t, v :: behind ++ padding⟩ ⟨t, v :: later ++ more⟩ := by
      refine ⟨rfl, ?_⟩
      simp only [Cursor.tokens, List.length_append, List.length_cons] at hlong ⊢
      omega
    obtain ⟨e', he'⟩ := hagain _ _ hpass hlike
    have hparse : parse (us ++ (t :: v :: later) ++ more) =
        parseFrom (us ++ t :: v :: behind ++ padding).length ⟨t', rest⟩ := by
      rw [← hlong, hd]
      rfl
    rw [← hparse] at he'
    exact error_of_append (by simp) he'

/-- **A violation is reported at the token that makes reading impossible.** In a stream with an end, the tokens in
front of the one that is reported are the start of a stream that is read. And no stream is read that shows the same
tokens up to that one and the next. -/
theorem error_is_to_the_point (ts : List Token) (e : ParseError) (hends : ∃ t ∈ ts, t.kind = .eof)
    (h : (parse ts).result = .error e) :
    ∃ k t, ts[k]? = some t ∧ e.pos = t.pos ∧
      (∃ us ms, (parse (ts.take k ++ us)).result = .ok ms) ∧
      ∀ us, ts.take (k + 2) <+: us → ∃ e', (parse us).result = .error e' := by
  classical
  have herror : (parse ts).error = some e := Parsed.result_eq_error.1 h
  have hbound : ∀ k, PointedAt ts e k → k ≤ ts.length := by
    rintro k ⟨⟨t, ht, -⟩, -⟩
    exact Nat.le_of_lt (List.getElem?_eq_some_iff.1 ht).1
  -- should several tokens have the position of the error, the last one with a start in front of it will do
  let k := Nat.findGreatest (PointedAt ts e) ts.length
  have hlast : ∀ j, PointedAt ts e j → j ≤ k := fun j hj => Nat.le_findGreatest (hbound j hj) hj
  have hk : PointedAt ts e k := by
    obtain ⟨j, hj, -⟩ := pointedAt_of_error hends herror 0
    exact Nat.findGreatest_spec (hbound j hj) hj
  obtain ⟨⟨t, ht, hpos⟩, hviable⟩ := hk
  refine ⟨k, t, ht, hpos, hviable, fun us hus => ?_⟩
  obtain ⟨j, hj, hblocked⟩ := pointedAt_of_error hends herror us.length
  have hle : j ≤ k := hlast j hj
  exact hblocked us rfl ((List.take_prefix_take_left (by omega)).trans hus)

/-- A header in which no width follows the colon behind `a`. -/
def unfinishedPort : List Token :=
  [⟨.moduleWord, "module", ⟨1, 1⟩⟩, ⟨.ident, "m", ⟨1, 8⟩⟩, ⟨.lparen, "(", ⟨1, 9⟩⟩, ⟨.ident, "a", ⟨1, 10⟩⟩,
    ⟨.colon, ":", ⟨1, 11⟩⟩, ⟨.rparen, ")", ⟨1, 12⟩⟩, ⟨.arrow, "->", ⟨1, 14⟩⟩, ⟨.ident, "b", ⟨1, 17⟩⟩,
    ⟨.colon, ":", ⟨1, 18⟩⟩, ⟨.eof, "", ⟨2, 1⟩⟩]

/-- The colon is reported, not what stands in the place of the width. The closing parenthesis behind it is the one
token more that has to be looked at: behind `a:1` the text could go on. -/
theorem unfinishedPort_error : (∃ t ∈ unfinishedPort, t.kind = .eof) ∧
    (parse unfinishedPort).result = .error ⟨.expected "RPAREN" ⟨.colon, ":", ⟨1, 11⟩⟩, ⟨1, 11⟩⟩ ∧
    ∃ k t, unfinishedPort[k]? = some t ∧ (⟨1, 11⟩ : Position) = t.pos ∧
      (∃ us ms, (parse (unfinishedPort.take k ++ us)).result = .ok ms) ∧
      ∀ us, unfinishedPort.take (k + 2) <+: us → ∃ e', (parse us).result = .error e' := by
  have hends : ∃ t ∈ unfinishedPort, t.kind = .eof := ⟨⟨.eof, "", ⟨2, 1⟩⟩, by decide, rfl⟩
  have herror : (parse unfinishedPort).result =
      .error ⟨.expected "RPAREN" ⟨.colon, ":", ⟨1, 11⟩⟩, ⟨1, 11⟩⟩ := by rfl
  exact ⟨hends, herror, error_is_to_the_point _ _ hends herror⟩

end NandHdl
