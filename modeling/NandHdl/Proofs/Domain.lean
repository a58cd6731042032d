import NandHdl.Proofs.Numbering
import NandHdl.Proofs.Parsing
import NandHdl.Proofs.Printing
import NandHdl.Proofs.Stretches
import NandHdl.Toolchain

/-!
# What later stages may rely on

Names are checked where a text is cut into tokens, widths and bit numbers one by one where tokens are read.
Elaboration checks the numbers again, over the finished modules.

* `Word.Named`: among the words, what is read as a name is one.
* `legible_of_isDesign`: phrases made of such words have good names and numbers, at any depth.
* `Expr.Mentions`, `Module.Mentions`: the ranges that a phrase contains somewhere.
* `maxIndex_le_iff`: **the check over a finished module bounds each of its numbers**, and nothing else.
* `readSource_legible`: **what is read from a text passes that check.**
-/

namespace NandHdl

open Grammar
open Lexeme (IsName)

/-! ## Names -/

/-- What is a name by its kind is one by its letters. -/
def Word.Named (ws : List Word) : Prop := ∀ w ∈ ws, w.1 = .ident → IsName w.2

theorem Word.Named.mono {ws us : List Word} (h : Word.Named ws) (hsub : us ⊆ ws) : Word.Named us :=
  fun w hw => h w (hsub hw)

theorem Word.Named.head {name : String} {ws : List Word} (h : Word.Named ((.ident, name) :: ws)) :
    IsName name :=
  h (.ident, name) List.mem_cons_self rfl

theorem Token.Spells.isName {cs rest : List Char} (h : Token.Spells .ident cs rest) :
    IsName (String.ofList cs) := by
  cases h with
  | ident hc hcs hne =>
    refine ⟨?_, ?_, fun heq => hne ?_⟩
    · rw [String.toList_ofList]
      exact hc
    · rw [String.toList_ofList, List.all_cons, Bool.and_eq_true]
      exact ⟨Lexeme.continuesName_of_startsName hc, List.all_eq_true.2 hcs.all⟩
    · rw [← heq, String.toList_ofList]
  | mark h =>
    unfold Lexeme.punctuation? at h
    split at h <;> cases h

/-- **The names among the tokens of a text are names.** -/
theorem Token.named_ofText {source : String} {tokens : List Token} (h : Token.ofText source = .ok tokens) :
    Word.Named (tokens.map Token.word) := by
  obtain ⟨xs, hchained, rfl⟩ := ofText_eq_ok h
  intro w hw hkind
  obtain ⟨t, ht, rfl⟩ := List.mem_map.1 hw
  rcases List.mem_append.1 ht with ht | ht
  · rw [← Lexeme.placed_tokens xs .outside 0] at ht
    obtain ⟨p, hp, rfl⟩ := List.mem_map.1 ht
    have hspells := (Lexeme.standsAt_placed hchained .outside [] rfl p hp).2.spells
    rw [show p.2.kind = .ident from hkind] at hspells
    have hname := hspells.isName
    rwa [String.ofList_toList] at hname
  · rw [List.mem_singleton.1 ht] at hkind
    cases hkind

theorem uptoEof_subset (ts : List Token) : uptoEof ts ⊆ ts := by
  induction ts with
  | nil => exact fun _ h => h
  | cons t ts ih =>
    intro u hu
    rw [uptoEof, List.mem_cons] at hu
    rcases hu with rfl | hu
    · exact List.mem_cons_self
    · split at hu
      · cases hu
      · exact List.mem_cons_of_mem t (ih hu)

/-! ## Phrases -/

section Phrases

variable {α : Type} {p : List Word → α → Prop} {ws : List Word} {as : List α}

/-- An item of a list is a phrase in it. -/
theorem Grammar.CommaList.item (h : CommaList p ws as) : ∀ a ∈ as, ∃ us, p us a ∧ us <:+: ws := by
  induction h with
  | @one ws a h =>
    intro b hb
    rw [List.mem_singleton.1 hb]
    exact ⟨ws, h, List.infix_rfl⟩
  | @more ws us a as h s _ ih =>
    intro b hb
    rcases List.mem_cons.1 hb with rfl | hb
    · exact ⟨ws, h, (List.prefix_append ws _).isInfix⟩
    · obtain ⟨vs, hp, hvs⟩ := ih b hb
      refine ⟨vs, hp, hvs.trans ?_⟩
      exact ((List.suffix_cons (.comma, s) us).trans (List.suffix_append ws _)).isInfix

theorem Grammar.Enclosed.item (h : Enclosed p ws as) : ∀ a ∈ as, ∃ us, p us a ∧ us <:+: ws := by
  cases h with
  | none => exact List.forall_mem_nil _
  | some s t h =>
    intro a ha
    obtain ⟨us, hp, hus⟩ := h.item a ha
    exact ⟨us, hp, hus.trans ⟨[(.lparen, s)], [(.rparen, t)], rfl⟩⟩

theorem port_legible {port : Port} (h : IsPort ws port) (hws : Word.Named ws) : port.Legible := by
  cases h with
  | bare name => exact ⟨hws.head, le_refl 1, show 1 ≤ widthLimit by decide⟩
  | wide name s hvalue hpos hle => exact ⟨hws.head, hpos, hle⟩

theorem ports_legible {ports : List Port} (h : Enclosed IsPort ws ports) (hws : Word.Named ws) :
    ∀ port ∈ ports, port.Legible := by
  intro port hport
  obtain ⟨us, hus, hin⟩ := h.item port hport
  exact port_legible hus (hws.mono hin.subset)

theorem range_legible {range : BitRange} (h : IsRange ws range) : range.hi ≤ widthLimit := by
  cases h with
  | bit _ _ _ hi => exact hi
  | slice _ _ _ _ _ hle hle' => exact max_le hle hle'

/-- **The names and numbers of an expression are good at any depth.** -/
theorem expr_legible (n : Nat) : ∀ {ws : List Word} {e : Expr}, ws.length < n → IsExpr ws e →
    Word.Named ws → e.Legible := by
  -- the induction is on the number of words, of which a part of an expression has fewer
  induction n with
  | zero => exact fun hn => absurd hn (Nat.not_lt_zero _)
  | succ n ih =>
    intro ws e hn h hws
    cases h with
    | identifier name =>
      rw [Expr.Legible]
      exact hws.head
    | number h =>
      rw [Expr.Legible]
      cases h with
      | decimal _ hv => exact hv
      | hex _ _ _ hv => exact hv
    | @call us args name hargs =>
      rw [Expr.Legible]
      refine ⟨hws.head, fun a ha => ?_⟩
      obtain ⟨vs, hvs, hin⟩ := hargs.item a ha
      have hlen := hin.length_le
      rw [List.length_cons] at hn
      exact ih (by omega) hvs (hws.mono fun w hw => List.mem_cons_of_mem _ (hin.subset hw))
    | @member us object hobject s field =>
      rw [Expr.Legible]
      rw [List.length_append, List.length_cons] at hn
      refine ⟨ih (by omega) hobject (hws.mono (List.subset_append_left us _)), ?_⟩
      exact hws (.ident, field) (by simp) rfl
    | @select us vs object range hobject hrange =>
      rw [Expr.Legible]
      have hpos : 0 < vs.length := by cases hrange <;> exact Nat.succ_pos _
      rw [List.length_append] at hn
      exact ⟨ih (by omega) hobject (hws.mono (List.subset_append_left us vs)), range_legible hrange⟩

theorem statement_legible {t : Statement} (h : IsStatement ws t) (hws : Word.Named ws) : t.Legible := by
  cases h with
  | @whole us e name s he =>
    exact ⟨hws.head, nofun, expr_legible _ (Nat.lt_succ_self _) he (hws.mono fun w hw => by simp [hw])⟩
  | @part us vs range e name s hrange he =>
    refine ⟨hws.head, ?_, expr_legible _ (Nat.lt_succ_self _) he (hws.mono fun w hw => by simp [hw])⟩
    rintro _ ⟨⟩
    exact range_legible hrange

theorem body_legible {rest : List Word} {ts : List Statement} (h : IsBody ws rest ts) :
    Word.Named ws → ∀ t ∈ ts, t.Legible := by
  induction h with
  | nil => exact fun _ => List.forall_mem_nil _
  | @cons us vs xs rest t ts s ht _ _ ih =>
    intro hws
    exact List.forall_mem_cons.2 ⟨statement_legible ht (hws.mono fun w hw => by simp [hw]),
      ih (hws.mono fun w hw => by simp [hw])⟩

theorem module_legible {rest : List Word} {m : Module} (h : IsModule ws rest m) (hws : Word.Named ws) :
    m.Legible := by
  cases h with
  | @intro is os us vs rest inputs outputs ts s name t u hi ho hend hts =>
    refine ⟨hws (.ident, name) (by simp) rfl, ports_legible hi (hws.mono fun w hw => by simp [hw]), ?_,
      body_legible hts (hws.mono fun w hw => by simp [hw])⟩
    have hos : Word.Named os := hws.mono fun w hw => by simp [hw]
    cases ho with
    | single h => exact List.forall_mem_singleton.2 (port_legible h hos)
    | enclosed h => exact ports_legible h hos

/-- **A design of the grammar is legible if its words are named.** -/
theorem legible_of_isDesign {ms : List Module} (h : IsDesign ws ms) : Word.Named ws →
    ∀ m ∈ ms, m.Legible := by
  induction h with
  | nil => exact fun _ => List.forall_mem_nil _
  | @cons ws rest m ms hm _ ih =>
    intro hws
    exact List.forall_mem_cons.2 ⟨module_legible hm (hws.mono (List.subset_append_left ws rest)),
      ih (hws.mono (List.subset_append_right ws rest))⟩

end Phrases

/-! ## The largest number -/

/-- The range is in the expression, at some depth. -/
inductive Expr.Mentions (r : BitRange) : Expr → Prop
  | here (object : Expr) : Mentions r (.select object r)
  | select {object : Expr} (range : BitRange) (h : Mentions r object) : Mentions r (.select object range)
  | member {object : Expr} (field : String) (h : Mentions r object) : Mentions r (.member object field)
  | call (name : String) {args : List Expr} {a : Expr} (ha : a ∈ args) (h : Mentions r a) :
    Mentions r (.call name args)

/-- The range is that of a target of the module, or is in one of its expressions. -/
def Module.Mentions (m : Module) (r : BitRange) : Prop :=
  ∃ t ∈ m.statements, r ∈ t.target.range ∨ t.expr.Mentions r

namespace Expr

variable {n : Nat}

theorem maxIndexList_le {as : List Expr} : maxIndexList as ≤ n ↔ ∀ a ∈ as, a.maxIndex ≤ n := by
  induction as with
  | nil => simp [maxIndexList]
  | cons a as ih => rw [maxIndexList, max_le_iff, ih, List.forall_mem_cons]

theorem maxIndex_le (e : Expr) : e.maxIndex ≤ n ↔ ∀ r, e.Mentions r → r.hi ≤ n := by
  induction e using Expr.pieces.induct with
  | case1 name => simp only [maxIndex, Nat.zero_le, true_iff]; rintro r ⟨⟩
  | case2 value => simp only [maxIndex, Nat.zero_le, true_iff]; rintro r ⟨⟩
  | case3 name args ih =>
    rw [maxIndex, maxIndexList_le]
    constructor
    · rintro h r ⟨⟩
      next a hr ha => exact (ih a ha).1 (h a ha) r hr
    · exact fun h a ha => (ih a ha).2 fun r hr => h r (.call name ha hr)
  | case4 object field ih =>
    rw [maxIndex, ih]
    constructor
    · rintro h r ⟨⟩
      next hr => exact h r hr
    · exact fun h r hr => h r (.member field hr)
  | case5 object range ih =>
    rw [maxIndex, max_le_iff, ih]
    constructor
    · rintro ⟨h, hrange⟩ r hr
      cases hr with
      | here => exact hrange
      | select _ hr => exact h r hr
    · exact fun h => ⟨fun r hr => h r (.select range hr), h range (.here object)⟩

/-- The ranges of a legible expression end within the limit. -/
theorem Legible.mentions {e : Expr} {r : BitRange} (hr : e.Mentions r) : e.Legible → r.hi ≤ widthLimit := by
  induction hr with
  | here object =>
    rw [Legible]
    exact And.right
  | select range _ ih =>
    rw [Legible]
    exact fun h => ih h.1
  | member field _ ih =>
    rw [Legible]
    exact fun h => ih h.1
  | call name ha _ ih =>
    rw [Legible]
    exact fun h => ih (h.2 _ ha)

end Expr

theorem foldl_max_le_iff {xs : List Nat} {n : Nat} : ∀ {a : Nat},
    xs.foldl max a ≤ n ↔ a ≤ n ∧ ∀ x ∈ xs, x ≤ n := by
  induction xs with
  | nil => simp
  | cons x xs ih =>
    intro a
    rw [List.foldl_cons, ih, max_le_iff, List.forall_mem_cons, and_assoc]

namespace Module

/-- **The largest number of a module** is a bound for its widths and its bit numbers, and the least one. -/
theorem maxIndex_le_iff {m : Module} {n : Nat} : m.maxIndex ≤ n ↔
    (∀ p ∈ m.ports, p.width ≤ n) ∧ ∀ r, m.Mentions r → r.hi ≤ n := by
  rw [maxIndex, max_le_iff, foldl_max_le_iff, foldl_max_le_iff, List.forall_mem_map, List.forall_mem_map]
  simp only [Nat.zero_le, true_and, max_le_iff, Expr.maxIndex_le]
  refine and_congr_right fun _ => ⟨?_, fun h t ht => ⟨?_, fun r hr => h r ⟨t, ht, .inr hr⟩⟩⟩
  · rintro h r ⟨t, ht, hr | hr⟩
    · have hle := (h t ht).1
      rw [Option.mem_def.1 hr] at hle
      exact hle
    · exact (h t ht).2 r hr
  · cases hrange : t.target.range with
    | none => exact Nat.zero_le n
    | some r => exact h r ⟨t, ht, .inl hrange⟩

theorem Legible.mentions {m : Module} (h : m.Legible) {r : BitRange} (hr : m.Mentions r) :
    r.hi ≤ widthLimit := by
  obtain ⟨t, ht, hr | hr⟩ := hr
  · exact (h.statements t ht).range r hr
  · exact Expr.Legible.mentions hr (h.statements t ht).expr

/-- What is legible passes the check of numbers. -/
theorem Legible.maxIndex_le {m : Module} (h : m.Legible) : m.maxIndex ≤ widthLimit := by
  refine maxIndex_le_iff.2 ⟨fun p hp => ?_, fun r hr => h.mentions hr⟩
  rcases List.mem_append.1 hp with hp | hp
  · exact (h.inputs p hp).2.2
  · exact (h.outputs p hp).2.2

end Module

/-! ## From text to netlists -/

theorem legible_of_readSource {source : String} {ms : List Module}
    (h : (readSource source).value = .ok ms) : ∀ m ∈ ms, m.Legible := by
  unfold readSource at h
  split at h
  · cases h
  · next tokens htokens =>
    have hresult : (parse tokens).result = .ok ms := by
      simp only [Logged.value_bind, Logged.value_pure, readTokens] at h
      cases hr : (parse tokens).result with
      | error e =>
        rw [hr] at h
        cases h
      | ok ms' =>
        rw [hr] at h
        cases h
        rfl
    obtain ⟨xs, -, htext⟩ := Token.ofText_eq_ok htokens
    cases tokens with
    | nil => exact absurd htext.symm (by simp)
    | cons t ts =>
      have hdesign := parse_eq_iff.1 (Parsed.result_eq_ok.1 hresult)
      exact legible_of_isDesign hdesign
        ((Token.named_ofText htokens).mono (List.map_subset _ (uptoEof_subset _)))

namespace Elaboration

theorem checkModules_index {ms : List Module} {name : String} {i : Nat} : ∀ {seen : List String},
    checkModules seen ms = .error (.indexOutOfRange name i) → ∃ m ∈ ms, widthLimit < m.maxIndex := by
  induction ms with
  | nil => exact fun h => nomatch h
  | cons m ms ih =>
    intro seen h
    rw [checkModules] at h
    cases hm : checkModule seen m with
    | ok u =>
      rw [hm] at h
      obtain ⟨k, hk, hlt⟩ := ih h
      exact ⟨k, List.mem_cons_of_mem m hk, hlt⟩
    | error e =>
      rw [hm] at h
      cases h
      unfold checkModule at hm
      split at hm
      · cases hm
      split at hm
      · cases hm
      split at hm
      · next hlt => exact ⟨m, List.mem_cons_self, hlt⟩
      · cases hm

end Elaboration

open Elaboration in
/-- Only a module with too large a number is refused for one. -/
theorem Ledger.compile_index {l : Ledger} {ms : List Module} {name : String} {i : Nat}
    (h : (l.compile ms).result = .error (.indexOutOfRange name i)) : ∃ m ∈ ms, widthLimit < m.maxIndex := by
  cases hcheck : checkDesign ms with
  | error e =>
    rw [compile_of_error hcheck] at h
    cases h
    unfold checkDesign at hcheck
    split at hcheck
    · cases hcheck
    · exact checkModules_index hcheck
  | ok u =>
    rw [compile_of_ok hcheck] at h
    cases hfrom : (compileFrom (calleesOf []) l.nextId ms).result with
    | ok ns =>
      rw [show compileFrom [] l.nextId ms = compileFrom (calleesOf []) l.nextId ms from rfl, hfrom] at h
      cases h
    | error e =>
      rw [show compileFrom [] l.nextId ms = compileFrom (calleesOf []) l.nextId ms from rfl, hfrom] at h
      cases h
      exact absurd trivial (compileFrom_error ms [] hfrom).1

/-- **What is read from a text is what later stages rely on**: its names are names, its widths are from 1 to
the limit, and no bit number in it is beyond the limit, at any depth. The check of numbers over a finished
module looks at all of them, so it never refuses a text. -/
theorem readSource_legible (source : String) :
    (∀ ms, (readSource source).value = .ok ms → ∀ m ∈ ms, m.Legible ∧
      (∀ p ∈ m.ports, 1 ≤ p.width ∧ p.width ≤ widthLimit) ∧ ∀ r, m.Mentions r → r.hi ≤ widthLimit) ∧
    (∀ m : Module, m.maxIndex ≤ widthLimit ↔
      (∀ p ∈ m.ports, p.width ≤ widthLimit) ∧ ∀ r, m.Mentions r → r.hi ≤ widthLimit) ∧
    ∀ name i, (compileSource source).value ≠ .error (.compile (.indexOutOfRange name i)) := by
  refine ⟨fun ms h m hm => ?_, fun _ => Module.maxIndex_le_iff, fun name i h => ?_⟩
  · have hlegible := legible_of_readSource h m hm
    refine ⟨hlegible, fun p hp => ?_, fun r hr => hlegible.mentions hr⟩
    rcases List.mem_append.1 hp with hp | hp
    · exact (hlegible.inputs p hp).2
    · exact (hlegible.outputs p hp).2
  · unfold compileSource at h
    rw [Logged.value_bind] at h
    split at h
    · -- a text that is not read fails before there are modules
      next e he =>
      cases h
      unfold readSource at he
      split at he
      · cases he
      · simp only [Logged.value_bind, Logged.value_pure, readTokens] at he
        cases hr : (parse _).result <;> rw [hr] at he <;> cases he
    · next ms hms =>
      simp only [Logged.value_bind, Logged.value_pure, compileModules] at h
      have hresult : (({} : Ledger).compile ms).result = .error (.indexOutOfRange name i) := by
        cases hr : (({} : Ledger).compile ms).result with
        | ok lib =>
          rw [hr] at h
          cases h
        | error e =>
          rw [hr] at h
          cases h
          rfl
      obtain ⟨m, hm, hlt⟩ := Ledger.compile_index hresult
      exact absurd (legible_of_readSource hms m hm).maxIndex_le (Nat.not_le.2 hlt)

/-- A text with the largest numbers that may be read, in the place of a width, of a target and of an
argument's argument. -/
def brimful : String :=
  "module m(a:65536) -> y:\n  y[65536:0] = f(g(a[0:0x10000]).b, 18446744073709551615)[1].c\n"

def brimfulModule : Module :=
  ⟨"m", [⟨"a", 65536⟩], [⟨"y", 1⟩], [⟨⟨"y", some (.slice 65536 0)⟩, .member (.select (.call "f"
    [.member (.call "g" [.select (.identifier "a") (.slice 0 65536)]) "b", .number 18446744073709551615])
      (.bit 1)) "c"⟩]⟩

/-- It is read, and the range of the innermost argument ends within the limit. -/
theorem brimful_legible : (readSource brimful).value = .ok [brimfulModule] ∧ brimfulModule.Legible ∧
    brimfulModule.Mentions (.slice 0 65536) ∧ (BitRange.slice 0 65536).hi ≤ widthLimit := by
  have hsome : (readSource brimful).value.toOption = some [brimfulModule] := by decide +kernel
  have hread : (readSource brimful).value = .ok [brimfulModule] := by
    cases h : (readSource brimful).value with
    | error e =>
      rw [h] at hsome
      cases hsome
    | ok ms =>
      rw [h] at hsome
      cases hsome
      rfl
  have hmentions : brimfulModule.Mentions (.slice 0 65536) :=
    ⟨_, List.mem_singleton.2 rfl, .inr (.member _ (.select _ (.call _ List.mem_cons_self
      (.member _ (.call _ List.mem_cons_self (.here _))))))⟩
  obtain ⟨hlegible, -, hranges⟩ :=
    (readSource_legible brimful).1 _ hread brimfulModule (List.mem_singleton.2 rfl)
  exact ⟨hread, hlegible, hmentions, hranges _ hmentions⟩

end NandHdl
