import Mathlib
import NandHdl.Design.Interchange

/-!
# Designs written as JSON

Reading looks up every part of an object by its name. What is written has each part once, so it is read
back, as long as its numbers fit a word.

* `Module.FitsWords`: all widths, bit numbers and literals of a module fit a word.
* `Record.parts?_map`, `Record.tagged?_map`: parts are found before or after they are read.
* `Expr.ofRecord?_toJson`: expressions, on their own or inside others.
* `Module.ofJson?_toJson`: **modules are read back.**
-/

namespace NandHdl

/-! ## Numbers of a word -/

/-- All numbers of an expression fit a word. -/
def Expr.FitsWords : Expr → Prop
  | identifier _ => True
  | number value => value < wordLimit
  | call _ args => ∀ a ∈ args, a.FitsWords
  | member object _ => object.FitsWords
  | select object range => object.FitsWords ∧ range.hi < wordLimit

/-- All numbers of a statement fit a word. -/
structure Statement.FitsWords (t : Statement) : Prop where
  range : ∀ r ∈ t.target.range, r.hi < wordLimit
  expr : t.expr.FitsWords

/-- All numbers of a module fit a word. -/
structure Module.FitsWords (m : Module) : Prop where
  inputs : ∀ p ∈ m.inputs, p.width < wordLimit
  outputs : ∀ p ∈ m.outputs, p.width < wordLimit
  statements : ∀ t ∈ m.statements, t.FitsWords

/-! ## Records -/

namespace Record

variable {α β : Type}

theorem valuesAt_cons (name : String) (e : String × α) (fields : List (String × α)) :
    valuesAt name (e :: fields) = if e.1 = name then e.2 :: valuesAt name fields else valuesAt name fields := by
  rw [valuesAt, List.filterMap_cons]
  split <;> rename_i h <;> split at h <;> cases h <;> simp [*, valuesAt]

theorem valuesAt_map (f : α → β) (name : String) (fields : List (String × α)) :
    valuesAt name (fields.map fun e => (e.1, f e.2)) = (valuesAt name fields).map f := by
  induction fields with
  | nil => rfl
  | cons e fields ih =>
    rw [List.map_cons, valuesAt_cons, valuesAt_cons, ih]
    split <;> rfl

theorem field?_map (f : α → β) (name : String) (fields : List (String × α)) :
    field? name (fields.map fun e => (e.1, f e.2)) = (field? name fields).map f := by
  rw [field?, field?, valuesAt_map]
  rcases valuesAt name fields with _ | ⟨a, _ | ⟨b, bs⟩⟩ <;> rfl

theorem parts?_map (f : α → β) (names : List String) (r : Record α) :
    (r.map f).parts? names = (r.parts? names).map (List.map f) := by
  cases r with
  | named fields =>
    change names.mapM (field? · (fields.map _)) = _
    rw [parts?]
    induction names with
    | nil => rfl
    | cons name names ih =>
      rw [List.mapM_cons, List.mapM_cons, field?_map, ih]
      cases field? name fields with
      | none => rfl
      | some a => cases names.mapM (field? · fields) <;> rfl
  | listed items =>
    simp only [map, parts?, List.length_map]
    split <;> rfl

theorem tagged?_map (f : α → β) (tag : String) (r : Record α) :
    (r.map f).tagged? tag = (r.tagged? tag).map fun t => (f t.1, t.2.map f) := by
  cases r with
  | named fields =>
    rw [map, tagged?, tagged?, field?_map]
    cases field? tag fields <;> rfl
  | listed items => cases items <;> rfl

end Record

/-! ## Numbers and lists -/

theorem Json.word?_nat {n : Nat} (h : n < wordLimit) : (Json.nat n).word? = some n := if_pos h

/-- Items that are read back one by one are read back together. -/
theorem mapM_map_eq_some {α β : Type} {write : α → β} {read : β → Option α} {as : List α}
    (h : ∀ a ∈ as, read (write a) = some a) : (as.map write).mapM read = some as := by
  induction as with
  | nil => rfl
  | cons a as ih =>
    rw [List.map_cons, List.mapM_cons, h a List.mem_cons_self,
      ih fun b hb => h b (List.mem_cons_of_mem a hb)]
    rfl

theorem Json.listOf?_arr {α : Type} {write : α → Json} {read : Json → Option α} {as : List α}
    (h : ∀ a ∈ as, read (write a) = some a) : (Json.arr (as.map write)).listOf? read = some as :=
  mapM_map_eq_some h

/-! ## Ports, ranges and targets -/

theorem Port.ofJson?_toJson {p : Port} (h : p.width < wordLimit) : Port.ofJson? p.toJson = some p := by
  simp [Port.ofJson?, Port.toJson, Json.record?, Record.parts?, Record.field?, Record.valuesAt, Json.str?,
    Json.word?_nat h]

theorem BitRange.ofJson?_toJson {r : BitRange} (h : r.hi < wordLimit) :
    BitRange.ofJson? r.toJson = some r := by
  cases r with
  | bit i =>
    have hi : (Json.nat i).word? = some i := Json.word?_nat h
    simp [BitRange.ofJson?, BitRange.toJson, Json.record?, Record.tagged?, Record.parts?, Record.field?,
      Record.valuesAt, Json.tag?, hi]
  | slice a b =>
    have ha : (Json.nat a).word? = some a := Json.word?_nat (lt_of_le_of_lt (Nat.le_max_left a b) h)
    have hb : (Json.nat b).word? = some b := Json.word?_nat (lt_of_le_of_lt (Nat.le_max_right a b) h)
    simp [BitRange.ofJson?, BitRange.toJson, Json.record?, Record.tagged?, Record.parts?, Record.field?,
      Record.valuesAt, Json.tag?, ha, hb]

theorem BitRange.optionOfJson?_toJson {range : Option BitRange} (h : ∀ r ∈ range, r.hi < wordLimit) :
    BitRange.optionOfJson? ((range.map BitRange.toJson).getD .null) = some range := by
  cases range with
  | none => rfl
  | some r =>
    have hobj : BitRange.optionOfJson? r.toJson = (BitRange.ofJson? r.toJson).map some := by
      cases r <;> rfl
    rw [Option.map_some, Option.getD_some, hobj, BitRange.ofJson?_toJson (h r rfl)]
    rfl

theorem Target.ofJson?_toJson {t : Target} (h : ∀ r ∈ t.range, r.hi < wordLimit) :
    Target.ofJson? t.toJson = some t := by
  simp [Target.ofJson?, Target.toJson, Json.record?, Record.withDefault, Record.parts?, Record.field?,
    Record.valuesAt, Json.str?, BitRange.optionOfJson?_toJson h]

/-! ## Expressions -/

theorem Expr.listToJson_eq_map (es : List Expr) : Expr.listToJson es = es.map Expr.toJson := by
  induction es with
  | nil => rfl
  | cons e es ih => rw [Expr.listToJson, ih, List.map_cons]

theorem Part.ofItems_eq_map (vs : List Json) : Part.ofItems vs = vs.map Part.ofJson := by
  induction vs with
  | nil => rfl
  | cons v vs ih => rw [Part.ofItems, ih, List.map_cons]

theorem Part.ofFields_eq_map (fields : List (String × Json)) :
    Part.ofFields fields = fields.map fun e => (e.1, Part.ofJson e.2) := by
  induction fields with
  | nil => rfl
  | cons e fields ih => rw [Part.ofFields, ih, List.map_cons]

@[simp] theorem Part.ofJson_value (v : Json) : (Part.ofJson v).value = v := by
  cases v <;> rfl

/-- A value of several parts inside an expression is read as an expression of its own is, but its kind may be
given by number. -/
theorem Part.ofJson_expr (v : Json) : (Part.ofJson v).expr =
    v.record?.bind fun r => Expr.ofRecord? Expr.kinds (r.map Part.ofJson) := by
  cases v with
  | obj fields => rw [Part.ofJson, Part.ofFields_eq_map]; rfl
  | arr items => rw [Part.ofJson, Part.ofItems_eq_map]; rfl
  | _ => rfl

theorem Part.ofJson_exprs (items : List Json) :
    (Part.ofJson (.arr items)).exprs = items.mapM fun v => (Part.ofJson v).expr := by
  rw [Part.ofJson, Part.ofItems_eq_map, List.mapM_map]
  rfl

/-- **An expression is read back**, whatever its kind may be given by. -/
theorem Expr.ofRecord?_toJson {e : Expr} : e.FitsWords → ∀ numbered,
    (e.toJson.record?.bind fun r => Expr.ofRecord? numbered (r.map Part.ofJson)) = some e := by
  -- in each case what is written gives way to the parts that are read of it
  induction e using Expr.FitsWords.induct with
  | case1 name => exact fun _ _ => rfl
  | case2 value =>
    intro h numbered
    rw [Expr.FitsWords] at h
    calc _ = (do return .number (← (Json.nat value).word?) : Option Expr) := rfl
      _ = some (.number value) := by rw [Json.word?_nat h]; rfl
  | case3 name args ih =>
    intro h numbered
    rw [Expr.FitsWords] at h
    have hargs : (Part.ofJson (.arr (args.map Expr.toJson))).exprs = some args := by
      rw [Part.ofJson_exprs]
      exact mapM_map_eq_some fun a ha => (Part.ofJson_expr _).trans (ih a ha (h a ha) Expr.kinds)
    calc _ = (do return .call name (← (Part.ofJson (.arr (Expr.listToJson args))).exprs) : Option Expr) := rfl
      _ = some (.call name args) := by rw [Expr.listToJson_eq_map, hargs]; rfl
  | case4 object field ih =>
    intro h numbered
    rw [Expr.FitsWords] at h
    have hobject : (Part.ofJson object.toJson).expr = some object :=
      (Part.ofJson_expr _).trans (ih h Expr.kinds)
    calc _ = (do return .member (← (Part.ofJson object.toJson).expr) field : Option Expr) := rfl
      _ = some (.member object field) := by rw [hobject]; rfl
  | case5 object range ih =>
    intro h numbered
    rw [Expr.FitsWords] at h
    have hobject : (Part.ofJson object.toJson).expr = some object :=
      (Part.ofJson_expr _).trans (ih h.1 Expr.kinds)
    cases range with
    | bit i =>
      have hi : (Json.nat i).word? = some i := Json.word?_nat h.2
      calc _ = (do
            let object ← (Part.ofJson object.toJson).expr
            return .select object (.bit (← (Json.nat i).word?)) : Option Expr) := rfl
        _ = some (.select object (.bit i)) := by rw [hobject, hi]; rfl
    | slice a b =>
      have ha : (Json.nat a).word? = some a := Json.word?_nat (lt_of_le_of_lt (Nat.le_max_left a b) h.2)
      have hb : (Json.nat b).word? = some b := Json.word?_nat (lt_of_le_of_lt (Nat.le_max_right a b) h.2)
      calc _ = (do
            let object ← (Part.ofJson object.toJson).expr
            return .select object (.slice (← (Json.nat a).word?) (← (Json.nat b).word?)) : Option Expr) := rfl
        _ = some (.select object (.slice a b)) := by rw [hobject, ha, hb]; rfl

theorem Expr.ofJson?_toJson {e : Expr} (h : e.FitsWords) : Expr.ofJson? e.toJson = some e :=
  Expr.ofRecord?_toJson h []

/-! ## Modules -/

theorem Statement.ofJson?_toJson {t : Statement} (h : t.FitsWords) :
    Statement.ofJson? t.toJson = some t := by
  simp [Statement.ofJson?, Statement.toJson, Json.record?, Record.parts?, Record.field?, Record.valuesAt,
    Target.ofJson?_toJson h.range, Expr.ofJson?_toJson h.expr]

/-- **A module whose numbers fit a word is read back.** -/
theorem Module.ofJson?_toJson {m : Module} (h : m.FitsWords) : Module.ofJson? m.toJson = some m := by
  have hinputs := Json.listOf?_arr fun p hp => Port.ofJson?_toJson (h.inputs p hp)
  have houtputs := Json.listOf?_arr fun p hp => Port.ofJson?_toJson (h.outputs p hp)
  have hstatements := Json.listOf?_arr fun t ht => Statement.ofJson?_toJson (h.statements t ht)
  simp [Module.ofJson?, Module.toJson, Json.record?, Record.parts?, Record.field?, Record.valuesAt, Json.str?,
    hinputs, houtputs, hstatements]

theorem designOfJson?_toJson {ms : List Module} (h : ∀ m ∈ ms, m.FitsWords) :
    designOfJson? (designToJson ms) = some ms :=
  Json.listOf?_arr fun m hm => Module.ofJson?_toJson (h m hm)

end NandHdl
