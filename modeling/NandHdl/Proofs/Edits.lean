import NandHdl.Proofs.Encoding

/-!
# Edits of designs written as JSON

A value can be changed in ways that a reader does not see: fields of an object change places, fields come
in under names that nothing is read from, and a range that is `null` goes away. Which names are read depends
on what a value is read as, and for ranges and expressions on their kind.

* `Form`, `Form.read`: what a value inside a design is read as.
* `Form.fields`, `Form.item?`: the parts that are read of it, with their forms.
* `Edit`: one such change, at any depth.
* `Form.Keeps`: two values of which the second is read as the first is.
* `RecordKeeps`: the same for their parts, by name or by place.
* `Edit.keeps`: **an edit does not change what is read.**
* `designOfJson?_edited`: designs are read back, also after any number of edits.
-/

namespace NandHdl

/-! ## Forms -/

/-- What a value inside a design is read as. An expression is alone or inside another one. -/
inductive Form
  | design | module | ports | port | statements | statement | target | range
  | expr (inner : Bool)
  | exprs
  /-- A text or a number. -/
  | leaf
deriving DecidableEq

namespace Form

/-- What comes of reading a value of a form. -/
def Reading : Form → Type
  | design => List Module
  | module => Module
  | ports => List Port
  | port => Port
  | statements => List Statement
  | statement => Statement
  | target => Target
  | range => Option BitRange
  | expr _ => Expr
  | exprs => List Expr
  | leaf => Json

/-- The reader of a form. -/
def read : (f : Form) → Json → Option f.Reading
  | design, v => designOfJson? v
  | module, v => Module.ofJson? v
  | ports, v => v.listOf? Port.ofJson?
  | port, v => Port.ofJson? v
  | statements, v => v.listOf? Statement.ofJson?
  | statement, v => Statement.ofJson? v
  | target, v => Target.ofJson? v
  | range, v => BitRange.optionOfJson? v
  | expr false, v => Expr.ofJson? v
  | expr true, v => (Part.ofJson v).expr
  | exprs, v => (Part.ofJson v).exprs
  | leaf, .obj _ => none
  | leaf, .arr _ => none
  | leaf, v => some v

/-- The kinds that a number may stand for. -/
def numbered : Form → List String
  | expr true => Expr.kinds
  | _ => []

/-- The parts of a value of a kind in the order in which they are written, and what they are read as. -/
def parts : Form → Option String → List (String × Form)
  | module, _ => [("name", leaf), ("inputs", ports), ("outputs", ports), ("statements", statements)]
  | port, _ => [("name", leaf), ("width", leaf)]
  | statement, _ => [("target", target), ("expr", expr false)]
  | target, _ => [("name", leaf), ("range", range)]
  | range, some "Bit" => [("bit", leaf)]
  | range, some "Slice" => [("lo", leaf), ("hi", leaf)]
  | expr _, some "Identifier" => [("name", leaf)]
  | expr _, some "Number" => [("value", leaf)]
  | expr _, some "Call" => [("name", leaf), ("args", exprs)]
  | expr _, some "Member" => [("object", expr true), ("field", leaf)]
  | expr _, some "Index" => [("object", expr true), ("bit", leaf)]
  | expr _, some "Slice" => [("object", expr true), ("lo", leaf), ("hi", leaf)]
  | _, _ => []

/-- Values of the form come in kinds. -/
def hasKinds : Form → Bool
  | range | expr _ => true
  | _ => false

/-- The kind that a value is of, as far as it says so. -/
def kind? (f : Form) (r : Record Json) : Option String :=
  (r.tagged? "kind").bind fun t => t.1.tag? f.numbered

/-- All parts that are read of a value, its kind before the others. -/
def fields (f : Form) (r : Record Json) : List (String × Form) :=
  if f.hasKinds then ("kind", leaf) :: f.parts (f.kind? r) else f.parts none

/-- What the items of a list are read as. -/
def item? : Form → Option Form
  | design => some module
  | ports => some port
  | statements => some statement
  | exprs => some (expr true)
  | _ => none

end Form

/-- **A change that a reader does not see**, somewhere in a value that is read as `f`. Names of objects are
known or unknown there by what is read of the object. -/
inductive Edit : Form → Json → Json → Prop
  /-- Fields change places. -/
  | reorder {f : Form} {fields fields' : List (String × Json)} (h : fields.Perm fields') :
    Edit f (.obj fields) (.obj fields')
  /-- A field comes in under an unknown name. -/
  | add {f : Form} {fields : List (String × Json)} {name : String} (v : Json)
    (hname : name ∉ (f.fields (.named fields)).map Prod.fst) : Edit f (.obj fields) (.obj ((name, v) :: fields))
  /-- The range of a target is `null` and goes away. -/
  | dropRange (before after : List (String × Json)) :
    Edit .target (.obj (before ++ ("range", .null) :: after)) (.obj (before ++ after))
  /-- An edit of the value under a known name. -/
  | inField {f g : Form} {before after : List (String × Json)} {name : String} {v v' : Json}
    (hg : (name, g) ∈ f.fields (.named (before ++ (name, v) :: after))) (h : Edit g v v') :
    Edit f (.obj (before ++ (name, v) :: after)) (.obj (before ++ (name, v') :: after))
  /-- Any other value under an unknown name. -/
  | inUnknown {f : Form} {before after : List (String × Json)} {name : String} (v v' : Json)
    (hname : name ∉ (f.fields (.named (before ++ (name, v) :: after))).map Prod.fst) :
    Edit f (.obj (before ++ (name, v) :: after)) (.obj (before ++ (name, v') :: after))
  /-- An edit of an item of a list. -/
  | inItem {f g : Form} (before after : List Json) {v v' : Json} (hg : f.item? = some g) (h : Edit g v v') :
    Edit f (.arr (before ++ v :: after)) (.arr (before ++ v' :: after))
  /-- An edit of a part that stands in an array of parts without names. -/
  | inPart {f g : Form} {before after : List Json} {name : String} {v v' : Json}
    (hg : (f.fields (.listed (before ++ v :: after)))[before.length]? = some (name, g)) (h : Edit g v v') :
    Edit f (.arr (before ++ v :: after)) (.arr (before ++ v' :: after))

/-! ## What is kept -/

/-- What is read of `v` is read of `v'`. -/
def Form.Keeps (f : Form) (v v' : Json) : Prop := ∀ a, f.read v = some a → f.read v' = some a

theorem Form.Keeps.refl (f : Form) (v : Json) : f.Keeps v v := fun _ h => h

/-- Values of forms, one by one. -/
inductive KeepsAll : List Form → List Json → List Json → Prop
  | nil : KeepsAll [] [] []
  | cons {f : Form} {fs : List Form} {v v' : Json} {vs vs' : List Json} (h : f.Keeps v v')
    (hs : KeepsAll fs vs vs') : KeepsAll (f :: fs) (v :: vs) (v' :: vs')

theorem Form.leaf_read_eq_some {v a : Json} (h : Form.leaf.read v = some a) : v = a := by
  cases v <;> cases h <;> rfl

section Leaves

variable {v v' : Json}

/-- A leaf does not change. -/
theorem Form.Keeps.leaf_eq (h : Form.leaf.Keeps v v') (hv : Form.leaf.read v = some v) : v' = v :=
  Form.leaf_read_eq_some (h v hv)

theorem Form.Keeps.str? (h : Form.leaf.Keeps v v') {s : String} (hv : v.str? = some s) :
    v'.str? = some s := by
  cases v with
  | str t => rwa [h.leaf_eq rfl]
  | _ => cases hv

theorem Form.Keeps.word? (h : Form.leaf.Keeps v v') {n : Nat} (hv : v.word? = some n) :
    v'.word? = some n := by
  cases v with
  | int i => rwa [h.leaf_eq rfl]
  | _ => cases hv

theorem Form.Keeps.tag? (h : Form.leaf.Keeps v v') {numbered : List String} {kind : String}
    (hv : v.tag? numbered = some kind) : v'.tag? numbered = some kind := by
  cases v with
  | str t => rwa [h.leaf_eq rfl]
  | int i => rwa [h.leaf_eq rfl]
  | _ => cases hv

end Leaves

/-! ## Parts of records -/

namespace Record

variable {α : Type}

theorem field?_eq_some {name : String} {fields : List (String × α)} {a : α} :
    field? name fields = some a ↔ valuesAt name fields = [a] := by
  rw [field?]
  rcases valuesAt name fields with _ | ⟨b, _ | ⟨c, cs⟩⟩ <;> simp

theorem valuesAt_append (name : String) (fields fields' : List (String × α)) :
    valuesAt name (fields ++ fields') = valuesAt name fields ++ valuesAt name fields' :=
  List.filterMap_append

theorem valuesAt_perm {name : String} {fields fields' : List (String × α)} (h : fields.Perm fields') :
    (valuesAt name fields).Perm (valuesAt name fields') :=
  h.filterMap _

/-- A field that may be left out is one of its own name, and no other. -/
theorem withDefault_named (name : String) (a : α) (fields : List (String × α)) :
    ∃ fields', withDefault name a (named fields) = named fields' ∧ ∀ n, valuesAt n fields' =
      if n = name ∧ valuesAt name fields = [] then [a] else valuesAt n fields := by
  rw [withDefault]
  cases h : valuesAt name fields with
  | nil =>
    refine ⟨(name, a) :: fields, rfl, fun n => ?_⟩
    rw [valuesAt_cons]
    by_cases hn : name = n
    · subst hn
      simp [h]
    · rw [if_neg hn, if_neg fun hc => hn hc.1.symm]
  | cons b bs => exact ⟨fields, rfl, fun n => by simp⟩

end Record

open Record

/-- The fields with these names and forms are kept: one that occurs once is read as before, and one that
does not occur does not come in. -/
def FieldsKeep (ps : List (String × Form)) (fields fields' : List (String × Json)) : Prop :=
  ∀ p ∈ ps, (∀ v, valuesAt p.1 fields = [v] → ∃ v', valuesAt p.1 fields' = [v'] ∧ p.2.Keeps v v') ∧
    (valuesAt p.1 fields = [] → valuesAt p.1 fields' = [])

/-- The items at the places of these parts are kept. -/
def ItemsKeep (ps : List (String × Form)) (items items' : List Json) : Prop :=
  items'.length = items.length ∧ ∀ (i : Nat) p v, ps[i]? = some p → items[i]? = some v →
    ∃ v', items'[i]? = some v' ∧ p.2.Keeps v v'

/-- The parts with these names and forms are kept. -/
inductive RecordKeeps (ps : List (String × Form)) : Record Json → Record Json → Prop
  | named {fields fields'} (h : FieldsKeep ps fields fields') : RecordKeeps ps (.named fields) (.named fields')
  | listed {items items'} (h : ItemsKeep ps items items') : RecordKeeps ps (.listed items) (.listed items')

section Records

variable {ps : List (String × Form)} {p : String × Form} {r r' : Record Json}
variable {fields fields' : List (String × Json)} {items items' : List Json}

theorem FieldsKeep.mono {qs : List (String × Form)} (h : FieldsKeep ps fields fields') (hsub : qs ⊆ ps) :
    FieldsKeep qs fields fields' := fun p hp => h p (hsub hp)

theorem ItemsKeep.tail {v v' : Json} (h : ItemsKeep (p :: ps) (v :: items) (v' :: items')) :
    ItemsKeep ps items items' := by
  refine ⟨Nat.succ.inj h.1, fun i q w hq hw => ?_⟩
  exact h.2 (i + 1) q w hq hw

theorem FieldsKeep.mapM (h : FieldsKeep ps fields fields') : ∀ {vs : List Json},
    (ps.map Prod.fst).mapM (field? · fields) = some vs →
      ∃ vs', (ps.map Prod.fst).mapM (field? · fields') = some vs' ∧ KeepsAll (ps.map Prod.snd) vs vs' := by
  induction ps with
  | nil =>
    intro vs hvs
    cases hvs
    exact ⟨[], rfl, .nil⟩
  | cons p ps ih =>
    intro vs hvs
    rw [List.map_cons, List.mapM_cons] at hvs
    obtain ⟨v, hv, hvs⟩ := Option.bind_eq_some_iff.1 hvs
    obtain ⟨ws, hws, hcons⟩ := Option.bind_eq_some_iff.1 hvs
    cases hcons
    obtain ⟨v', hv', hkeeps⟩ := (h p List.mem_cons_self).1 v (field?_eq_some.1 hv)
    obtain ⟨ws', hws', hall⟩ := ih (h.mono (List.subset_cons_self p ps)) hws
    refine ⟨v' :: ws', ?_, .cons hkeeps hall⟩
    rw [List.map_cons, List.mapM_cons, field?_eq_some.2 hv', hws']
    rfl

theorem ItemsKeep.all (h : ItemsKeep ps items items') : items.length = ps.length →
    KeepsAll (ps.map Prod.snd) items items' := by
  induction ps generalizing items items' with
  | nil =>
    intro hlen
    have hitems := List.length_eq_zero_iff.1 hlen
    subst hitems
    have hitems' := List.length_eq_zero_iff.1 h.1
    subst hitems'
    exact .nil
  | cons p ps ih =>
    intro hlen
    cases items with
    | nil => cases hlen
    | cons v items =>
      obtain ⟨v', hv', hkeeps⟩ := h.2 0 p v rfl rfl
      cases items' with
      | nil => cases hv'
      | cons w items' =>
        cases hv'
        exact .cons hkeeps (ih h.tail (Nat.succ.inj hlen))

/-- **Parts that are kept are found**, and each is read as before. -/
theorem RecordKeeps.parts? (h : RecordKeeps ps r r') {vs : List Json}
    (hvs : r.parts? (ps.map Prod.fst) = some vs) :
    ∃ vs', r'.parts? (ps.map Prod.fst) = some vs' ∧ KeepsAll (ps.map Prod.snd) vs vs' := by
  cases h with
  | named h => exact h.mapM hvs
  | listed h =>
    rw [Record.parts?, List.length_map] at hvs ⊢
    split at hvs
    · next hlen =>
      cases hvs
      exact ⟨_, if_pos (h.1.trans hlen), h.all hlen⟩
    · cases hvs

/-- A kind that is kept is found, and so are the other parts. -/
theorem RecordKeeps.tagged? (h : RecordKeeps (("kind", .leaf) :: ps) r r') {tag : Json} {rest : Record Json}
    (ht : r.tagged? "kind" = some (tag, rest)) :
    ∃ tag' rest', r'.tagged? "kind" = some (tag', rest') ∧ Form.leaf.Keeps tag tag' ∧
      RecordKeeps ps rest rest' := by
  cases h with
  | @named fields fields' h =>
    obtain ⟨v, hv, heq⟩ := Option.map_eq_some_iff.1 ht
    cases heq
    obtain ⟨v', hv', hkeeps⟩ := (h ("kind", .leaf) List.mem_cons_self).1 tag (field?_eq_some.1 hv)
    refine ⟨v', .named fields', ?_, hkeeps, .named (h.mono (List.subset_cons_self _ ps))⟩
    rw [Record.tagged?, field?_eq_some.2 hv']
    rfl
  | @listed items items' h =>
    cases items with
    | nil => cases ht
    | cons v items =>
      cases ht
      obtain ⟨v', hv', hkeeps⟩ := h.2 0 ("kind", .leaf) tag rfl rfl
      cases items' with
      | nil => cases hv'
      | cons w items' =>
        cases hv'
        exact ⟨_, _, rfl, hkeeps, .listed h.tail⟩

/-- A range that may be left out is kept with the others. -/
theorem RecordKeeps.withDefault (h : RecordKeeps (Form.target.parts none) r r') :
    RecordKeeps (Form.target.parts none) (r.withDefault "range" .null) (r'.withDefault "range" .null) := by
  cases h with
  | listed h => exact .listed h
  | @named fields fields' h =>
    obtain ⟨g, hg, hvalues⟩ := withDefault_named "range" .null fields
    obtain ⟨g', hg', hvalues'⟩ := withDefault_named "range" .null fields'
    rw [hg, hg']
    refine .named fun p hp => ?_
    rw [hvalues, hvalues']
    obtain ⟨hsome, hnone⟩ := h p hp
    by_cases hp : p.1 = "range"
    · rw [← hp]
      refine ⟨fun v hv => ?_, fun hv => ?_⟩
      · by_cases hempty : valuesAt p.1 fields = []
        · rw [if_pos ⟨rfl, hempty⟩] at hv
          rw [if_pos ⟨rfl, hnone hempty⟩]
          cases hv
          exact ⟨_, rfl, Form.Keeps.refl _ _⟩
        · rw [if_neg fun hc => hempty hc.2] at hv
          obtain ⟨v', hv', hkeeps⟩ := hsome v hv
          exact ⟨v', by rw [hv']; exact if_neg (by simp), hkeeps⟩
      · split at hv
        · cases hv
        · next hnot => exact absurd ⟨rfl, hv⟩ hnot
    · rw [if_neg fun hc => hp hc.1, if_neg fun hc => hp hc.1]
      exact ⟨hsome, hnone⟩

end Records

/-! ## Readers of records -/

section Readers

variable {v v' : Json} {r r' : Record Json}

/-- Whatever is made of parts in their forms is made of them again if they are kept. -/
theorem RecordKeeps.bind {ps : List (String × Form)} (h : RecordKeeps ps r r') {β : Type}
    {k : List Json → Option β} {b : β}
    (hk : ∀ vs vs', KeepsAll (ps.map Prod.snd) vs vs' → k vs = some b → k vs' = some b)
    (hb : (r.parts? (ps.map Prod.fst)).bind k = some b) : (r'.parts? (ps.map Prod.fst)).bind k = some b := by
  obtain ⟨vs, hvs, hb⟩ := Option.bind_eq_some_iff.1 hb
  obtain ⟨vs', hvs', hall⟩ := h.parts? hvs
  exact Option.bind_eq_some_iff.2 ⟨vs', hvs', hk vs vs' hall hb⟩

theorem port_keeps (hv : v.record? = some r) (hv' : v'.record? = some r')
    (h : RecordKeeps (Form.port.parts none) r r') : Form.port.Keeps v v' := by
  intro (p : Port) (hp : Port.ofJson? v = some p)
  change Port.ofJson? v' = some p
  simp only [Port.ofJson?, hv, hv', Option.bind_eq_bind, Option.bind_some] at hp ⊢
  refine h.bind (fun vs vs' hall hp => ?_) hp
  obtain _ | ⟨hname, _ | ⟨hwidth, ⟨⟩⟩⟩ := hall
  simp only [Option.bind_eq_some_iff] at hp ⊢
  obtain ⟨name, hn, width, hw, hp⟩ := hp
  exact ⟨name, hname.str? hn, width, hwidth.word? hw, hp⟩

theorem statement_keeps (hv : v.record? = some r) (hv' : v'.record? = some r')
    (h : RecordKeeps (Form.statement.parts none) r r') : Form.statement.Keeps v v' := by
  intro (t : Statement) (ht : Statement.ofJson? v = some t)
  change Statement.ofJson? v' = some t
  simp only [Statement.ofJson?, hv, hv', Option.bind_eq_bind, Option.bind_some] at ht ⊢
  refine h.bind (fun vs vs' hall ht => ?_) ht
  obtain _ | ⟨htarget, _ | ⟨hexpr, ⟨⟩⟩⟩ := hall
  simp only [Option.bind_eq_some_iff] at ht ⊢
  obtain ⟨target, ht, e, he, hs⟩ := ht
  exact ⟨target, htarget target ht, e, hexpr e he, hs⟩

theorem module_keeps (hv : v.record? = some r) (hv' : v'.record? = some r')
    (h : RecordKeeps (Form.module.parts none) r r') : Form.module.Keeps v v' := by
  intro (m : Module) (hm : Module.ofJson? v = some m)
  change Module.ofJson? v' = some m
  simp only [Module.ofJson?, hv, hv', Option.bind_eq_bind, Option.bind_some] at hm ⊢
  refine h.bind (fun vs vs' hall hm => ?_) hm
  obtain _ | ⟨hname, _ | ⟨hinputs, _ | ⟨houtputs, _ | ⟨hstatements, ⟨⟩⟩⟩⟩⟩ := hall
  simp only [Option.bind_eq_some_iff] at hm ⊢
  obtain ⟨name, hn, inputs, hi, outputs, ho, statements, hs, hm⟩ := hm
  exact ⟨name, hname.str? hn, inputs, hinputs inputs hi, outputs, houtputs outputs ho, statements,
    hstatements statements hs, hm⟩

theorem target_keeps (hv : v.record? = some (r : Record Json)) (hv' : v'.record? = some r')
    (h : RecordKeeps (Form.target.parts none) (r.withDefault "range" .null)
      (r'.withDefault "range" .null)) : Form.target.Keeps v v' := by
  intro (t : Target) (ht : Target.ofJson? v = some t)
  change Target.ofJson? v' = some t
  simp only [Target.ofJson?, hv, hv', Option.bind_eq_bind, Option.bind_some] at ht ⊢
  refine h.bind (fun vs vs' hall ht => ?_) ht
  obtain _ | ⟨hname, _ | ⟨hrange, ⟨⟩⟩⟩ := hall
  simp only [Option.bind_eq_some_iff] at ht ⊢
  obtain ⟨name, hn, range, hr, ht⟩ := ht
  exact ⟨name, hname.str? hn, range, hrange range hr, ht⟩

theorem range_keeps (hv : v.record? = some r) (hv' : v'.record? = some r')
    (h : RecordKeeps (Form.range.fields r) r r') : Form.range.Keeps v v' := by
  have hoption : ∀ {w : Json} {q : Record Json}, w.record? = some q →
      BitRange.optionOfJson? w = (BitRange.ofJson? w).map some := by
    intro w q hw
    cases w <;> first | rfl | cases hw
  intro (range : Option BitRange) (hrange : BitRange.optionOfJson? v = some range)
  change BitRange.optionOfJson? v' = some range
  rw [hoption hv, Option.map_eq_some_iff] at hrange
  rw [hoption hv', Option.map_eq_some_iff]
  obtain ⟨b, hb, hrange⟩ := hrange
  refine ⟨b, ?_, hrange⟩
  simp only [BitRange.ofJson?, hv, hv', Option.bind_eq_bind, Option.bind_some] at hb ⊢
  obtain ⟨⟨tag, rest⟩, htag, hb⟩ := Option.bind_eq_some_iff.1 hb
  obtain ⟨kind, hkind, hb⟩ := Option.bind_eq_some_iff.1 hb
  have hkind? : Form.range.kind? r = some kind := by
    rw [Form.kind?, htag]
    exact hkind
  rw [Form.fields, hkind?] at h
  obtain ⟨tag', rest', htag', hleaf, hrest⟩ := h.tagged? htag
  refine Option.bind_eq_some_iff.2 ⟨_, htag', Option.bind_eq_some_iff.2 ⟨kind, hleaf.tag? hkind, ?_⟩⟩
  dsimp only at hb ⊢
  split at hb
  · refine hrest.bind (fun vs vs' hall hb => ?_) hb
    obtain _ | ⟨hi, ⟨⟩⟩ := hall
    simp only [Option.bind_eq_some_iff] at hb ⊢
    obtain ⟨i, hword, hb⟩ := hb
    exact ⟨i, hi.word? hword, hb⟩
  · refine hrest.bind (fun vs vs' hall hb => ?_) hb
    obtain _ | ⟨hlo, _ | ⟨hhi, ⟨⟩⟩⟩ := hall
    simp only [Option.bind_eq_some_iff] at hb ⊢
    obtain ⟨lo, hl, hi, hh, hb⟩ := hb
    exact ⟨lo, hlo.word? hl, hi, hhi.word? hh, hb⟩
  · cases hb

/-- What is made of the read parts of an expression is made of them again if they are kept. -/
theorem RecordKeeps.bind_parts {ps : List (String × Form)} (h : RecordKeeps ps r r') {β : Type}
    {k : List Part → Option β} {b : β}
    (hk : ∀ vs vs', KeepsAll (ps.map Prod.snd) vs vs' → k (vs.map Part.ofJson) = some b →
      k (vs'.map Part.ofJson) = some b)
    (hb : ((r.map Part.ofJson).parts? (ps.map Prod.fst)).bind k = some b) :
    ((r'.map Part.ofJson).parts? (ps.map Prod.fst)).bind k = some b := by
  rw [parts?_map, Option.bind_map] at hb ⊢
  exact h.bind hk hb

/-- **An expression is kept with its kind and the parts of that kind.** -/
theorem ofRecord?_keeps {inner : Bool} {e : Expr} (h : RecordKeeps ((Form.expr inner).fields r) r r')
    (he : Expr.ofRecord? (Form.expr inner).numbered (r.map Part.ofJson) = some e) :
    Expr.ofRecord? (Form.expr inner).numbered (r'.map Part.ofJson) = some e := by
  rw [Expr.ofRecord?, tagged?_map] at he ⊢
  obtain ⟨_, hread, he⟩ := Option.bind_eq_some_iff.1 he
  obtain ⟨⟨tag, rest⟩, htag, rfl⟩ := Option.map_eq_some_iff.1 hread
  obtain ⟨kind, hkind, he⟩ := Option.bind_eq_some_iff.1 he
  rw [Part.ofJson_value] at hkind
  have hkind? : (Form.expr inner).kind? r = some kind := by
    rw [Form.kind?, htag]
    exact hkind
  rw [Form.fields, hkind?] at h
  obtain ⟨tag', rest', htag', hleaf, hrest⟩ := h.tagged? htag
  refine Option.bind_eq_some_iff.2 ⟨_, Option.map_eq_some_iff.2 ⟨_, htag', rfl⟩,
    Option.bind_eq_some_iff.2 ⟨kind, ?_, ?_⟩⟩
  · rw [Part.ofJson_value]
    exact hleaf.tag? hkind
  dsimp only at he ⊢
  -- one case for each kind of expression
  split at he
  · refine hrest.bind_parts (fun vs vs' hall he => ?_) he
    obtain _ | ⟨hname, ⟨⟩⟩ := hall
    simp only [List.map_cons, List.map_nil, Part.ofJson_value, Option.bind_eq_bind,
      Option.bind_eq_some_iff] at he ⊢
    obtain ⟨name, hn, he⟩ := he
    exact ⟨name, hname.str? hn, he⟩
  · refine hrest.bind_parts (fun vs vs' hall he => ?_) he
    obtain _ | ⟨hvalue, ⟨⟩⟩ := hall
    simp only [List.map_cons, List.map_nil, Part.ofJson_value, Option.bind_eq_bind,
      Option.bind_eq_some_iff] at he ⊢
    obtain ⟨value, hv, he⟩ := he
    exact ⟨value, hvalue.word? hv, he⟩
  · refine hrest.bind_parts (fun vs vs' hall he => ?_) he
    obtain _ | ⟨hname, _ | ⟨hargs, ⟨⟩⟩⟩ := hall
    simp only [List.map_cons, List.map_nil, Part.ofJson_value, Option.bind_eq_bind,
      Option.bind_eq_some_iff] at he ⊢
    obtain ⟨name, hn, args, ha, he⟩ := he
    exact ⟨name, hname.str? hn, args, hargs args ha, he⟩
  · refine hrest.bind_parts (fun vs vs' hall he => ?_) he
    obtain _ | ⟨hobject, _ | ⟨hfield, ⟨⟩⟩⟩ := hall
    simp only [List.map_cons, List.map_nil, Part.ofJson_value, Option.bind_eq_bind,
      Option.bind_eq_some_iff] at he ⊢
    obtain ⟨object, ho, field, hf, he⟩ := he
    exact ⟨object, hobject object ho, field, hfield.str? hf, he⟩
  · refine hrest.bind_parts (fun vs vs' hall he => ?_) he
    obtain _ | ⟨hobject, _ | ⟨hi, ⟨⟩⟩⟩ := hall
    simp only [List.map_cons, List.map_nil, Part.ofJson_value, Option.bind_eq_bind,
      Option.bind_eq_some_iff] at he ⊢
    obtain ⟨object, ho, i, hword, he⟩ := he
    exact ⟨object, hobject object ho, i, hi.word? hword, he⟩
  · refine hrest.bind_parts (fun vs vs' hall he => ?_) he
    obtain _ | ⟨hobject, _ | ⟨hlo, _ | ⟨hhi, ⟨⟩⟩⟩⟩ := hall
    simp only [List.map_cons, List.map_nil, Part.ofJson_value, Option.bind_eq_bind,
      Option.bind_eq_some_iff] at he ⊢
    obtain ⟨object, ho, lo, hl, hi, hh, he⟩ := he
    exact ⟨object, hobject object ho, lo, hlo.word? hl, hi, hhi.word? hh, he⟩
  · cases he

theorem expr_keeps {inner : Bool} (hv : v.record? = some r) (hv' : v'.record? = some r')
    (h : RecordKeeps ((Form.expr inner).fields r) r r') : (Form.expr inner).Keeps v v' := by
  intro (e : Expr) he
  cases inner with
  | false =>
    change Expr.ofJson? v = some e at he
    change Expr.ofJson? v' = some e
    simp only [Expr.ofJson?, hv, hv', Option.bind_eq_bind, Option.bind_some] at he ⊢
    exact ofRecord?_keeps h he
  | true =>
    change (Part.ofJson v).expr = some e at he
    change (Part.ofJson v').expr = some e
    rw [Part.ofJson_expr, hv, Option.bind_some] at he
    rw [Part.ofJson_expr, hv', Option.bind_some]
    exact ofRecord?_keeps h he

/-- **A value of several parts is kept if the parts that are read of it are.** -/
theorem keeps_of_record {f : Form} (hf : f.item? = none) (hv : v.record? = some r)
    (hv' : v'.record? = some r') (h : RecordKeeps (f.fields r) r r') : f.Keeps v v' := by
  cases f with
  | module => exact module_keeps hv hv' h
  | port => exact port_keeps hv hv' h
  | statement => exact statement_keeps hv hv' h
  | target => exact target_keeps hv hv' (RecordKeeps.withDefault h)
  | range => exact range_keeps hv hv' h
  | expr inner => exact expr_keeps hv hv' h
  | leaf =>
    intro a ha
    rw [Form.leaf_read_eq_some ha] at hv
    cases v <;> cases ha <;> cases hv
  | _ => cases hf

end Readers

/-! ## Lists -/

/-- An item of a list that is kept is kept with the list. -/
theorem mapM_keeps {α : Type} {read : Json → Option α} {v v' : Json}
    (h : ∀ a, read v = some a → read v' = some a) {before after : List Json} {as : List α}
    (has : (before ++ v :: after).mapM read = some as) : (before ++ v' :: after).mapM read = some as := by
  simp only [List.mapM_append, List.mapM_cons, Option.bind_eq_bind, Option.bind_eq_some_iff] at has ⊢
  obtain ⟨bs, hbs, cs, ⟨a, ha, hcs⟩, has⟩ := has
  exact ⟨bs, hbs, cs, ⟨a, h a ha, hcs⟩, has⟩

theorem item_keeps {f g : Form} (hg : f.item? = some g) {v v' : Json} (h : g.Keeps v v')
    (before after : List Json) : f.Keeps (.arr (before ++ v :: after)) (.arr (before ++ v' :: after)) := by
  cases f with
  | design => cases hg; exact fun _ => mapM_keeps h
  | ports => cases hg; exact fun _ => mapM_keeps h
  | statements => cases hg; exact fun _ => mapM_keeps h
  | exprs =>
    cases hg
    intro (es : List Expr) (hes : (Part.ofJson _).exprs = some es)
    change (Part.ofJson _).exprs = some es
    rw [Part.ofJson_exprs] at hes ⊢
    exact mapM_keeps h hes
  | _ => cases hg

/-- No list is an object. -/
theorem keeps_of_item {f g : Form} (hg : f.item? = some g) (fields : List (String × Json)) (v : Json) :
    f.Keeps (.obj fields) v := by
  intro a ha
  cases f <;> cases hg <;> cases ha

/-! ## Edits -/

/-- The parts of a value have different names. -/
theorem nodup_fields (f : Form) (r : Record Json) : ((f.fields r).map Prod.fst).Nodup := by
  unfold Form.fields
  cases f with
  | range =>
    simp only [Form.hasKinds, if_true]
    unfold Form.parts
    split <;> simp_all
  | expr inner =>
    simp only [Form.hasKinds, if_true]
    unfold Form.parts
    split <;> simp_all
  | _ => simp [Form.hasKinds, Form.parts]

section Fields

variable {ps : List (String × Form)} {before after fields fields' : List (String × Json)} {name : String}
variable {v v' : Json}

theorem fieldsKeep_of_perm (h : fields.Perm fields') : FieldsKeep ps fields fields' := by
  intro p _
  have hperm := @valuesAt_perm _ p.1 _ _ h
  refine ⟨fun v hv => ⟨v, ?_, Form.Keeps.refl _ v⟩, fun hv => ?_⟩
  · rw [hv] at hperm
    exact (List.singleton_perm.1 hperm).symm
  · rw [hv] at hperm
    exact List.nil_perm.1 hperm

/-- Fields under other names do not matter. -/
theorem fieldsKeep_of_eq (h : ∀ p ∈ ps, valuesAt p.1 fields' = valuesAt p.1 fields) :
    FieldsKeep ps fields fields' := by
  intro p hp
  rw [h p hp]
  exact ⟨fun v hv => ⟨v, hv, Form.Keeps.refl _ v⟩, id⟩

theorem valuesAt_cons_ne {n : String} (hn : name ≠ n) (v : Json) (fields : List (String × Json)) :
    valuesAt n ((name, v) :: fields) = valuesAt n fields := by
  rw [valuesAt_cons, if_neg hn]

theorem fieldsKeep_inField {g : Form} (hnodup : (ps.map Prod.fst).Nodup) (hg : (name, g) ∈ ps)
    (h : g.Keeps v v') : FieldsKeep ps (before ++ (name, v) :: after) (before ++ (name, v') :: after) := by
  intro p hp
  rw [valuesAt_append, valuesAt_append]
  by_cases hname : name = p.1
  · -- the names differ, so this is the part with the form `g`
    have hform : p = (name, g) := List.inj_on_of_nodup_map hnodup hp hg hname.symm
    subst hform
    rw [valuesAt_cons, valuesAt_cons, if_pos rfl, if_pos rfl]
    refine ⟨fun w hw => ?_, fun hnil => absurd hnil (by simp)⟩
    obtain ⟨hbefore, hw⟩ : valuesAt name before = [] ∧ v :: valuesAt name after = [w] := by
      cases hb : valuesAt name before with
      | nil => exact ⟨rfl, by rwa [hb] at hw⟩
      | cons b bs =>
        rw [hb] at hw
        exact absurd (congrArg List.length hw) (by simp)
    obtain ⟨rfl, hafter⟩ := List.cons.inj hw
    exact ⟨v', by rw [hbefore, hafter]; rfl, h⟩
  · rw [valuesAt_cons_ne hname, valuesAt_cons_ne hname]
    exact ⟨fun w hw => ⟨w, hw, Form.Keeps.refl _ w⟩, id⟩

theorem itemsKeep_inPart {g : Form} {before after : List Json} (hg : ps[before.length]? = some (name, g))
    (h : g.Keeps v v') : ItemsKeep ps (before ++ v :: after) (before ++ v' :: after) := by
  refine ⟨by simp, fun i p w hp hw => ?_⟩
  by_cases hi : i = before.length
  · subst hi
    rw [hg] at hp
    cases hp
    rw [List.getElem?_append_right (le_refl _), Nat.sub_self, List.getElem?_cons_zero] at hw ⊢
    cases hw
    exact ⟨v', rfl, h⟩
  · refine ⟨w, ?_, Form.Keeps.refl _ w⟩
    rw [List.getElem?_append] at hw ⊢
    split at hw
    · next hlt => rw [if_pos hlt, hw]
    · next hge =>
      rw [if_neg hge]
      obtain ⟨k, hk⟩ : ∃ k, i - before.length = k + 1 := ⟨i - before.length - 1, by omega⟩
      rw [hk] at hw ⊢
      exact hw

end Fields

/-- A target keeps what is read of it when a range that is `null` goes away. -/
theorem dropRange_keeps (before after : List (String × Json)) :
    Form.target.Keeps (.obj (before ++ ("range", .null) :: after)) (.obj (before ++ after)) := by
  refine target_keeps rfl rfl ?_
  obtain ⟨g, hg, hvalues⟩ := withDefault_named "range" .null (before ++ ("range", .null) :: after)
  obtain ⟨g', hg', hvalues'⟩ := withDefault_named "range" .null (before ++ after)
  have hrange : valuesAt "range" (before ++ ("range", Json.null) :: after) ≠ [] := by
    rw [valuesAt_append, valuesAt_cons, if_pos rfl]
    simp
  rw [hg, hg']
  refine .named fun p hp => ?_
  rw [hvalues, hvalues', if_neg fun hc => hrange hc.2]
  by_cases hname : p.1 = "range"
  · rw [hname]
    refine ⟨fun v hv => ?_, fun hv => absurd hv hrange⟩
    -- the value that goes away was the only one
    rw [valuesAt_append, valuesAt_cons, if_pos rfl] at hv
    have hothers : valuesAt "range" before = [] ∧ valuesAt "range" after = [] ∧ v = .null := by
      rcases hb : valuesAt "range" before with _ | ⟨b, bs⟩
      · rw [hb] at hv
        obtain ⟨hv, hafter⟩ := List.cons.inj hv
        exact ⟨rfl, hafter, hv.symm⟩
      · rw [hb] at hv
        exact absurd (congrArg List.length hv) (by simp)
    obtain ⟨hbefore, hafter, rfl⟩ := hothers
    exact ⟨.null, if_pos ⟨rfl, by rw [valuesAt_append, hbefore, hafter]; rfl⟩, Form.Keeps.refl _ _⟩
  · rw [if_neg fun hc => hname hc.1, valuesAt_append, valuesAt_append,
      valuesAt_cons_ne (Ne.symm hname)]
    exact ⟨fun v hv => ⟨v, hv, Form.Keeps.refl _ v⟩, id⟩

/-- Objects are kept if the fields that are read of them are. -/
theorem keeps_of_fields {f : Form} {fields fields' : List (String × Json)}
    (h : FieldsKeep (f.fields (.named fields)) fields fields') : f.Keeps (.obj fields) (.obj fields') := by
  cases hf : f.item? with
  | none => exact keeps_of_record hf rfl rfl (.named h)
  | some g => exact keeps_of_item hf fields _

/-- **An edit does not change what is read.** -/
theorem Edit.keeps {f : Form} {v v' : Json} (h : Edit f v v') : f.Keeps v v' := by
  induction h with
  | reorder h => exact keeps_of_fields (fieldsKeep_of_perm h)
  | add v hname =>
    refine keeps_of_fields (fieldsKeep_of_eq fun p hp => valuesAt_cons_ne ?_ v _)
    rintro rfl
    exact hname (List.mem_map_of_mem hp)
  | dropRange before after => exact dropRange_keeps before after
  | inField hg _ ih => exact keeps_of_fields (fieldsKeep_inField (nodup_fields _ _) hg ih)
  | @inUnknown f before after name v v' hname =>
    refine keeps_of_fields (fieldsKeep_of_eq fun p hp => ?_)
    have hne : name ≠ p.1 := by
      rintro rfl
      exact hname (List.mem_map_of_mem hp)
    rw [valuesAt_append, valuesAt_append, valuesAt_cons_ne hne, valuesAt_cons_ne hne]
  | inItem before after hg _ ih => exact item_keeps hg ih before after
  | @inPart f g before after name v v' hg _ ih =>
    cases hf : f.item? with
    | none => exact keeps_of_record hf rfl rfl (.listed (itemsKeep_inPart hg ih))
    | some g' =>
      -- a list has no parts
      have hnone : f.fields (.listed (before ++ v :: after)) = [] := by cases f <;> first | rfl | cases hf
      rw [hnone] at hg
      cases hg

/-- **The form in which designs are exchanged is lossless and ignores order.** A design is read back from
what is written for it, whatever its names are and as long as its numbers fit a word; and what is read of a
value stays the same after any number of edits, at any depth. -/
theorem designOfJson?_edited :
    (∀ ms : List Module, (∀ m ∈ ms, m.FitsWords) → designOfJson? (designToJson ms) = some ms) ∧
    ∀ (v v' : Json) (ms : List Module), designOfJson? v = some ms →
      Relation.ReflTransGen (Edit .design) v v' → designOfJson? v' = some ms := by
  refine ⟨fun ms h => designOfJson?_toJson h, fun v v' ms hv hedits => ?_⟩
  induction hedits with
  | refl => exact hv
  | tail _ hedit ih => exact hedit.keeps ms ih

/-- A module with a target without a range, and with an expression inside another one. -/
def nested : Module :=
  ⟨"m", [⟨"a", 2⟩], [⟨"y", 1⟩], [⟨⟨"y", none⟩, .call "f" [.select (.identifier "a") (.bit 1)]⟩]⟩

/-- The module as JSON, around what its only statement is. -/
def aroundStatement (statement : Json) : Json :=
  .arr [.obj ([("name", .str "m"), ("inputs", .arr [Port.toJson ⟨"a", 2⟩]),
    ("outputs", .arr [Port.toJson ⟨"y", 1⟩])] ++ [("statements", .arr [statement])])]

/-- The statement, around its target and the argument of its call. -/
def aroundArgument (target : List (String × Json)) (argument : Json) : Json :=
  .obj [("target", .obj target), ("expr", .obj ([("kind", .str "Call"), ("name", .str "f")] ++
    [("args", .arr [argument])]))]

def argumentFields : List (String × Json) :=
  [("kind", .str "Index"), ("object", .obj [("kind", .str "Identifier"), ("name", .str "a")]), ("bit", .nat 1)]

theorem edit_statement {v v' : Json} (h : Edit .statement v v') :
    Edit .design (aroundStatement v) (aroundStatement v') :=
  .inItem [] [] rfl (.inField (g := .statements) (by simp [Form.fields, Form.hasKinds, Form.parts])
    (.inItem [] [] rfl h))

theorem edit_argument {target : List (String × Json)} {v v' : Json} (h : Edit (.expr true) v v') :
    Edit .statement (aroundArgument target v) (aroundArgument target v') :=
  @Edit.inField _ (.expr false) [("target", .obj target)] [] _ _ _
    (by simp [Form.fields, Form.hasKinds, Form.parts])
    (.inField (g := .exprs) (by simp [Form.fields, Form.hasKinds, Form.parts, Form.kind?, Record.tagged?,
      Record.field?, Record.valuesAt, Json.tag?])
    (.inItem [] [] rfl h))

/-- The range of the target has gone away, a field has come in under a name that other kinds of expression
have, and the fields of the argument have changed places. -/
def nestedEdited : Json :=
  aroundStatement (aroundArgument [("name", .str "y")] (.obj (("name", .null) :: argumentFields).reverse))

theorem edits_nested : Relation.ReflTransGen (Edit .design) (designToJson [nested]) nestedEdited := by
  have hrange : Edit .design (designToJson [nested])
      (aroundStatement (aroundArgument [("name", .str "y")] (.obj argumentFields))) :=
    edit_statement (@Edit.inField _ .target [] _ _ _ _ (by simp [Form.fields, Form.hasKinds, Form.parts])
      (.dropRange [("name", .str "y")] []))
  have hadd : Edit (.expr true) (.obj argumentFields) (.obj (("name", .null) :: argumentFields)) :=
    .add .null (by decide +kernel)
  have hreverse : Edit (.expr true) (.obj (("name", .null) :: argumentFields))
      (.obj (("name", .null) :: argumentFields).reverse) := .reorder (List.reverse_perm _).symm
  exact ((Relation.ReflTransGen.single hrange).tail (edit_statement (edit_argument hadd))).tail
    (edit_statement (edit_argument hreverse))

/-- It is read back, and so it is after the edits. -/
theorem nested_edited : (∀ m ∈ [nested], m.FitsWords) ∧ designOfJson? (designToJson [nested]) = some [nested] ∧
    Relation.ReflTransGen (Edit .design) (designToJson [nested]) nestedEdited ∧
    designOfJson? nestedEdited = some [nested] := by
  have hfits : ∀ m ∈ [nested], m.FitsWords := by
    rw [List.forall_mem_singleton]
    refine ⟨by decide, by decide, List.forall_mem_singleton.2 ⟨nofun, ?_⟩⟩
    rw [Expr.FitsWords, List.forall_mem_singleton, Expr.FitsWords, Expr.FitsWords]
    decide
  have hread := designOfJson?_edited.1 [nested] hfits
  exact ⟨hfits, hread, edits_nested, designOfJson?_edited.2 _ _ _ hread edits_nested⟩

end NandHdl
