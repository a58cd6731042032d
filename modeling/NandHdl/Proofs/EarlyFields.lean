import NandHdl.Proofs.Statements

/-!
# Fields that are read early

A name that is read before it is assigned stands for what it is at the end of the
body. Its fields do not: a field is looked up where it is read, and there is no
instance yet.

* `fieldBits`: what a field is where some bits of it are needed.
* `gives_fieldBits_early`, `gives_fieldBits_late`: before and after the instance is assigned.
* `names_instance`: the outputs of an instance have the names of the ports.
* `early_fields`: **up to the assignment a field is 0, and from then on an output of the instance.**
* `early_reads`: the same read before and after differs.
-/

namespace NandHdl

namespace Elaboration

/-- The field `field` of `name` where `n` bits are needed. -/
def fieldBits (b : Body) (scope : Scope Signal) (name field : String) (n : Nat) : Build Wire := do
  fitted b scope (← expr b scope (some n) (.member (.identifier name) field)) n

section Fields

variable {b : Body} {scope : Scope Signal} {s s' : State} {name field : String}

/-- What is no instance has no fields. -/
theorem gives_field_none {x : Signal}
    (h : (∃ other, follow scope x = .forward other) ∨ ∃ w, follow scope x = .wire w) (object : Expr) :
    Gives (Elaboration.field scope object x field) s .blackBox
      { s with log := .noInstance object field :: s.log } := by
  unfold Elaboration.field
  rcases h with ⟨other, hother⟩ | ⟨w, hwire⟩
  · rw [hother]
    exact gives_bind.2 ⟨(), _, gives_note.2 rfl, gives_pure.2 ⟨rfl, rfl⟩⟩
  · rw [hwire]
    exact gives_bind.2 ⟨(), _, gives_note.2 rfl, gives_pure.2 ⟨rfl, rfl⟩⟩

/-- A black box is 0 of any width. -/
theorem gives_fitted_blackBox (n : Nat) : Gives (fitted b scope .blackBox n) s (.zeros n) s := by
  have hzeros : (Wire.zeros n).fit n = .zeros n := by
    rw [Wire.zeros_eq_ofFn]
    exact Wire.ofFn_congr fun i hi => Wire.bitOrZero_ofFn _ hi
  refine gives_bind.2 ⟨.zeros n, s, ?_, gives_pure.2 ⟨hzeros.symm, rfl⟩⟩
  rw [materialize, follow_of_ne (fun _ hother => Signal.noConfusion hother)]
  exact gives_pure.2 ⟨rfl, rfl⟩

/-- A name stands for its binding, or for itself while it has none. -/
theorem gives_identifier (hassigned : b.module.assigns name) (want : Option Nat) :
    Gives (expr b scope want (.identifier name)) s ((scope.lookup name).getD (.forward name)) s := by
  rw [expr, nameSignal]
  cases scope.lookup name with
  | none =>
    simp only [hassigned, if_true]
    exact gives_pure.2 ⟨rfl, rfl⟩
  | some x => exact gives_pure.2 ⟨rfl, rfl⟩

/-- **A name that is not assigned yet has no fields**: where bits of one are needed, they are 0. -/
theorem gives_fieldBits_early (hassigned : b.module.assigns name)
    (h : scope.lookup name = none ∨ ∃ w, scope.lookup name = some (.wire w)) (n : Nat) :
    Gives (fieldBits b scope name field n) s (.zeros n)
      { s with log := .noInstance (.identifier name) field :: s.log } := by
  have hfollow : (∃ other, follow scope ((scope.lookup name).getD (.forward name)) = .forward other) ∨
      ∃ w, follow scope ((scope.lookup name).getD (.forward name)) = .wire w := by
    rcases h with hnone | ⟨w, hwire⟩
    · rw [hnone, Option.getD_none, follow_forward, hnone]
      exact .inl ⟨name, rfl⟩
    · rw [hwire, Option.getD_some, follow_of_ne (fun _ hother => Signal.noConfusion hother)]
      exact .inr ⟨w, rfl⟩
  rw [fieldBits, expr]
  have hsignal : Gives (expr b scope none (.identifier name)) s _ s := gives_identifier hassigned none
  exact gives_bind.2 ⟨.blackBox, _, gives_bind.2 ⟨_, s, hsignal, gives_field_none hfollow _⟩,
    gives_fitted_blackBox n⟩

/-- **A field of an instance is the output with its name.** -/
theorem gives_fieldBits_late {outs : List (String × Wire)} {w : Wire} (hassigned : b.module.assigns name)
    (h : scope.lookup name = some (.bundle outs)) (hw : outs.find? (·.1 = field) = some (field, w)) (n : Nat) :
    Gives (fieldBits b scope name field n) s (w.fit n) s := by
  have hname : Gives (expr b scope none (.identifier name)) s (.bundle outs) s := by
    have hbound : Gives _ s ((scope.lookup name).getD (.forward name)) s := gives_identifier hassigned none
    rwa [h] at hbound
  have hfield : Gives (Elaboration.field scope (.identifier name) (.bundle outs) field) s (.wire w) s := by
    rw [Elaboration.field, follow_of_ne (fun _ hother => Signal.noConfusion hother)]
    simp only [hw]
    exact gives_pure.2 ⟨rfl, rfl⟩
  have hwire : Gives (materialize b scope (.wire w) (some n)) s w s := by
    rw [materialize, follow_of_ne (fun _ hother => Signal.noConfusion hother)]
    exact gives_pure.2 ⟨rfl, rfl⟩
  rw [fieldBits, expr]
  exact gives_bind.2 ⟨.wire w, s, gives_bind.2 ⟨_, s, hname, hfield⟩,
    gives_bind.2 ⟨w, s, hwire, gives_pure.2 ⟨rfl, rfl⟩⟩⟩

end Fields

/-! ## Instances -/

section Instances

variable {es : List Module} {m d : Module} {scope : Scope Signal} {s s' : State} {name field : String}
  {outs : List (String × Wire)}

/-- The outputs of an instance have the names of the ports. -/
theorem names_instance {caller : String} {chain : List String} {args : List Wire}
    (h : Gives ((Callee.ofModule (calleesOf es) d).instantiate (caller :: chain) args) s outs s') :
    outs.map Prod.fst = d.outputs.map Port.name := by
  obtain ⟨inst, s₁, hinst, h⟩ := gives_bind.1 h
  obtain ⟨rfl, rfl⟩ := gives_pure.1 h
  rw [instantiate_cons] at hinst
  obtain ⟨_, s₂, -, hinst⟩ := gives_bind.1 hinst
  obtain ⟨t, hbody, -⟩ := gives_enclosed.1 hinst
  exact names_innerBody hbody

/-- **A call of a module before this one** is the instance of such a module. -/
theorem bundle_of_call (hprim : isPrimitive name = false) (hname : name ∈ es.map Module.name) {want : Option Nat}
    {args : List Expr} {x : Signal} (h : Gives (expr (bodyOf es m) scope want (.call name args)) s x s') :
    ∃ d ∈ es, d.name = name ∧ ∃ outs, x = .bundle outs ∧ outs.map Prod.fst = d.outputs.map Port.name := by
  rw [isPrimitive, Bool.or_eq_false_iff, decide_eq_false_iff_not, decide_eq_false_iff_not] at hprim
  have hcallee : (bodyOf es m).callee? name = _ := callee?_visible name
  rw [expr.eq_7 _ scope want name args hprim.1 hprim.2, hcallee] at h
  by_cases hown : m.name = name
  · -- the module itself cannot be instantiated
    rw [if_pos hown] at h
    obtain ⟨_, s₁, -, h⟩ := gives_bind.1 h
    obtain ⟨ws, s₂, -, h⟩ := gives_bind.1 h
    obtain ⟨outs, s₃, hinst, -⟩ := gives_bind.1 h
    exact absurd hinst not_gives_throw
  · rw [if_neg hown] at h
    cases hdrop : es.dropWhile (·.name ≠ name) with
    | nil =>
      obtain ⟨e, he, hename⟩ := List.mem_map.1 hname
      exact absurd hename (of_decide_eq_true (List.dropWhile_eq_nil_iff.1 hdrop e he))
    | cons d es' =>
      simp only [hdrop] at h
      obtain ⟨_, s₁, -, h⟩ := gives_bind.1 h
      obtain ⟨ws, s₂, -, h⟩ := gives_bind.1 h
      obtain ⟨outs, s₃, hinst, h⟩ := gives_bind.1 h
      have hfound := List.head?_dropWhile_not (fun e : Module => decide (e.name ≠ name)) es
      rw [hdrop] at hfound
      refine ⟨d, (List.dropWhile_sublist _).mem (hdrop ▸ List.mem_cons_self), by simpa using hfound, outs,
        (gives_pure.1 h).1, names_instance hinst⟩

/-- A name that occurs among the outputs is found. -/
theorem exists_find? (h : field ∈ outs.map Prod.fst) : ∃ w, outs.find? (·.1 = field) = some (field, w) := by
  obtain ⟨o, ho, rfl⟩ := List.mem_map.1 h
  cases hfind : outs.find? (·.1 = o.1) with
  | none => exact absurd (decide_eq_true rfl) (List.find?_eq_none.1 hfind o ho)
  | some e =>
    have hname := List.find?_some hfind
    exact ⟨e.2, congrArg some (Prod.ext (of_decide_eq_true hname) rfl)⟩

end Instances

/-! ## Designs -/

section Designs

variable {l : Ledger} {ms : List Module} {lib : Library} {m : Module} {pre post : List Statement}
  {name callee : String} {args : List Expr}

/-- **Fields of a name are 0 until the name is assigned.** A module of a compiled design assigns an instance of
another module to a name, for the first time. In all statements up to this one, itself included, every field of
the name is 0, however many bits of it are needed, and this is reported. From the next statement on, the fields
with the names of the outputs are the outputs of the instance. -/
theorem early_fields (h : (l.compile ms).result = .ok lib) {k : Nat} (hm : ms[k]? = some m)
    (hbody : m.statements = pre ++ ⟨⟨name, none⟩, .call callee args⟩ :: post)
    (hpre : name ∉ pre.map (·.target.name)) (hprim : isPrimitive callee = false)
    (hcallee : callee ∈ (ms.take k).map Module.name) :
    (∀ sts rest, pre = sts ++ rest → ∃ scope s,
      Reaches (ms.take k).reverse m (l.nextId + nodeCount (lib.netlists.take k).reverse) sts scope s ∧
      ∀ field n t, Gives (fieldBits (bodyOf (ms.take k).reverse m) scope name field n) t (.zeros n)
        { t with log := .noInstance (.identifier name) field :: t.log }) ∧
    ∃ scope s outs, ∃ d ∈ ms.take k,
      Reaches (ms.take k).reverse m (l.nextId + nodeCount (lib.netlists.take k).reverse)
        (pre ++ [⟨⟨name, none⟩, .call callee args⟩]) scope s ∧
      d.name = callee ∧ scope.lookup name = some (.bundle outs) ∧ outs.map Prod.fst = d.outputs.map Port.name ∧
      ∀ field ∈ d.outputs.map Port.name, ∃ w, (field, w) ∈ outs ∧
        ∀ n t, Gives (fieldBits (bodyOf (ms.take k).reverse m) scope name field n) t (w.fit n) t := by
  have hassigned : m.assigns name := by
    rw [Module.assigns, hbody]
    exact List.any_eq_true.2 ⟨_, List.mem_append_right _ List.mem_cons_self, decide_eq_true rfl⟩
  refine ⟨fun sts rest hpart => ?_, ?_⟩
  · rw [hpart, List.append_assoc] at hbody
    obtain ⟨scope, s, hreach⟩ := exists_reaches h hm hbody
    have hsts : name ∉ sts.map (·.target.name) := fun hname =>
      hpre (by rw [hpart, List.map_append]; exact List.mem_append_left _ hname)
    exact ⟨scope, s, hreach, fun _ n t => gives_fieldBits_early hassigned (hreach.unassigned hsts) n⟩
  · rw [← List.singleton_append, ← List.append_assoc] at hbody
    obtain ⟨scope', s', hafter⟩ := exists_reaches h hm hbody
    obtain ⟨scope, s, -, hst⟩ := reaches_snoc.1 hafter
    obtain ⟨x, s₁, hx, hst⟩ := gives_bind.1 hst
    obtain ⟨rfl, rfl⟩ := gives_pure.1 hst
    have hdefined : callee ∈ (ms.take k).reverse.map Module.name := by rwa [List.map_reverse, List.mem_reverse]
    obtain ⟨d, hd, hname, outs, rfl, houts⟩ := bundle_of_call hprim hdefined hx
    have hlookup : (scope.bind name (.bundle outs)).lookup name = some (.bundle outs) := by
      rw [Scope.lookup_bind, if_pos rfl]
    refine ⟨_, s', outs, d, List.mem_reverse.1 hd, hafter, hname, hlookup, houts, fun field hfield => ?_⟩
    obtain ⟨w, hw⟩ := exists_find? (houts ▸ hfield)
    exact ⟨w, List.mem_of_find?_eq_some hw, fun n t => gives_fieldBits_late hassigned hlookup hw n⟩

/-- A module with two outputs. -/
def signed : Module :=
  ⟨"Signed", [⟨"a", 1⟩], [⟨"q", 1⟩, ⟨"p", 1⟩],
    [⟨⟨"q", none⟩, .call "nand" [.identifier "a", .identifier "a"]⟩, ⟨⟨"p", none⟩, .identifier "a"⟩]⟩

/-- A module that reads a field of an instance before and after it is assigned. -/
def eager : Module :=
  ⟨"Eager", [⟨"a", 1⟩], [⟨"early", 1⟩, ⟨"late", 1⟩],
    [⟨⟨"early", none⟩, .member (.identifier "h") "q"⟩,
      ⟨⟨"h", none⟩, .call "Signed" [.identifier "a"]⟩,
      ⟨⟨"late", none⟩, .member (.identifier "h") "q"⟩]⟩

/-- **The same read before and after differs.** The first is 0, the second is the gate of the instance. -/
theorem early_reads : ((Ledger.compile {} [signed, eager]).result.toOption.map fun lib =>
    lib.netlists.map fun n => (n.signal? "early", n.signal? "late", n.signal? "h.q")) =
    some [(none, none, none), (some ⟨#[.const false]⟩, some ⟨#[.node 1]⟩, some ⟨#[.node 1]⟩)] := by
  decide +kernel

theorem eager_sizes : ((Ledger.compile {} [signed, eager]).result.toOption.map fun lib =>
    lib.netlists.map (·.nodes.size)) = some [1, 1] := by
  decide +kernel

theorem eager_fields : ∃ lib, (Ledger.compile {} [signed, eager]).result = .ok lib ∧
    [signed, eager][1]? = some eager ∧ "Signed" ∈ ([signed, eager].take 1).map Module.name ∧
    ∃ scope s, Reaches [signed] eager (0 + nodeCount (lib.netlists.take 1).reverse) [] scope s ∧
      ∀ field n t, Gives (fieldBits (bodyOf [signed] eager) scope "h" field n) t (.zeros n)
        { t with log := .noInstance (.identifier "h") field :: t.log } := by
  have hsizes := eager_sizes
  cases h : (Ledger.compile {} [signed, eager]).result with
  | error e =>
    rw [h] at hsizes
    cases hsizes
  | ok lib =>
    obtain ⟨hearly, -⟩ := early_fields h (k := 1) (m := eager) rfl
      (show eager.statements = [⟨⟨"early", none⟩, .member (.identifier "h") "q"⟩] ++
        ⟨⟨"h", none⟩, .call "Signed" [.identifier "a"]⟩ ::
          [⟨⟨"late", none⟩, .member (.identifier "h") "q"⟩] from rfl) (by decide) rfl (by decide)
    exact ⟨lib, rfl, rfl, by decide, hearly [] _ rfl⟩

end Designs

end Elaboration

end NandHdl
