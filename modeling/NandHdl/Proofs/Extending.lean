import NandHdl.Proofs.Meaning
import NandHdl.Proofs.Numbering

/-!
# Modules behind a design

A module sees the modules before it and nothing else. What is written behind a
design can make it fail as a whole, and changes nothing in it otherwise.

* `compileFrom_append`: the rest of a design is elaborated behind its beginning.
* `Opened`: the bodies that are open while a design is elaborated, at any depth.
* `Opened.body`: each is that of a module of the design, with the modules before that one to call.
* `Ledger.append_keeps_netlists`: **a longer design has the netlists of a shorter one**, and what is
  undefined in its modules stays so.
-/

namespace NandHdl

namespace Elaboration

/-! ## One part behind another -/

/-- **The rest of a design is elaborated behind its beginning**, if that compiles: with the modules of
the beginning to call, and from the next number on. -/
theorem compileFrom_append (ms extra : List Module) : ∀ es first,
    compileFrom (calleesOf es) first (ms ++ extra) =
      match (compileFrom (calleesOf es) first ms).result with
      | .error _ => compileFrom (calleesOf es) first ms
      | .ok ns =>
        let start := compileFrom (calleesOf es) first ms
        let rest := compileFrom (calleesOf (ms.reverse ++ es)) start.nextId extra
        ⟨rest.result.map (ns ++ ·), rest.nextId, start.log ++ rest.log⟩ := by
  induction ms with
  | nil =>
    intro es first
    rw [List.nil_append, List.reverse_nil, List.nil_append]
    simp only [compileFrom]
    rcases compileFrom (calleesOf es) first extra with ⟨_ | _, _, _⟩ <;> rfl
  | cons m ms ih =>
    intro es first
    rw [List.cons_append, compileFrom, compileFrom]
    cases (netlist (calleesOf es) m).run (State.initial first) with
    | mk r s =>
      cases r with
      | error e => rfl
      | ok n =>
        have hrest := ih (m :: es) s.nextId
        rw [calleesOf, tableOf, ← calleesOf] at hrest
        rw [List.reverse_cons, List.append_assoc, List.singleton_append]
        simp only [hrest]
        -- the module in front goes with the beginning
        rcases compileFrom (Callee.ofModule (calleesOf es) m :: calleesOf es) s.nextId ms
          with ⟨e | ns, next, log⟩
        · rfl
        · simp only [Except.map, List.append_assoc, List.cons_append]
          rcases compileFrom (calleesOf (ms.reverse ++ m :: es)) next extra with ⟨_ | _, _, _⟩ <;> rfl

/-- Both parts compile if the whole does. -/
theorem compileFrom_append_ok {ms extra es : List Module} {first : Nat} {ns : List Netlist} :
    (compileFrom (calleesOf es) first (ms ++ extra)).result = .ok ns ↔
      ∃ start rest, (compileFrom (calleesOf es) first ms).result = .ok start ∧
        (compileFrom (calleesOf (ms.reverse ++ es)) (compileFrom (calleesOf es) first ms).nextId extra).result =
          .ok rest ∧ ns = start ++ rest := by
  rw [compileFrom_append]
  cases hstart : (compileFrom (calleesOf es) first ms).result with
  | error e => simp only [hstart, reduceCtorEq, false_and, exists_false]
  | ok start =>
    simp only [Except.ok.injEq, exists_and_left, exists_eq_left']
    cases (compileFrom (calleesOf (ms.reverse ++ es))
      (compileFrom (calleesOf es) first ms).nextId extra).result with
    | error e => simp only [Except.map, reduceCtorEq, false_and, exists_false]
    | ok rest => simp only [Except.map, Except.ok.injEq, exists_eq_left', eq_comm]

/-! ## Open bodies -/

/-- While the design `ms` is elaborated, the body of `d` is open inside the instances `chain`, itself the
first of them, and `es` are the modules before `d`, the last one first. -/
inductive Opened (ms : List Module) : List Module → Module → List String → Prop
  | outermost {before : List Module} {m : Module} {after : List Module} (h : ms = before ++ m :: after) :
    Opened ms before.reverse m [m.name]
  | inner {es es' : List Module} {m d : Module} {chain : List String} {name : String}
    (outer : Opened ms es m chain) (h : es.dropWhile (·.name ≠ name) = d :: es') :
    Opened ms es' d (d.name :: chain)

/-- **The modules before a module are the same in all its instances**: those that stand before it in the
design. -/
theorem Opened.body {ms es : List Module} {d : Module} {chain : List String} (h : Opened ms es d chain) :
    ∃ after, ms = es.reverse ++ d :: after := by
  induction h with
  | @outermost before m after h => exact ⟨after, by rw [List.reverse_reverse, h]⟩
  | @inner es es' m d chain name _ hdrop ih =>
    obtain ⟨after, rfl⟩ := ih
    -- those before the callee are a part of those before the caller
    obtain ⟨skipped, hes⟩ : ∃ skipped, es = skipped ++ d :: es' :=
      ⟨es.takeWhile (·.name ≠ name), by rw [← hdrop, List.takeWhile_append_dropWhile]⟩
    refine ⟨skipped.reverse ++ m :: after, ?_⟩
    rw [hes, List.reverse_append, List.reverse_cons, List.append_assoc, List.append_assoc,
      List.singleton_append]

/-- A name that no module up to `d` has is one that `d` cannot call. -/
theorem callee?_undefined {es : List Module} {d : Module} {chain : List String} {name : String}
    (h : name ∉ definedFor es d) : Body.callee? ⟨d, chain, visibleFrom (calleesOf es) d⟩ name = none := by
  rw [definedFor, List.mem_cons, not_or] at h
  have hdrop : es.dropWhile (·.name ≠ name) = [] :=
    List.dropWhile_eq_nil_iff.2 fun e he => decide_eq_true fun hname =>
      h.2 (List.mem_map.2 ⟨e, he, hname⟩)
  rw [callee?_visible, if_neg fun hname => h.1 hname.symm, hdrop]

/-- A call of an undefined module is a black box, whatever its arguments are. -/
theorem expr_undefined {b : Body} {name : String} (hprim : isPrimitive name = false)
    (hnone : b.callee? name = none) (scope : Scope Signal) (want : Option Nat) (args : List Expr) :
    expr b scope want (.call name args) = (do
      note (.undefinedModule name b.module.name)
      return .blackBox) := by
  rw [isPrimitive, Bool.or_eq_false_iff, decide_eq_false_iff_not, decide_eq_false_iff_not] at hprim
  rw [expr.eq_7 b scope want name args hprim.1 hprim.2, hnone]

/-- **What no module of a design defines stays undefined in its modules** when others are written behind
them, in every instance. -/
theorem Opened.undefined {ms extra es : List Module} {d : Module} {chain : List String}
    (hnames : ((ms ++ extra).map Module.name).Nodup) (h : Opened (ms ++ extra) es d chain) (hd : d ∈ ms)
    {name : String} (hname : name ∉ ms.map Module.name) : name ∉ definedFor es d := by
  obtain ⟨after, hafter⟩ := h.body
  have hextra : d ∉ extra := by
    rw [List.map_append] at hnames
    exact fun hmem => (List.nodup_append.1 hnames).2.2 d.name (List.mem_map_of_mem hd) d.name
      (List.mem_map_of_mem hmem) rfl
  -- the module stands in the design once, so all that stands before it does so in `ms`
  have hpart : ∀ k ∈ d :: es, k ∈ ms := by
    rcases List.append_eq_append_iff.1 hafter with ⟨middle, -, hmiddle⟩ | ⟨middle, hms, hmiddle⟩
    · exact absurd (hmiddle ▸ List.mem_append_right middle List.mem_cons_self) hextra
    · cases middle with
      | nil =>
        rw [List.nil_append] at hmiddle
        exact absurd (hmiddle ▸ List.mem_cons_self) hextra
      | cons k middle =>
        obtain ⟨rfl, -⟩ := List.cons.inj hmiddle
        intro j hj
        rw [hms]
        rcases List.mem_cons.1 hj with rfl | hj
        · exact List.mem_append_right _ List.mem_cons_self
        · exact List.mem_append_left _ (List.mem_reverse.2 hj)
  intro hmem
  obtain ⟨k, hk, hkname⟩ : ∃ k ∈ d :: es, k.name = name := by
    rw [definedFor, ← List.map_cons] at hmem
    exact List.mem_map.1 hmem
  exact hname (List.mem_map.2 ⟨k, hpart k hk, hkname⟩)

end Elaboration

open Elaboration

namespace Ledger

variable {l : Ledger} {ms extra : List Module} {lib : Library}

/-- A design that compiles passes the checks before elaboration. -/
theorem check_of_compile (h : (l.compile ms).result = .ok lib) : checkDesign ms = .ok () := by
  cases hcheck : checkDesign ms with
  | error e =>
    rw [compile_of_error hcheck] at h
    cases h
  | ok u => rfl

/-- The beginning of a design that compiles does so on its own, to the same netlists. -/
theorem compile_beginning (hms : ms ≠ []) (h : (l.compile (ms ++ extra)).result = .ok lib) :
    ∃ ns rest, (l.compile ms).result = .ok ⟨ns⟩ ∧ lib.netlists = ns ++ rest := by
  have hfrom : (compileFrom (calleesOf []) l.nextId (ms ++ extra)).result = .ok lib.netlists :=
    compileFrom_of_compile h
  obtain ⟨ns, rest, hns, -, hlib⟩ := compileFrom_append_ok.1 hfrom
  exact ⟨ns, rest, compile_before (check_of_compile h) hms hns, hlib⟩

/-- A module that compiles is found under its name, and in a longer library as well. -/
theorem get?_of_append {ns : List Netlist} (rest : List Netlist)
    (hnames : ns.map Netlist.name = ms.map Module.name) {m : Module}
    (hm : m ∈ ms) :
    ∃ n, Library.get? ⟨ns⟩ m.name = some n ∧ Library.get? ⟨ns ++ rest⟩ m.name = some n := by
  have hmem : m.name ∈ ns.map Netlist.name := hnames ▸ List.mem_map_of_mem hm
  obtain ⟨n, hn, hname⟩ := List.mem_map.1 hmem
  have hsome : (ns.find? (·.name = m.name)).isSome :=
    List.find?_isSome.2 ⟨n, hn, decide_eq_true hname⟩
  obtain ⟨n', hn'⟩ := Option.isSome_iff_exists.1 hsome
  exact ⟨n', hn', by rw [Library.get?, List.find?_append, hn', Option.some_or]⟩

/-- **Modules behind a design change nothing in it.** If a longer design compiles, so does its beginning,
to the same netlists; if the beginning fails, so does the longer design. And a call of what no module of
the beginning defines stays a black box in its modules, in every instance of them, at any depth. -/
theorem append_keeps_netlists (l : Ledger) {ms : List Module} (hms : ms ≠ []) (extra : List Module) :
    (∀ lib, (l.compile (ms ++ extra)).result = .ok lib →
      (∃ start, (l.compile ms).result = .ok start ∧
        lib.netlists.take ms.length = start.netlists ∧
        ∀ m ∈ ms, ∃ n, start.get? m.name = some n ∧ lib.get? m.name = some n) ∧
      ∀ es d chain, Opened (ms ++ extra) es d chain → d ∈ ms →
        ∀ name, isPrimitive name = false → name ∉ ms.map Module.name → ∀ scope want args,
          expr ⟨d, chain, visibleFrom (calleesOf es) d⟩ scope want (.call name args) = (do
            note (.undefinedModule name d.name)
            return .blackBox)) ∧
    ∀ e, (l.compile ms).result = .error e → ∃ e', (l.compile (ms ++ extra)).result = .error e' := by
  refine ⟨fun lib h => ⟨?_, fun es d chain hopened hd name hprim hname scope want args => ?_⟩, fun e h => ?_⟩
  · obtain ⟨ns, rest, hstart, hlib⟩ := compile_beginning hms h
    have hof := (compiled_numbers hstart).1
    have hlength : ms.length = ns.length := hof.length_eq
    refine ⟨⟨ns⟩, hstart, ?_, fun m hm => ?_⟩
    · rw [hlib, hlength, List.take_left]
    · obtain ⟨n, hn, hn'⟩ := get?_of_append rest (names_of_isOf hof) hm
      exact ⟨n, hn, by rw [← hn', ← hlib]⟩
  · have hnames : ((ms ++ extra).map Module.name).Nodup := by
      rw [← names_of_isOf (compiled_numbers h).1]
      exact (netlists_wellFormed h).1
    exact expr_undefined hprim (callee?_undefined (hopened.undefined hnames hd hname)) scope want args
  · cases hlong : (l.compile (ms ++ extra)).result with
    | error e' => exact ⟨e', rfl⟩
    | ok lib =>
      obtain ⟨ns, rest, hstart, -⟩ := compile_beginning hms hlong
      rw [h] at hstart
      cases hstart

/-- A module that calls one which is defined behind it. -/
def early : Module :=
  ⟨"Mid", [⟨"a", 1⟩], [⟨"y", 1⟩], [⟨⟨"y", none⟩, .call "Not" [.identifier "a"]⟩]⟩

/-- The module that is called too early, and one that makes an instance of the caller. -/
def late : List Module :=
  [inverter, ⟨"Top", [⟨"a", 1⟩], [⟨"y", 1⟩], [⟨⟨"y", none⟩, .call "Mid" [.identifier "a"]⟩]⟩]

theorem late_sizes : ((({} : Ledger).compile ([early] ++ late)).result.toOption.map fun lib =>
    lib.netlists.map (·.nodes.size)) = some [0, 1, 0] := by decide +kernel

/-- What is called too early is a black box, in the instance inside the last module as well. -/
theorem early_keeps_netlist : [early] ≠ [] ∧ ∃ start lib, (({} : Ledger).compile [early]).result = .ok start ∧
    (({} : Ledger).compile ([early] ++ late)).result = .ok lib ∧ lib.netlists.take 1 = start.netlists ∧
    lib.netlists.map (·.nodes.size) = [0, 1, 0] ∧ ∀ scope want args,
      expr ⟨early, ["Mid", "Top"], visibleFrom (calleesOf []) early⟩ scope want (.call "Not" args) = (do
        note (.undefinedModule "Not" "Mid")
        return .blackBox) := by
  refine ⟨List.cons_ne_nil early [], ?_⟩
  have hsizes := late_sizes
  cases h : (({} : Ledger).compile ([early] ++ late)).result with
  | error e =>
    rw [h] at hsizes
    cases hsizes
  | ok lib =>
    rw [h] at hsizes
    obtain ⟨⟨start, hstart, hnetlists, -⟩, hundefined⟩ :=
      (append_keeps_netlists {} (List.cons_ne_nil early []) late).1 lib h
    refine ⟨start, lib, hstart, rfl, hnetlists, Option.some.inj hsizes, ?_⟩
    have htop : Opened ([early] ++ late) [inverter, early] _ ["Top"] :=
      @Opened.outermost _ [early, inverter] _ [] rfl
    have hinside : Opened ([early] ++ late) [] early ["Mid", "Top"] := @Opened.inner _ _ _ _ _ _ "Mid" htop rfl
    exact hundefined [] early ["Mid", "Top"] hinside (List.mem_singleton.2 rfl) "Not" (by decide) (by decide)

end Ledger

end NandHdl
