import NandHdl.Proofs.Raise
import NandHdl.Proofs.WellFormed

/-!
# Node numbers from one design to the next

A ledger hands out node numbers in order. Only modules that compile take any.

* `compileFrom_raise`: a later start raises all numbers and changes nothing else.
* `compileFrom_ok`, `compileFrom_error`: the numbers that a design takes.
* `Call`, `History`: the calls on a ledger, and the numbers handed out since the last reset.
* `Ledger.Accounts`: how a design is compiled at a ledger.
* `history_accounts`: **whatever was called before, all numbers are accounted for**, and those handed out
  since the last reset increase.
-/

namespace NandHdl

/-- The numbers of the nodes, in order. -/
def Netlist.ids (n : Netlist) : List Nat := n.nodes.toList.map Node.id

/-- The numbers of all nodes, one netlist after another. -/
def Library.ids (lib : Library) : List Nat := lib.netlists.flatMap Netlist.ids

/-- The netlists with all node numbers raised. -/
def Library.raise (c : Nat) (lib : Library) : Library := ⟨lib.netlists.map (Netlist.raise c)⟩

/-- The outcome with all node numbers raised, the next one included. -/
def Ledger.Outcome.raise (c : Nat) (o : Ledger.Outcome) : Ledger.Outcome :=
  ⟨o.result.map (Library.raise c), ⟨o.ledger.nextId + c⟩, o.log.map (Event.raise c)⟩

namespace Elaboration

variable {es ms : List Module} {first : Nat} {ns : List Netlist} {e : CompileError}

/-! ## A later start -/

/-- The outcome with all node numbers raised, the next one included. -/
def Outcome.raise (c : Nat) (o : Outcome (List Netlist)) : Outcome (List Netlist) :=
  ⟨o.result.map (List.map (Netlist.raise c)), o.nextId + c, o.log.map (Event.raise c)⟩

theorem initial_raise (first c : Nat) : State.initial (first + c) = (State.initial first).raise c := by
  simp only [State.initial, State.raise, Array.map_empty, List.map_nil]

/-- **Modules are elaborated alike from a later number.** -/
theorem compileFrom_raise (c : Nat) (ms : List Module) : ∀ es first,
    compileFrom (calleesOf es) (first + c) ms = (compileFrom (calleesOf es) first ms).raise c := by
  induction ms with
  | nil => exact fun _ _ => rfl
  | cons m ms ih =>
    intro es first
    have hm := raises_netlist (raises_calleesOf (c := c) es) m (State.initial first)
    rw [compileFrom, compileFrom, initial_raise]
    generalize (netlist (calleesOf es) m).run (State.initial first) = r at hm ⊢
    generalize (netlist (calleesOf es) m).run ((State.initial first).raise c) = r' at hm ⊢
    cases hm with
    | error he s => simp only [Outcome.raise, State.raise, List.map_reverse, Except.map]
    | ok n s =>
      have hrest : compileFrom (Callee.ofModule (calleesOf es) m :: calleesOf es) (s.nextId + c) ms =
          (compileFrom (Callee.ofModule (calleesOf es) m :: calleesOf es) s.nextId ms).raise c :=
        ih (m :: es) s.nextId
      simp only [State.raise, hrest]
      generalize compileFrom (Callee.ofModule (calleesOf es) m :: calleesOf es) s.nextId ms = rest
      simp only [Outcome.raise, Netlist.raise, Array.size_map, List.map_append, List.map_cons, List.map_reverse,
        Event.raise]
      cases rest.result <;> rfl

/-! ## The numbers that a design takes -/

/-- The netlists are numbered one after another from `first` on. -/
def NumberedFrom (first : Nat) (ns : List Netlist) : Prop :=
  ∀ j n, ns[j]? = some n → n.ids = List.range' (first + nodeCount (ns.take j)) n.nodes.size

theorem nodeCount_cons (n : Netlist) (ns : List Netlist) : nodeCount (n :: ns) = n.nodes.size + nodeCount ns := by
  rw [nodeCount, List.map_cons, List.sum_cons, nodeCount]

theorem NumberedFrom.cons {n : Netlist} (hn : n.ids = List.range' first n.nodes.size)
    (hns : NumberedFrom (first + n.nodes.size) ns) : NumberedFrom first (n :: ns) := by
  intro j d hd
  cases j with
  | zero =>
    cases hd
    exact hn
  | succ j =>
    rw [List.take_succ_cons, nodeCount_cons, ← Nat.add_assoc]
    exact hns j d hd

/-- Netlists numbered one after another have all numbers from the first one on. -/
theorem NumberedFrom.flatMap_ids (h : NumberedFrom first ns) :
    ns.flatMap Netlist.ids = List.range' first (nodeCount ns) := by
  induction ns generalizing first with
  | nil => rfl
  | cons n ns ih =>
    have hn : n.ids = List.range' first n.nodes.size := h 0 n rfl
    have hns : NumberedFrom (first + n.nodes.size) ns := by
      intro j d hd
      have hd' := h (j + 1) d hd
      rwa [List.take_succ_cons, nodeCount_cons, ← Nat.add_assoc] at hd'
    rw [List.flatMap_cons, ih hns, hn, nodeCount_cons]
    exact List.range'_append_1

/-- The numbers of a netlist, and the next one behind it. -/
theorem ids_of_netlist {m : Module} {n : Netlist} {s : State}
    (h : Gives (netlist (calleesOf es) m) (State.initial first) n s) :
    n.ids = List.range' first n.nodes.size ∧ s.nextId = first + n.nodes.size := by
  obtain ⟨hclosed, hnext⟩ := closed_of_netlist (fun ρ => follows_calleesOf ρ es) h
  exact ⟨map_id_of_ids hclosed.ids, hnext⟩

/-- Behind a module that compiles it goes on from the next number. -/
theorem compileFrom_of_gives {m : Module} {n : Netlist} {s : State}
    (h : Gives (netlist (calleesOf es) m) (State.initial first) n s) (ms : List Module) :
    (compileFrom (calleesOf es) first (m :: ms)).result =
        (compileFrom (calleesOf (m :: es)) s.nextId ms).result.map (n :: ·) ∧
      (compileFrom (calleesOf es) first (m :: ms)).nextId =
        (compileFrom (calleesOf (m :: es)) s.nextId ms).nextId := by
  have hrun : (netlist (calleesOf es) m).run (State.initial first) = (.ok n, s) := h
  rw [compileFrom, hrun]
  exact ⟨rfl, rfl⟩

/-- **A design that compiles** takes one number for each node, in order. -/
theorem compileFrom_ok (ms : List Module) : ∀ (es : List Module) {first : Nat} {ns : List Netlist},
    (compileFrom (calleesOf es) first ms).result = .ok ns →
      List.Forall₂ (fun m n => n.IsOf m) ms ns ∧ NumberedFrom first ns ∧
        (compileFrom (calleesOf es) first ms).nextId = first + nodeCount ns := by
  induction ms with
  | nil =>
    intro es first ns h
    cases h
    exact ⟨.nil, nofun, rfl⟩
  | cons m ms ih =>
    intro es first ns h
    obtain ⟨n, s, rest, hn, hrest, rfl⟩ := compileFrom_cons h
    obtain ⟨hids, hnext⟩ := ids_of_netlist hn
    obtain ⟨hof, hnumbered, hlast⟩ := ih (m :: es) hrest
    rw [hnext] at hnumbered
    refine ⟨.cons (isOf_of_netlist hn) hof, .cons hids hnumbered, ?_⟩
    rw [nodeCount_cons, ← Nat.add_assoc, ← hnext, (compileFrom_of_gives hn ms).2]
    exact hlast

/-- **A design that fails** fails in one module, and only the modules before it take numbers. -/
theorem compileFrom_error (ms : List Module) : ∀ (es : List Module) {first : Nat} {e : CompileError},
    (compileFrom (calleesOf es) first ms).result = .error e →
      ¬ e.OfDesign ∧ ∃ before m after ns, ms = before ++ m :: after ∧
        (compileFrom (calleesOf es) first before).result = .ok ns ∧
        ((netlist (calleesOf (before.reverse ++ es)) m).run (State.initial (first + nodeCount ns))).1 = .error e ∧
        (compileFrom (calleesOf es) first ms).nextId = first + nodeCount ns := by
  induction ms with
  | nil => exact fun _ _ _ h => nomatch h
  | cons m ms ih =>
    intro es first e h
    cases hrun : (netlist (calleesOf es) m).run (State.initial first) with
    | mk r s =>
      cases r with
      | error e' =>
        have hbody := (raises_netlist (raises_calleesOf (c := 0) es) m).not_ofDesign hrun
        rw [compileFrom, hrun] at h ⊢
        cases h
        refine ⟨hbody, [], m, ms, [], rfl, rfl, ?_, rfl⟩
        change ((netlist (calleesOf es) m).run (State.initial first)).1 = .error e
        rw [hrun]
      | ok n =>
        obtain ⟨-, hnext⟩ := ids_of_netlist hrun
        rw [(compileFrom_of_gives hrun ms).1] at h
        rw [(compileFrom_of_gives hrun ms).2]
        have hrest : (compileFrom (calleesOf (m :: es)) s.nextId ms).result = .error e := by
          cases hr : (compileFrom (calleesOf (m :: es)) s.nextId ms).result with
          | error e' =>
            rw [hr] at h
            exact h
          | ok rest =>
            rw [hr] at h
            cases h
        -- the module that fails is one of the rest, and this one takes its numbers
        obtain ⟨he, before, d, after, ns, rfl, hbefore, hd, hlast⟩ := ih (m :: es) hrest
        rw [hnext, Nat.add_assoc, ← nodeCount_cons] at hd
        refine ⟨he, m :: before, d, after, n :: ns, rfl, ?_, ?_, ?_⟩
        · rw [(compileFrom_of_gives hrun before).1, hbefore]
          rfl
        · rw [List.reverse_cons, List.append_assoc]
          exact hd
        · rw [nodeCount_cons, ← Nat.add_assoc, ← hnext]
          exact hlast

/-! ## The checks before elaboration -/

theorem checkModule_error {seen : List String} {m : Module} (h : checkModule seen m = .error e) :
    e.OfDesign := by
  rw [checkModule] at h
  split at h
  · cases h
    trivial
  split at h
  · cases h
    trivial
  split at h
  · cases h
    trivial
  · cases h

theorem checkModules_error {ms : List Module} : ∀ {seen : List String},
    checkModules seen ms = .error e → e.OfDesign := by
  induction ms with
  | nil => exact fun h => nomatch h
  | cons m ms ih =>
    intro seen h
    rw [checkModules] at h
    cases hm : checkModule seen m with
    | error e' =>
      rw [hm] at h
      cases h
      exact checkModule_error hm
    | ok u =>
      rw [hm] at h
      exact ih h

theorem checkDesign_error (h : checkDesign ms = .error e) : e.OfDesign := by
  rw [checkDesign] at h
  split at h
  · cases h
    trivial
  · exact checkModules_error h

/-- The modules before a module pass the checks that the design passes. -/
theorem checkModules_append {before after : List Module} : ∀ {seen : List String},
    checkModules seen (before ++ after) = .ok () → checkModules seen before = .ok () := by
  induction before with
  | nil => exact fun _ => rfl
  | cons m before ih =>
    intro seen h
    rw [List.cons_append, checkModules] at h
    rw [checkModules]
    cases hm : checkModule seen m with
    | error e =>
      rw [hm] at h
      cases h
    | ok u =>
      rw [hm] at h
      exact ih h

end Elaboration

open Elaboration

/-! ## Calls on a ledger -/

/-- A call on a ledger. -/
inductive Call
  | compile (modules : List Module)
  | reset

/-- The ledger after some calls, and the numbers of the nodes of all designs compiled since it was reset. -/
structure History where
  ledger : Ledger
  ids : List Nat
deriving DecidableEq

namespace History

/-- No call yet. -/
def start : History := ⟨{}, []⟩

/-- The history after one more call. -/
def next (h : History) : Call → History
  | .compile ms =>
    let r := h.ledger.compile ms
    match r.result with
    | .ok lib => ⟨r.ledger, h.ids ++ lib.ids⟩
    | .error _ => ⟨r.ledger, h.ids⟩
  | .reset => ⟨h.ledger.reset, []⟩

/-- The history of some calls on a new ledger. -/
def of (calls : List Call) : History := calls.foldl next start

end History

namespace Ledger

/-- What compiling a design at a ledger comes to. -/
structure Accounts (l : Ledger) (ms : List Module) : Prop where
  /-- It is what comes of it at a new ledger, with all node numbers raised. -/
  raised : l.compile ms = ((({} : Ledger).compile ms).raise l.nextId)
  /-- A design that compiles takes a number for each node, one module after another. -/
  compiled : ∀ lib, (l.compile ms).result = .ok lib →
    List.Forall₂ (fun m n => n.IsOf m) ms lib.netlists ∧ NumberedFrom l.nextId lib.netlists ∧
      (l.compile ms).ledger.nextId = l.nextId + nodeCount lib.netlists
  /-- One that fails in a module takes numbers for the modules before it, which compile on their own. -/
  failed : ∀ e, (l.compile ms).result = .error e → ¬ e.OfDesign → ∃ before m after ns,
    ms = before ++ m :: after ∧ (compileFrom [] l.nextId before).result = .ok ns ∧
      (before ≠ [] → (l.compile before).result = .ok ⟨ns⟩) ∧
      ((netlist (calleesOf before.reverse) m).run (State.initial (l.nextId + nodeCount ns))).1 = .error e ∧
      (l.compile ms).ledger.nextId = l.nextId + nodeCount ns
  /-- One that is wrong as a whole or in a declaration takes none. -/
  refused : ∀ e, (l.compile ms).result = .error e → e.OfDesign → (l.compile ms).ledger = l

variable {l : Ledger} {ms : List Module} {lib : Library} {e : CompileError}

theorem compile_of_error (h : checkDesign ms = .error e) : l.compile ms = ⟨.error e, l, []⟩ := by
  rw [compile, h]

theorem compile_of_ok (h : checkDesign ms = .ok ()) : l.compile ms =
    ⟨(compileFrom [] l.nextId ms).result.map Library.mk, ⟨(compileFrom [] l.nextId ms).nextId⟩,
      (compileFrom [] l.nextId ms).log⟩ := by
  rw [compile, h]

theorem compile_raise (l : Ledger) (ms : List Module) :
    l.compile ms = ((({} : Ledger).compile ms).raise l.nextId) := by
  cases h : checkDesign ms with
  | error e =>
    rw [compile_of_error h, compile_of_error h]
    simp only [Outcome.raise, Except.map, Nat.zero_add, List.map_nil]
  | ok u =>
    have hraise : compileFrom [] l.nextId ms = (compileFrom [] 0 ms).raise l.nextId := by
      have h := compileFrom_raise l.nextId ms [] 0
      rwa [Nat.zero_add] at h
    rw [compile_of_ok h, compile_of_ok h, hraise]
    simp only [Elaboration.Outcome.raise, Outcome.raise]
    cases (compileFrom [] 0 ms).result <;> rfl

/-- What a design that compiles comes to. -/
theorem compiled_numbers (h : (l.compile ms).result = .ok lib) :
    List.Forall₂ (fun m n => n.IsOf m) ms lib.netlists ∧ NumberedFrom l.nextId lib.netlists ∧
      (l.compile ms).ledger.nextId = l.nextId + nodeCount lib.netlists := by
  obtain ⟨hof, hnumbered, hnext⟩ := compileFrom_ok ms [] (compileFrom_of_compile h)
  refine ⟨hof, hnumbered, ?_⟩
  cases hcheck : checkDesign ms with
  | error e =>
    rw [compile_of_error hcheck] at h
    cases h
  | ok u =>
    rw [compile_of_ok hcheck]
    exact hnext

/-- Modules that compile one after another compile as a design if there are any. -/
theorem compile_before {before after : List Module} {ns : List Netlist}
    (hcheck : checkDesign (before ++ after) = .ok ()) (hbefore : before ≠ [])
    (h : (compileFrom [] l.nextId before).result = .ok ns) : (l.compile before).result = .ok ⟨ns⟩ := by
  have hempty : before.isEmpty = false := List.isEmpty_eq_false_iff.2 hbefore
  have hprefix : checkDesign before = .ok () := by
    rw [checkDesign] at hcheck ⊢
    rw [hempty]
    split at hcheck
    · cases hcheck
    · exact checkModules_append hcheck
  rw [compile_of_ok hprefix, h]
  rfl

/-- What does not compile is refused as a whole, or fails in one module behind others that compile. -/
theorem compile_fails (h : (l.compile ms).result = .error e) :
    (e.OfDesign ∧ (l.compile ms).ledger = l) ∨ (¬ e.OfDesign ∧ ∃ before m after ns,
      ms = before ++ m :: after ∧ (compileFrom [] l.nextId before).result = .ok ns ∧
        (before ≠ [] → (l.compile before).result = .ok ⟨ns⟩) ∧
        ((netlist (calleesOf before.reverse) m).run (State.initial (l.nextId + nodeCount ns))).1 = .error e ∧
        (l.compile ms).ledger.nextId = l.nextId + nodeCount ns) := by
  cases hcheck : checkDesign ms with
  | error e' =>
    rw [compile_of_error hcheck] at h ⊢
    cases h
    exact .inl ⟨checkDesign_error hcheck, rfl⟩
  | ok u =>
    rw [compile_of_ok hcheck] at h ⊢
    have hresult : (compileFrom [] l.nextId ms).result = .error e := by
      cases hr : (compileFrom [] l.nextId ms).result with
      | error e' =>
        rw [hr] at h
        cases h
        rfl
      | ok ns =>
        rw [hr] at h
        cases h
    obtain ⟨he, before, m, after, ns, rfl, hbefore, hm, hnext⟩ := compileFrom_error ms [] hresult
    rw [List.append_nil] at hm
    exact .inr ⟨he, before, m, after, ns, rfl, hbefore, fun hne => compile_before hcheck hne hbefore, hm, hnext⟩

theorem accounts (l : Ledger) (ms : List Module) : l.Accounts ms where
  raised := compile_raise l ms
  compiled _ h := compiled_numbers h
  failed _ h he := ((compile_fails h).resolve_left fun hdesign => he hdesign.1).2
  refused _ h he := ((compile_fails h).resolve_right fun hbody => hbody.1 he).2

/-- Numbers are not taken back. -/
theorem nextId_le_compile (l : Ledger) (ms : List Module) : l.nextId ≤ (l.compile ms).ledger.nextId := by
  cases h : (l.compile ms).result with
  | ok lib =>
    rw [(compiled_numbers h).2.2]
    exact Nat.le_add_right _ _
  | error e =>
    rcases compile_fails h with ⟨-, hsame⟩ | ⟨-, _, _, _, ns, -, -, -, -, hnext⟩
    · rw [hsame]
    · rw [hnext]
      exact Nat.le_add_right _ _

end Ledger

namespace History

/-- The numbers handed out since the last reset increase, and the ledger has not come to the next one. -/
structure Sound (h : History) : Prop where
  increase : h.ids.Pairwise (· < ·)
  below : ∀ id ∈ h.ids, id < h.ledger.nextId

theorem sound_start : start.Sound := ⟨.nil, nofun⟩

/-- **A call hands out larger numbers than before**, or none. -/
theorem Sound.next {h : History} (hs : h.Sound) (call : Call) : (h.next call).Sound := by
  cases call with
  | reset => exact ⟨.nil, nofun⟩
  | compile ms =>
    have hle := h.ledger.nextId_le_compile ms
    rw [History.next]
    cases hr : (h.ledger.compile ms).result with
    | error e => exact ⟨hs.increase, fun id hid => Nat.lt_of_lt_of_le (hs.below id hid) hle⟩
    | ok lib =>
      obtain ⟨-, hnumbered, hnext⟩ := Ledger.compiled_numbers hr
      have hids : lib.ids = List.range' h.ledger.nextId (nodeCount lib.netlists) := hnumbered.flatMap_ids
      simp only [hids]
      refine ⟨List.pairwise_append.2 ⟨hs.increase, List.pairwise_lt_range', ?_⟩, fun id hid => ?_⟩
      · intro id hid id' hid'
        exact Nat.lt_of_lt_of_le (hs.below id hid) (List.mem_range'_1.1 hid').1
      · rcases List.mem_append.1 hid with hid | hid
        · exact Nat.lt_of_lt_of_le (hs.below id hid) hle
        · rw [hnext]
          exact (List.mem_range'_1.1 hid).2

theorem sound_of (calls : List Call) : (History.of calls).Sound := by
  have hfold : ∀ h : History, h.Sound → (calls.foldl History.next h).Sound := by
    induction calls with
    | nil => exact fun _ h => h
    | cons call calls ih => exact fun h hs => ih _ (hs.next call)
  exact hfold start sound_start

end History

/-- **All numbers are accounted for**, whatever was called before: those handed out since the last reset
increase, so no two are the same, and a design comes to what it comes to at a new ledger, with all numbers
raised by those taken so far. -/
theorem history_accounts (calls : List Call) :
    (History.of calls).ids.Pairwise (· < ·) ∧ ∀ ms, (History.of calls).ledger.Accounts ms :=
  ⟨(History.sound_of calls).increase, fun ms => (History.of calls).ledger.accounts ms⟩

/-- A module that calls itself, behind one that compiles: the first one has taken its number. -/
example : (History.of [.compile latched, .reset, .compile latched,
      .compile [inverter, ⟨"Loop", [], [⟨"y", 1⟩], [⟨⟨"y", none⟩, .call "Loop" []⟩]⟩], .compile []]) =
    ⟨⟨11⟩, List.range 10⟩ := by decide +kernel

end NandHdl
