import Mathlib.Data.List.Nodup
import NandHdl.Scope

/-!
# Two views of a scope

Names are read one at a time, and the reader stops at the newest binding of a name. The list of all newest bindings
is made the other way round: it starts with the oldest binding and is changed in place by every later one.

* `Scope.recOnBind`: every scope is made by bindings.
* `Scope.latest_bind`, `Scope.map_fst_update`: what a binding does to the list.
* `Scope.mem_latest_iff`: **the bindings listed are those that are looked up.**
* `Scope.pairwise_latest`: names are listed in the order in which they were first bound.
* `Scope.views_agree`: both views of the scope that a sequence of bindings makes.
-/

namespace NandHdl

namespace Scope

variable {α : Type} {scope : Scope α} {name other : String} {value x : α}

/-- What holds of the empty scope and is kept by every binding holds of all scopes. -/
@[elab_as_elim]
theorem recOnBind {motive : Scope α → Prop} (scope : Scope α) (empty : motive .empty)
    (bind : ∀ scope name value, motive scope → motive (scope.bind name value)) : motive scope := by
  obtain ⟨bs⟩ := scope
  induction bs with
  | nil => exact empty
  | cons b bs ih => exact bind ⟨bs⟩ b.1 b.2 ih

/-! ## The list of the newest bindings -/

theorem latest_bind (scope : Scope α) (name : String) (value : α) :
    (scope.bind name value).latest = update name value scope.latest := by
  simp only [latest, oldestFirst, bind, List.reverse_cons, List.foldl_append, List.foldl_cons, List.foldl_nil]

theorem map_fst_update (name : String) (value : α) (found : List (String × α)) :
    (update name value found).map Prod.fst =
      if name ∈ found.map Prod.fst then found.map Prod.fst else found.map Prod.fst ++ [name] := by
  induction found with
  | nil => rfl
  | cons e found ih =>
    rw [update]
    by_cases he : e.1 = name
    · simp [he]
    · rw [if_neg he, List.map_cons, ih]
      simp only [List.map_cons, List.mem_cons, Ne.symm he, false_or]
      split <;> rfl

/-- No name occurs twice among the newest bindings. -/
theorem nodup_latest (scope : Scope α) : (scope.latest.map Prod.fst).Nodup := by
  induction scope using recOnBind with
  | empty => exact List.nodup_nil
  | bind scope name value ih =>
    rw [latest_bind, map_fst_update]
    split
    · exact ih
    · next hnew =>
      refine List.nodup_append.2 ⟨ih, List.nodup_singleton _, fun other hother n hn heq => hnew ?_⟩
      rwa [← List.mem_singleton.1 hn, ← heq]

theorem mem_update_of_nodup {found : List (String × α)} (hnodup : (found.map Prod.fst).Nodup)
    (h : (other, x) ∈ update name value found) :
    other = name ∧ x = value ∨ other ≠ name ∧ (other, x) ∈ found := by
  induction found with
  | nil =>
    rw [update, List.mem_singleton] at h
    cases h
    exact .inl ⟨rfl, rfl⟩
  | cons e found ih =>
    obtain ⟨hnew, hnodup⟩ := List.nodup_cons.1 (List.map_cons ▸ hnodup)
    rw [update] at h
    by_cases he : e.1 = name
    · rw [if_pos he] at h
      rcases List.mem_cons.1 h with heq | hmem
      · cases heq
        exact .inl ⟨he, rfl⟩
      · refine .inr ⟨fun heq => hnew ?_, List.mem_cons_of_mem e hmem⟩
        rw [he, ← heq]
        exact List.mem_map_of_mem hmem
    · rw [if_neg he] at h
      rcases List.mem_cons.1 h with heq | hmem
      · cases heq
        exact .inr ⟨he, List.mem_cons_self⟩
      · exact (ih hnodup hmem).imp_right (And.imp_right (List.mem_cons_of_mem e))

/-- A name that is given a value is listed with it. -/
theorem mem_update_self (name : String) (value : α) (found : List (String × α)) :
    (name, value) ∈ update name value found := by
  induction found with
  | nil => exact List.mem_singleton.2 rfl
  | cons e found ih =>
    rw [update]
    split
    · next he => exact he ▸ List.mem_cons_self
    · exact List.mem_cons_of_mem e ih

/-- All other names keep their values. -/
theorem mem_update_of_ne {found : List (String × α)} (hne : other ≠ name) (h : (other, x) ∈ found) :
    (other, x) ∈ update name value found := by
  induction found with
  | nil => cases h
  | cons e found ih =>
    rw [update]
    rcases List.mem_cons.1 h with rfl | h
    · rw [if_neg hne]
      exact List.mem_cons_self
    · split
      · exact List.mem_cons_of_mem _ h
      · exact List.mem_cons_of_mem e (ih h)

/-! ## Both views -/

/-- **The newest bindings are those that are looked up.** -/
theorem mem_latest_iff : (name, x) ∈ scope.latest ↔ scope.lookup name = some x := by
  induction scope using recOnBind with
  | empty => exact ⟨nofun, nofun⟩
  | bind scope n v ih =>
    rw [latest_bind, lookup_bind]
    by_cases hn : n = name
    · subst hn
      rw [if_pos rfl, Option.some.injEq]
      constructor
      · intro h
        rcases mem_update_of_nodup (nodup_latest scope) h with ⟨-, hx⟩ | ⟨hne, -⟩
        · exact hx.symm
        · exact absurd rfl hne
      · rintro rfl
        exact mem_update_self n v scope.latest
    · rw [if_neg hn, ← ih]
      refine ⟨fun h => ?_, mem_update_of_ne (Ne.symm hn)⟩
      rcases mem_update_of_nodup (nodup_latest scope) h with ⟨heq, -⟩ | ⟨-, hmem⟩
      · exact absurd heq.symm hn
      · exact hmem

/-- What is listed is bound. -/
theorem mem_of_mem_latest {e : String × α} (h : e ∈ scope.latest) : e ∈ scope.newestFirst :=
  mem_of_lookup (mem_latest_iff.1 h)

theorem lookup_eq_none_iff : scope.lookup name = none ↔ name ∉ scope.latest.map Prod.fst := by
  constructor
  · intro hnone hmem
    obtain ⟨⟨n, x⟩, he, rfl⟩ := List.mem_map.1 hmem
    cases hnone.symm.trans (mem_latest_iff.1 he)
  · intro hmem
    cases hlookup : scope.lookup name with
    | none => rfl
    | some x => exact absurd (List.mem_map_of_mem (mem_latest_iff.2 hlookup)) hmem

theorem oldestFirst_bind (scope : Scope α) (name : String) (value : α) :
    (scope.bind name value).oldestFirst = scope.oldestFirst ++ [(name, value)] := List.reverse_cons

/-- The names listed are the bound ones. -/
theorem mem_names_latest : name ∈ scope.latest.map Prod.fst ↔ name ∈ scope.oldestFirst.map Prod.fst := by
  induction scope using recOnBind with
  | empty => exact Iff.rfl
  | bind scope n v ih =>
    rw [latest_bind, map_fst_update, oldestFirst_bind, List.map_append, List.mem_append, ← ih]
    split
    · next hmem =>
      refine ⟨.inl, fun h => h.elim id fun hn => ?_⟩
      rw [List.mem_singleton.1 hn]
      exact hmem
    · exact List.mem_append

/-- **Names are listed in the order in which they were first bound.** -/
theorem pairwise_latest (scope : Scope α) : (scope.latest.map Prod.fst).Pairwise fun n m =>
    (scope.oldestFirst.map Prod.fst).idxOf n < (scope.oldestFirst.map Prod.fst).idxOf m := by
  induction scope using recOnBind with
  | empty => exact .nil
  | bind scope name value ih =>
    rw [latest_bind, map_fst_update, oldestFirst_bind, List.map_append]
    -- the names listed so far stand where they stood
    have hold : (scope.latest.map Prod.fst).Pairwise fun n m =>
        (scope.oldestFirst.map Prod.fst ++ [name]).idxOf n < (scope.oldestFirst.map Prod.fst ++ [name]).idxOf m := by
      refine ih.imp_of_mem fun hn hm hlt => ?_
      rwa [List.idxOf_append_of_mem (mem_names_latest.1 hn), List.idxOf_append_of_mem (mem_names_latest.1 hm)]
    split
    · exact hold
    · next hnew =>
      refine List.pairwise_append.2 ⟨hold, List.pairwise_singleton _ _, fun n hn m hm => ?_⟩
      rw [List.mem_singleton.1 hm, List.idxOf_append_of_mem (mem_names_latest.1 hn),
        List.idxOf_append_of_notMem fun h => hnew (mem_names_latest.2 h)]
      exact Nat.lt_add_right _ (List.idxOf_lt_length_of_mem (mem_names_latest.1 hn))

/-- What a name stands for is bound to it last. -/
theorem lookup_eq_some_iff : scope.lookup name = some x ↔
    ∃ earlier later, scope.oldestFirst = earlier ++ (name, x) :: later ∧ name ∉ later.map Prod.fst := by
  induction scope using recOnBind with
  | empty =>
    refine ⟨nofun, ?_⟩
    rintro ⟨earlier, later, h, -⟩
    cases earlier <;> cases h
  | bind scope n v ih =>
    rw [lookup_bind, oldestFirst_bind]
    constructor
    · intro h
      by_cases hn : n = name
      · rw [if_pos hn, Option.some.injEq] at h
        exact ⟨scope.oldestFirst, [], by rw [hn, h], nofun⟩
      · rw [if_neg hn] at h
        obtain ⟨earlier, later, hsplit, hlater⟩ := ih.1 h
        refine ⟨earlier, later ++ [(n, v)], by rw [hsplit, List.append_assoc, List.cons_append], ?_⟩
        rw [List.map_append, List.mem_append, not_or]
        exact ⟨hlater, fun hmem => hn (List.mem_singleton.1 hmem).symm⟩
    · rintro ⟨earlier, later, hsplit, hlater⟩
      rcases List.eq_nil_or_concat later with rfl | ⟨init, last, rfl⟩
      · -- the last binding is the one looked for
        obtain ⟨-, hlast⟩ := List.append_inj' hsplit rfl
        cases hlast
        exact if_pos rfl
      · rw [List.concat_eq_append] at hsplit hlater
        rw [← List.cons_append, ← List.append_assoc] at hsplit
        obtain ⟨hinit, hlast⟩ := List.append_inj' hsplit rfl
        cases hlast
        rw [List.map_append, List.mem_append, not_or] at hlater
        rw [if_neg fun hn => hlater.2 (List.mem_singleton.2 hn.symm)]
        exact ih.2 ⟨earlier, init, hinit, hlater.1⟩

/-- The scope that bindings make, one after another. -/
def bindAll (bs : List (String × α)) : Scope α := bs.foldl (fun scope b => scope.bind b.1 b.2) .empty

/-- The bindings made are those of the scope. -/
theorem oldestFirst_bindAll (bs : List (String × α)) : (bindAll bs).oldestFirst = bs := by
  have hfold : ∀ (bs : List (String × α)) (scope : Scope α),
      (bs.foldl (fun scope b => scope.bind b.1 b.2) scope).oldestFirst = scope.oldestFirst ++ bs := by
    intro bs
    induction bs with
    | nil => exact fun scope => (List.append_nil _).symm
    | cons b bs ih =>
      intro scope
      rw [List.foldl_cons, ih, oldestFirst_bind, List.append_assoc, List.singleton_append]
  exact hfold bs .empty

/-- **The two views of a scope agree.** Whatever names are bound in whatever order and however often: the list of
the newest bindings has each bound name once and no other, in the order in which they were first bound, and with the
value that looking it up gives. That is the value bound to it last, and there is none for the names not listed. -/
theorem views_agree (bs : List (String × α)) :
    let scope := bindAll bs
    let bound := bs.map Prod.fst
    let listed := scope.latest.map Prod.fst
    listed.Nodup ∧ (∀ name, name ∈ listed ↔ name ∈ bound) ∧
      listed.Pairwise (fun n m => bound.idxOf n < bound.idxOf m) ∧
      (∀ name value, (name, value) ∈ scope.latest ↔ scope.lookup name = some value) ∧
      (∀ name value, scope.lookup name = some value ↔
        ∃ earlier later, bs = earlier ++ (name, value) :: later ∧ name ∉ later.map Prod.fst) ∧
      ∀ name, scope.lookup name = none ↔ name ∉ listed := by
  intro scope bound listed
  have hbound : scope.oldestFirst.map Prod.fst = bound := by rw [oldestFirst_bindAll]
  refine ⟨nodup_latest scope, fun name => ?_, ?_, fun name value => mem_latest_iff, fun name value => ?_,
    fun name => lookup_eq_none_iff⟩
  · rw [← hbound]
    exact mem_names_latest
  · rw [← hbound]
    exact pairwise_latest scope
  · rw [lookup_eq_some_iff, oldestFirst_bindAll]

example : (bindAll [("a", 1), ("b", 2), ("a", 3)]).latest = [("a", 3), ("b", 2)] := by decide

end Scope

end NandHdl
