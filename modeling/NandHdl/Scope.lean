/-!
# Scopes

A scope is a list of bindings that only grows. Binding a name again shadows its
earlier binding.

* `Scope.lookup`: the newest binding of a name.
* `Scope.latest`: the newest binding of every name, in the order in which the
  names were first bound.
-/

namespace NandHdl

/-- Bindings, the newest one first. -/
structure Scope (α : Type) where
  newestFirst : List (String × α)

namespace Scope

variable {α : Type}

def empty : Scope α := ⟨[]⟩

/-- Adds a binding. -/
def bind (s : Scope α) (name : String) (value : α) : Scope α := ⟨(name, value) :: s.newestFirst⟩

/-- The value that a list of bindings, the newest first, gives a name. -/
def lookupIn (name : String) : List (String × α) → Option α
  | [] => none
  | (n, v) :: rest => if n = name then some v else lookupIn name rest

/-- The newest binding of a name. -/
def lookup (s : Scope α) (name : String) : Option α := lookupIn name s.newestFirst

/-- The scope without the bindings of a name. -/
def without (s : Scope α) (name : String) : Scope α := ⟨s.newestFirst.filter (·.1 ≠ name)⟩

/-- Replaces the value under a name, or adds it at the end. -/
def update (name : String) (value : α) : List (String × α) → List (String × α)
  | [] => [(name, value)]
  | (n, v) :: rest => if n = name then (n, value) :: rest else (n, v) :: update name value rest

/-- The bindings in the order they were made. -/
def oldestFirst (s : Scope α) : List (String × α) := s.newestFirst.reverse

/-- The newest binding of every name, in the order in which the names were first bound. -/
def latest (s : Scope α) : List (String × α) :=
  s.oldestFirst.foldl (fun found b => update b.1 b.2 found) []

/-- All bindings between brackets, in the order they were made. -/
def text (s : Scope String) : String :=
  "[" ++ ", ".intercalate (s.oldestFirst.map fun b => b.1 ++ " : " ++ b.2) ++ "]"

@[simp] theorem lookup_empty (name : String) : (empty : Scope α).lookup name = none := rfl

/-- The newest binding wins. -/
theorem lookup_bind (s : Scope α) (name other : String) (value : α) :
    (s.bind name value).lookup other = if name = other then some value else s.lookup other := rfl

/-- What a lookup finds is bound. -/
theorem mem_of_lookup {s : Scope α} {name : String} {value : α} (h : s.lookup name = some value) :
    (name, value) ∈ s.newestFirst := by
  obtain ⟨bs⟩ := s
  simp only [lookup] at h ⊢
  induction bs with
  | nil => cases h
  | cons b rest ih =>
    obtain ⟨n, v⟩ := b
    simp only [lookupIn] at h
    split at h
    · next hn => cases h; subst hn; exact List.mem_cons_self
    · exact List.mem_cons_of_mem _ (ih h)

/-- Removing a bound name makes the scope smaller. -/
theorem length_without_lt {s : Scope α} {name : String} {value : α} (h : s.lookup name = some value) :
    (s.without name).newestFirst.length < s.newestFirst.length :=
  List.length_filter_lt_length_iff_exists.2 ⟨(name, value), mem_of_lookup h, by simp⟩

end Scope

end NandHdl
