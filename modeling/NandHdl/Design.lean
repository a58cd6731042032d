import NandHdl.Word

/-!
# Designs

A design is a list of modules. A module has named ports and a body of
statements, each of which gives a name, or some bits of it, the value of an
expression. Bits of a bus are numbered from 0, the least significant one.

* `BitRange.lo`, `BitRange.hi`: the bounds of a range in order, both included.
* `Expr.maxIndex`: the largest bit number an expression mentions.
* `widthLimit`: the largest width or bit number.
-/

namespace NandHdl

/-- The largest width, and the largest bit number, that a design may mention. -/
def widthLimit : Nat := 1 <<< 16

/-- A port and its width in bits. -/
structure Port where
  name : String
  width : Nat
deriving DecidableEq, Repr

/-- Some bits of a bus: a single one, or all between two bounds, which are included and may come in
either order. -/
inductive BitRange
  | bit (i : Nat)
  | slice (first last : Nat)
deriving DecidableEq, Repr

namespace BitRange

/-- The lowest bit. -/
def lo : BitRange → Nat
  | bit i => i
  | slice a b => min a b

/-- The highest bit. -/
def hi : BitRange → Nat
  | bit i => i
  | slice a b => max a b

theorem lo_le_hi (r : BitRange) : r.lo ≤ r.hi := by
  cases r with
  | bit i => exact Nat.le_refl i
  | slice a b => exact Nat.le_trans (Nat.min_le_left a b) (Nat.le_max_left a b)

/-- The number of bits. -/
def width (r : BitRange) : Nat := r.hi - r.lo + 1

/-- The number of bits, as far as a word can tell it. -/
def reportedWidth (r : BitRange) : Nat := nearestWord r.width

theorem width_pos (r : BitRange) : 0 < r.width := Nat.succ_pos _

end BitRange

/-- Expressions. A call instantiates a module or one of the two primitives, a member is one output of
an instance, and a selection is some bits of a bus. -/
inductive Expr
  | identifier (name : String)
  | number (value : Nat)
  | call (name : String) (args : List Expr)
  | member (object : Expr) (field : String)
  | select (object : Expr) (range : BitRange)
deriving Repr

namespace Expr

mutual

/-- Equality of expressions, decided by comparing them part by part. -/
def same : Expr → Expr → Bool
  | identifier n, identifier m => n == m
  | number v, number w => v == w
  | call n as, call m bs => n == m && sameList as bs
  | member o f, member p g => same o p && f == g
  | select o r, select p s => same o p && r == s
  | _, _ => false

@[inherit_doc same]
def sameList : List Expr → List Expr → Bool
  | [], [] => true
  | a :: as, b :: bs => same a b && sameList as bs
  | _, _ => false

end

mutual

theorem eq_of_same : ∀ {a b : Expr}, same a b = true → a = b
  | identifier _, b, h => by cases b <;> simp_all [same]
  | number _, b, h => by cases b <;> simp_all [same]
  | call _ as, b, h => by
    cases b <;> simp_all only [same, Bool.and_eq_true, beq_iff_eq, Bool.false_eq_true]
    rw [eq_of_sameList h.2]
  | member o _, b, h => by
    cases b <;> simp_all only [same, Bool.and_eq_true, beq_iff_eq, Bool.false_eq_true]
    rw [eq_of_same h.1]
  | select o _, b, h => by
    cases b <;> simp_all only [same, Bool.and_eq_true, beq_iff_eq, Bool.false_eq_true]
    rw [eq_of_same h.1]

theorem eq_of_sameList : ∀ {as bs : List Expr}, sameList as bs = true → as = bs
  | [], bs, h => by cases bs <;> simp_all [sameList]
  | a :: as, bs, h => by
    cases bs <;> simp_all only [sameList, Bool.and_eq_true, Bool.false_eq_true]
    rw [eq_of_same h.1, eq_of_sameList h.2]

end

mutual

theorem same_self : ∀ a : Expr, same a a = true
  | identifier _ => by simp [same]
  | number _ => by simp [same]
  | call _ as => by simp [same, sameList_self as]
  | member o _ => by simp [same, same_self o]
  | select o _ => by simp [same, same_self o]

theorem sameList_self : ∀ as : List Expr, sameList as as = true
  | [] => rfl
  | a :: as => by simp [sameList, same_self a, sameList_self as]

end

instance : DecidableEq Expr := fun a b =>
  if h : same a b = true then .isTrue (eq_of_same h)
  else .isFalse fun e => h (e ▸ same_self a)

mutual

/-- The largest bit number in an expression, 0 if there is none. -/
def maxIndex : Expr → Nat
  | identifier _ => 0
  | number _ => 0
  | call _ args => maxIndexList args
  | member object _ => maxIndex object
  | select object range => max (maxIndex object) range.hi

@[inherit_doc maxIndex]
def maxIndexList : List Expr → Nat
  | [] => 0
  | a :: as => max (maxIndex a) (maxIndexList as)

end

end Expr

/-- What a statement assigns: a name, or only some bits of it. -/
structure Target where
  name : String
  range : Option BitRange
deriving DecidableEq, Repr

/-- An assignment. -/
structure Statement where
  target : Target
  expr : Expr
deriving DecidableEq, Repr

/-- A module: what goes in, what comes out, and how. -/
structure Module where
  name : String
  inputs : List Port
  outputs : List Port
  statements : List Statement
deriving DecidableEq, Repr

namespace Module

/-- All ports, inputs first. -/
def ports (m : Module) : List Port := m.inputs ++ m.outputs

/-- The output of a given name. -/
def output? (m : Module) (name : String) : Option Port := m.outputs.find? (·.name = name)

/-- Some statement assigns the name. -/
def assigns (m : Module) (name : String) : Bool := m.statements.any (·.target.name = name)

/-- The names that statements assign, each once, in increasing order. -/
def targets (m : Module) : List String :=
  ((m.statements.map (·.target.name)).mergeSort (· ≤ ·)).eraseReps

/-- The largest width or bit number the module mentions. -/
def maxIndex (m : Module) : Nat :=
  let ofStatement (s : Statement) : Nat := max ((s.target.range.map BitRange.hi).getD 0) s.expr.maxIndex
  max ((m.ports.map Port.width).foldl max 0) ((m.statements.map ofStatement).foldl max 0)

end Module

end NandHdl
