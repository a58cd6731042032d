import NandHdl.Simulation.Circuit

/-!
# The order of gates

Gates are evaluated so that each comes after the gates that drive it, except
in a feedback loop, whose gates stay together. Two searches find that order. The
first goes from gates to the gates they drive and notes the order in which it
leaves them. The second takes the gates in the reverse of that order and goes
back to their drivers: what it finds new from one gate is that gate's loop.

* `visit`: depth-first search with a bound on its depth.
* `GateKey`: the rank of a gate's loop and the gate's own place within it.
* `orderGates`: the gates sorted by their keys.
-/

namespace NandHdl.GateOrder

/-- What a search has seen, and what it has left, the latest first. -/
structure Trail where
  seen : Std.TreeMap Nat Unit
  finished : List Nat

/-- Visits a vertex and then all it leads to, at most `fuel` deep. -/
def visit (next : Nat → List Nat) : Nat → Trail → Nat → Trail
  | 0, t, _ => t
  | fuel + 1, t, v =>
    if t.seen.contains v then t
    else
      let t := (next v).foldl (visit next fuel) { t with seen := t.seen.insert v () }
      { t with finished := v :: t.finished }

/-- The places of gates that a source reads. -/
def gatePlaces (isGate : Nat → Bool) : Source → List Nat
  | .node i => if isGate i then [i] else []
  | _ => []

/-- The gates that drive a gate, its first input before its second. -/
def drivers (isGate : Nat → Bool) (g : Gate) : List Nat :=
  gatePlaces isGate g.a ++ gatePlaces isGate g.b

/-- For every place the gates that it drives, the latest found first. -/
def drivenTable (isGate : Nat → Bool) (gates : List Gate) : Std.TreeMap Nat (List Nat) :=
  gates.foldl (fun table g =>
    (drivers isGate g).foldl (fun table p => table.insert p (g.out :: table.getD p [])) table) ∅

/-- For every place the gates that drive it. -/
def driverTable (isGate : Nat → Bool) (gates : List Gate) : Std.TreeMap Nat (List Nat) :=
  gates.foldl (fun table g => table.insert g.out (drivers isGate g)) ∅

/-- The places of the gates in the order in which a search along the wires leaves them, the latest
first. -/
def leftLast (isGate : Nat → Bool) (gates : List Gate) : List Nat :=
  let table := drivenTable isGate gates
  let fuel := gates.length
  (gates.foldl (fun t g => visit (table.getD · []) fuel t g.out) ⟨∅, []⟩).finished

/-- Gives the places found new from each of `roots` the number of that root, counting from `rank`. -/
def rankFrom (next : Nat → List Nat) (fuel : Nat) :
    Nat → Std.TreeMap Nat Unit → Std.TreeMap Nat Nat → List Nat → Std.TreeMap Nat Nat
  | _, _, ranks, [] => ranks
  | rank, seen, ranks, r :: roots =>
    let t := visit next fuel ⟨seen, []⟩ r
    rankFrom next fuel (rank + 1) t.seen (t.finished.foldl (·.insert · rank) ranks) roots

/-- Gives list elements their numbers, counting from `n`. -/
def numberFrom : Nat → Std.TreeMap Nat Nat → List Nat → Std.TreeMap Nat Nat
  | _, numbers, [] => numbers
  | n, numbers, v :: vs => numberFrom (n + 1) (numbers.insert v n) vs

/-- Where a gate stands: the rank of its loop, and its place within. -/
structure GateKey where
  rank : Nat
  place : Nat
deriving DecidableEq, Repr

/-- Keys are compared by rank first. -/
def GateKey.le (k l : GateKey) : Bool := k.rank < l.rank || (k.rank = l.rank && k.place ≤ l.place)

/-- For every place the rank of its gate's loop, and when the first search left it. -/
structure KeyTable where
  ranks : Std.TreeMap Nat Nat
  places : Std.TreeMap Nat Nat

/-- The key of the gate at a place. -/
def KeyTable.key (t : KeyTable) (v : Nat) : GateKey := ⟨t.ranks.getD v 0, t.places.getD v 0⟩

/-- The places of gates. -/
def gateSet (gates : List Gate) : Std.TreeMap Nat Unit := gates.foldl (fun t g => t.insert g.out ()) ∅

/-- The keys of all gates. -/
def keyTable (gates : List Gate) : KeyTable :=
  let isGate := (gateSet gates).contains
  let left := leftLast isGate gates
  let table := driverTable isGate gates
  ⟨rankFrom (table.getD · []) gates.length 0 ∅ ∅ left, numberFrom 0 ∅ left.reverse⟩

/-- The gates in the order in which they are evaluated. -/
def orderGates (gates : List Gate) : List Gate :=
  let table := keyTable gates
  gates.mergeSort fun g h => (table.key g.out).le (table.key h.out)

end NandHdl.GateOrder
