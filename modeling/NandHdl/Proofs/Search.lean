import Mathlib
import NandHdl.Simulation.Order

/-!
# Depth-first search

What the search of `GateOrder.visit` finds, and the order in which it leaves it.

* `LeftInOrder`: of two vertices joined by an edge, the target was left before
  the source, unless it leads back to it.
* `visit_adds`: from a vertex the search finds exactly what is new, all of it led
  to from there, and keeps `LeftInOrder`.
* `LeftInOrder.returns`: what a vertex leads to was left before it, unless the
  vertex lies on a loop that was left later.
-/

namespace NandHdl.GateOrder

open Relation

variable {next : Nat → List Nat} {all : List Nat}

/-- There is a path from `u` to `v`, possibly of no edges. -/
def Leads (next : Nat → List Nat) : Nat → Nat → Prop := ReflTransGen fun u v => v ∈ next u

/-- A set that no edge leaves is left by no path. -/
theorem Leads.mem (hall : ∀ u ∈ all, ∀ w ∈ next u, w ∈ all) {u w : Nat} (hu : u ∈ all)
    (h : Leads next u w) : w ∈ all := by
  induction h with
  | refl => exact hu
  | tail _ hyz ih => exact hall _ ih _ hyz

/-- The search has seen a vertex. -/
def Trail.Saw (t : Trail) (v : Nat) : Prop := t.seen.contains v = true

instance (t : Trail) (v : Nat) : Decidable (t.Saw v) := inferInstanceAs (Decidable (_ = true))

theorem contains_insert_unit (s : Std.TreeMap Nat Unit) (u v : Nat) :
    (s.insert u ()).contains v = true ↔ v = u ∨ s.contains v = true := by
  rw [Std.TreeMap.contains_insert, Bool.or_eq_true, beq_iff_eq, Std.LawfulEqCmp.compare_eq_iff_eq]
  exact or_congr_left eq_comm

/-- A vertex seen before is left alone. -/
theorem visit_of_saw (fuel : Nat) {t : Trail} {v : Nat} (h : t.Saw v) : visit next fuel t v = t := by
  cases fuel with
  | zero => rfl
  | succ fuel => exact if_pos h

/-- A new vertex is left once all it leads to has been visited. -/
theorem visit_of_new (fuel : Nat) {t : Trail} {v : Nat} (h : ¬ t.Saw v) :
    visit next (fuel + 1) t v =
      let t' := (next v).foldl (visit next fuel) { t with seen := t.seen.insert v () }
      { t' with finished := v :: t'.finished } :=
  if_neg h

/-- The vertices among `all` that are still new. -/
def unseen (all : List Nat) (t : Trail) : List Nat := all.filter fun v => ¬ t.Saw v

/-- Marking a new vertex leaves fewer new ones. -/
theorem unseen_insert_lt {t : Trail} {v : Nat} (hv : v ∈ all) (hnew : ¬ t.Saw v) (fin : List Nat) :
    (unseen all ⟨t.seen.insert v (), fin⟩).length < (unseen all t).length := by
  have hsub : unseen all ⟨t.seen.insert v (), fin⟩ = (unseen all t).filter (· ≠ v) := by
    unfold unseen
    rw [List.filter_filter]
    refine List.filter_congr fun x _ => ?_
    rw [← Bool.decide_and]
    exact decide_eq_decide.2 ((not_congr (contains_insert_unit t.seen v x)).trans not_or)
  rw [hsub]
  -- `v` itself was new, and is no longer
  refine List.length_filter_lt_length_iff_exists.2 ⟨v, ?_, by simp⟩
  exact List.mem_filter.2 ⟨hv, by simpa using hnew⟩

/-- What a search adds: the vertices it leaves are new, each left once, and all it has seen of them. -/
structure Trail.Adds (t t' : Trail) (new : List Nat) : Prop where
  finished : t'.finished = new ++ t.finished
  nodup : new.Nodup
  fresh : ∀ y ∈ new, ¬ t.Saw y
  saw : ∀ y, t'.Saw y ↔ t.Saw y ∨ y ∈ new

theorem Trail.Adds.refl (t : Trail) : t.Adds t [] :=
  ⟨rfl, List.nodup_nil, fun _ h => absurd h List.not_mem_nil, fun _ => by simp⟩

theorem Trail.Adds.trans {t t' t'' : Trail} {new new' : List Nat} (h : t.Adds t' new)
    (h' : t'.Adds t'' new') : t.Adds t'' (new' ++ new) := by
  refine ⟨by rw [h'.finished, h.finished, List.append_assoc], ?_, ?_, fun y => ?_⟩
  · refine List.nodup_append.2 ⟨h'.nodup, h.nodup, fun a ha b hb hab => ?_⟩
    exact h'.fresh a ha ((h.saw a).2 (.inr (hab ▸ hb)))
  · intro y hy hs
    rcases List.mem_append.1 hy with hy | hy
    · exact h'.fresh y hy ((h.saw y).2 (.inl hs))
    · exact h.fresh y hy hs
  · rw [h'.saw, h.saw, List.mem_append, or_assoc, or_comm (a := y ∈ new)]

theorem Trail.Adds.unseen_le {t t' : Trail} {new : List Nat} (h : t.Adds t' new) :
    (unseen all t').length ≤ (unseen all t).length := by
  refine (List.monotone_filter_right all fun v hv => ?_).length_le
  simp only [decide_eq_true_eq] at hv ⊢
  exact fun hs => hv ((h.saw v).2 (.inl hs))

/-- The order in which a search leaves vertices, the latest first: an edge from a vertex left by the
time `x` is left ends at one of those, in `base`, or at one that leads to `x`. -/
inductive LeftInOrder (next : Nat → List Nat) (base : Nat → Prop) : List Nat → Prop
  | nil : LeftInOrder next base []
  | cons {x : Nat} {l : List Nat}
      (h : ∀ y ∈ x :: l, ∀ w ∈ next y, base w ∨ w ∈ x :: l ∨ Leads next w x)
      (hl : LeftInOrder next base l) : LeftInOrder next base (x :: l)

/-- What holds between visits: what was seen is in `base`, left, or on the `stack`, and edges from
what was left end at what was seen. -/
structure Trail.Ready (next : Nat → List Nat) (base stack : Nat → Prop) (t : Trail) : Prop where
  saw : ∀ y, t.Saw y → base y ∨ y ∈ t.finished ∨ stack y
  finished : ∀ y ∈ t.finished, t.Saw y
  closed : ∀ y ∈ t.finished, ∀ w ∈ next y, t.Saw w
  order : LeftInOrder next base t.finished

/-- **What a visit does.** With enough fuel it sees the vertex, adds only what the vertex leads to, and
is ready again. -/
def Visits (next : Nat → List Nat) (base stack : Nat → Prop) (t t' : Trail) (v : Nat) : Prop :=
  ∃ new, t.Adds t' new ∧ (∀ y ∈ new, Leads next v y) ∧ t'.Saw v ∧ t'.Ready next base stack

/-- Visits of several vertices, one after another. -/
theorem foldl_visits {base stack : Nat → Prop} {fuel : Nat}
    (hvisit : ∀ t v, v ∈ all → (unseen all t).length ≤ fuel → (∀ y, stack y → Leads next y v) →
      t.Ready next base stack → Visits next base stack t (visit next fuel t v) v) :
    ∀ (ws : List Nat) (t : Trail), (∀ w ∈ ws, w ∈ all ∧ ∀ y, stack y → Leads next y w) →
      (unseen all t).length ≤ fuel → t.Ready next base stack →
      ∃ new, t.Adds (ws.foldl (visit next fuel) t) new ∧ (∀ y ∈ new, ∃ w ∈ ws, Leads next w y) ∧
        (∀ w ∈ ws, (ws.foldl (visit next fuel) t).Saw w) ∧
        (ws.foldl (visit next fuel) t).Ready next base stack := by
  intro ws
  induction ws with
  | nil =>
    intro t _ _ ht
    exact ⟨[], .refl t, fun y hy => absurd hy List.not_mem_nil, fun w hw => absurd hw List.not_mem_nil, ht⟩
  | cons w ws ih =>
    intro t hws hf ht
    obtain ⟨new, hadd, hlead, hsaw, hready⟩ := hvisit t w (hws w List.mem_cons_self).1 hf
      (hws w List.mem_cons_self).2 ht
    obtain ⟨new', hadd', hlead', hsaw', hready'⟩ := ih (visit next fuel t w)
      (fun x hx => hws x (List.mem_cons_of_mem _ hx)) (le_trans hadd.unseen_le hf) hready
    refine ⟨new' ++ new, hadd.trans hadd', fun y hy => ?_, fun x hx => ?_, hready'⟩
    · rcases List.mem_append.1 hy with hy | hy
      · obtain ⟨x, hx, hxy⟩ := hlead' y hy
        exact ⟨x, List.mem_cons_of_mem _ hx, hxy⟩
      · exact ⟨w, List.mem_cons_self, hlead y hy⟩
    · rcases List.mem_cons.1 hx with rfl | hx
      · exact (hadd'.saw x).2 (.inl hsaw)
      · exact hsaw' x hx

/-- A trail that has marked `v` as seen has seen `v` and what it saw before. -/
theorem saw_mark {t : Trail} {v : Nat} (y : Nat) :
    Trail.Saw { t with seen := t.seen.insert v () } y ↔ y = v ∨ t.Saw y :=
  contains_insert_unit t.seen v y

/-- **Marking** a vertex puts it on the stack. -/
theorem Trail.Ready.mark {base stack : Nat → Prop} {t : Trail} (ht : t.Ready next base stack) (v : Nat) :
    Trail.Ready next base (fun y => stack y ∨ y = v) { t with seen := t.seen.insert v () } := by
  refine ⟨fun y hy => ?_, fun y hy => (saw_mark y).2 (.inr (ht.finished y hy)),
    fun y hy w hw => (saw_mark w).2 (.inr (ht.closed y hy w hw)), ht.order⟩
  rcases (saw_mark y).1 hy with rfl | hy
  · exact .inr (.inr (.inr rfl))
  · exact (ht.saw y hy).imp_right (Or.imp_right .inl)

/-- **Leaving** a vertex takes it off the stack again, once all it has edges to has been seen: those
of them that are not left yet are on the stack, and so lead back to it. -/
theorem Trail.Ready.leave {base stack : Nat → Prop} {t : Trail} {v : Nat}
    (ht : t.Ready next base fun y => stack y ∨ y = v) (hv : t.Saw v) (hsees : ∀ w ∈ next v, t.Saw w)
    (hstack : ∀ y, stack y → Leads next y v) :
    Trail.Ready next base stack { t with finished := v :: t.finished } := by
  have hclosed : ∀ y ∈ v :: t.finished, ∀ w ∈ next y, t.Saw w := by
    intro y hy w hw
    rcases List.mem_cons.1 hy with rfl | hy
    · exact hsees w hw
    · exact ht.closed y hy w hw
  have hsaw : ∀ y, t.Saw y → base y ∨ y ∈ v :: t.finished ∨ stack y := by
    intro y hy
    rcases ht.saw y hy with hb | hfin | hs | rfl
    · exact .inl hb
    · exact .inr (.inl (List.mem_cons_of_mem _ hfin))
    · exact .inr (.inr hs)
    · exact .inr (.inl List.mem_cons_self)
  -- the order so far is kept; what the new first vertex adds to it is one more place to end at
  refine ⟨hsaw, fun y hy => ?_, hclosed, .cons (fun y hy w hw => ?_) ht.order⟩
  · rcases List.mem_cons.1 hy with rfl | hy
    · exact hv
    · exact ht.finished y hy
  · exact (hsaw w (hclosed y hy w hw)).imp_right (Or.imp_right (hstack w))

/-- What was added while a new vertex was on the stack, and then the vertex itself. -/
theorem Trail.Adds.leave {t t' : Trail} {v : Nat} {new : List Nat} (hv : ¬ t.Saw v)
    (h : Trail.Adds { t with seen := t.seen.insert v () } t' new) :
    t.Adds { t' with finished := v :: t'.finished } (v :: new) := by
  refine ⟨?_, ?_, fun y hy hs => ?_, fun y => ?_⟩
  · show v :: t'.finished = v :: new ++ t.finished
    rw [h.finished, List.cons_append]
  · exact List.nodup_cons.2 ⟨fun hm => h.fresh v hm ((saw_mark v).2 (.inl rfl)), h.nodup⟩
  · rcases List.mem_cons.1 hy with rfl | hy
    · exact hv hs
    · exact h.fresh y hy ((saw_mark y).2 (.inr hs))
  · show t'.Saw y ↔ _
    rw [h.saw, saw_mark, List.mem_cons]
    tauto

/-- A vertex that has been seen needs no visit. -/
theorem visits_of_saw {base stack : Nat → Prop} {t : Trail} {v : Nat} (h : t.Saw v)
    (ht : t.Ready next base stack) : Visits next base stack t t v :=
  ⟨[], .refl t, fun _ hy => absurd hy List.not_mem_nil, h, ht⟩

/-- **The specification of a visit**, by induction on the fuel, which the number of new vertices
bounds. A vertex is on the stack while what it leads to is visited. -/
theorem visit_adds {base : Nat → Prop} (hall : ∀ u ∈ all, ∀ w ∈ next u, w ∈ all) :
    ∀ (fuel : Nat) (stack : Nat → Prop) (t : Trail) (v : Nat), v ∈ all →
      (unseen all t).length ≤ fuel → (∀ y, stack y → Leads next y v) → t.Ready next base stack →
      Visits next base stack t (visit next fuel t v) v := by
  intro fuel
  induction fuel with
  | zero =>
    intro stack t v hv hf _ ht
    have hsaw : t.Saw v := by
      by_contra hnew
      have hmem : v ∈ unseen all t := List.mem_filter.2 ⟨hv, by simpa using hnew⟩
      have hpos := List.length_pos_of_mem hmem
      omega
    exact visits_of_saw hsaw ht
  | succ fuel ih =>
    intro stack t v hv hf hstack ht
    by_cases hsaw : t.Saw v
    · rw [visit_of_saw _ hsaw]
      exact visits_of_saw hsaw ht
    rw [visit_of_new fuel hsaw]
    have hstack' : ∀ w ∈ next v, ∀ y, stack y ∨ y = v → Leads next y w := by
      rintro w hw y (hy | rfl)
      · exact (hstack y hy).tail hw
      · exact .single hw
    -- one vertex fewer is new, so the fuel that is left is enough for what `v` leads to
    have hlt := unseen_insert_lt hv hsaw t.finished
    obtain ⟨new, hadd, hlead, hsees, hready⟩ := foldl_visits
      (fun t w hw hf hs ht => ih _ t w hw hf hs ht) (next v) { t with seen := t.seen.insert v () }
      (fun w hw => ⟨hall v hv w hw, hstack' w hw⟩) (by omega) (ht.mark v)
    have hv' := (hadd.saw v).2 (.inl ((saw_mark v).2 (.inl rfl)))
    refine ⟨v :: new, hadd.leave hsaw, fun y hy => ?_, hv', hready.leave hv' hsees hstack⟩
    rcases List.mem_cons.1 hy with rfl | hy
    · exact .refl
    · obtain ⟨w, hw, hwy⟩ := hlead y hy
      exact .head hw hwy

/-- What was left before a vertex was left in order. -/
theorem LeftInOrder.suffix {base : Nat → Prop} {l m : List Nat} (h : LeftInOrder next base (l ++ m)) :
    LeftInOrder next base m := by
  induction l with
  | nil => exact h
  | cons x l ih => cases h with | cons _ hl => exact ih hl

/-- **Paths.** What a vertex leads to was left by the time the vertex was, unless the vertex lies on a
loop through one that was not. -/
theorem LeftInOrder.returns {x : Nat} {l : List Nat} (h : LeftInOrder next (fun _ => False) (x :: l))
    {w : Nat} (hw : Leads next x w) :
    w ∈ x :: l ∨ ∃ z, z ∉ x :: l ∧ Leads next x z ∧ Leads next z x := by
  cases h with
  | cons h hl =>
    -- along the path, either all was left in time or some vertex leads back to `x`
    induction hw with
    | refl => exact .inl List.mem_cons_self
    | @tail y w hy hyw ih =>
      rcases ih with hy' | hz
      · rcases h y hy' w hyw with hb | hm | hback
        · exact hb.elim
        · exact .inl hm
        · by_cases hm : w ∈ x :: l
          · exact .inl hm
          · exact .inr ⟨w, hm, hy.tail hyw, hback⟩
      · exact .inr hz

end NandHdl.GateOrder
