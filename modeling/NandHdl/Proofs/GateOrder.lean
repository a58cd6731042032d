import NandHdl.Proofs.Search

/-!
# The order of gates

`orderGates` puts a gate behind the gates that drive it.

* `Drives`: one gate feeds another.
* `Searched`: what the first of the two searches leaves to the second.
* `loop_of_leads`: among the vertices that are left in order, what leads to the
  first new one lies on its loop.
* `rankFrom_eq`: a vertex gets the number of the first root that it leads to.
* `rank_eq_iff`, `rank_lt_of_leads`: gates of one loop have one rank, and a gate that
  leads to another outside its loop has the smaller one.
* `orderGates_perm`, `orderGates_drives`: the result is a permutation in which a
  gate that drives an earlier one is led to by it.
-/

namespace NandHdl

/-- A gate reads the output of the node at a place. -/
def Gate.Reads (g : Gate) (u : Nat) : Prop := g.a = .node u ∨ g.b = .node u

namespace GateOrder

open Relation

section SecondSearch

variable {next back : Nat → List Nat} {all left : List Nat}

/-- Paths along `back` are paths along `next` the other way round. -/
theorem leads_flip (hback : ∀ u v, u ∈ back v ↔ v ∈ next u) {u v : Nat} (h : Leads back v u) :
    Leads next u v := by
  induction h with
  | refl => exact .refl
  | tail _ hyz ih => exact .head ((hback _ _).1 hyz) ih

/-- What the second search, along `back`, can rely on: the first one, along `next`, left every vertex
once, and in order. -/
structure Searched (next back : Nat → List Nat) (all left : List Nat) : Prop where
  flip : ∀ u v, u ∈ back v ↔ v ∈ next u
  all_back : ∀ u ∈ all, ∀ w ∈ back u, w ∈ all
  all_next : ∀ u ∈ all, ∀ w ∈ next u, w ∈ all
  order : LeftInOrder next (fun _ => False) left
  nodup : left.Nodup
  mem_left : ∀ v, v ∈ left ↔ v ∈ all

/-- **Loops.** Let `r` be the first of the vertices left by a search that no earlier taken one is led to
from `y`. If `y` leads to `r`, then `r` leads back to `y`. -/
theorem loop_of_leads (hs : Searched next back all left) {taken rest : List Nat} {r y : Nat}
    (hsplit : left = taken ++ r :: rest) (hy : y ∈ left) (hyr : Leads next y r)
    (hnew : ∀ p ∈ taken, ¬ Leads next y p) : Leads next r y := by
  classical
  -- `x` is the vertex on the loop of `y` that was left last
  obtain ⟨x, before, after, hbefore, hx, hxsplit, -⟩ := List.exists_of_eraseP
    (p := fun x => decide (Leads next x y ∧ Leads next y x)) hy (decide_eq_true ⟨.refl, .refl⟩)
  obtain ⟨hxy, hyx⟩ : Leads next x y ∧ Leads next y x := of_decide_eq_true hx
  have horder := hs.order
  have hnd := hs.nodup
  rw [hxsplit] at horder hnd
  have hsuffix : LeftInOrder next (fun _ => False) (x :: after) := horder.suffix
  have hr : r ∈ x :: after := by
    rcases hsuffix.returns (hxy.trans hyr) with h | ⟨z, hz, hxz, hzx⟩
    · exact h
    · have hzall : z ∈ all := Leads.mem hs.all_next ((hs.mem_left y).1 hy) (hyx.trans hxz)
      have hzl : z ∈ before ++ x :: after := hxsplit ▸ (hs.mem_left z).2 hzall
      rcases List.mem_append.1 hzl with hzb | hza
      · exact absurd (decide_eq_true (⟨hzx.trans hxy, hyx.trans hxz⟩ : _ ∧ _)) (hbefore z hzb)
      · exact absurd hza hz
  rcases List.mem_cons.1 hr with rfl | hr
  · exact hxy
  -- otherwise `x` stands before `r` and has been taken
  have hx' : x ∈ taken := by
    rcases List.append_eq_append_iff.1 (hxsplit.symm.trans hsplit) with ⟨as, rfl, has⟩ | ⟨bs, rfl, hbs⟩
    · rcases List.cons_eq_append_iff.1 has with ⟨rfl, heq⟩ | ⟨as', rfl, -⟩
      · rw [List.cons.injEq] at heq
        exact absurd (heq.1 ▸ hr) (List.nodup_cons.1 (List.nodup_append.1 hnd).2.1).1
      · simp
    · rcases List.cons_eq_append_iff.1 hbs with ⟨rfl, heq⟩ | ⟨bs', rfl, -⟩
      · rw [List.cons.injEq] at heq
        exact absurd (heq.1 ▸ hr) (List.nodup_cons.1 (List.nodup_append.1 hnd).2.1).1
      · exact absurd rfl ((List.nodup_append.1 hnd).2.2 r (by simp) r (List.mem_cons_of_mem _ hr))
  exact absurd hyx (hnew x hx')

/-- What the second search has seen once some roots are taken: all that leads to one of them. -/
def SeenFrom (next : Nat → List Nat) (taken : List Nat) (seen : Std.TreeMap Nat Unit) : Prop :=
  ∀ y, seen.contains y = true ↔ ∃ p ∈ taken, Leads next y p

/-- The second search from the root `r` finds vertices of the loop of `r` only, and has then seen all
that leads to `r`. -/
theorem secondSearch (hs : Searched next back all left) {taken rest : List Nat} {r : Nat}
    (hsplit : left = taken ++ r :: rest) {seen : Std.TreeMap Nat Unit}
    (hseen : SeenFrom next taken seen) {fuel : Nat} (hfuel : all.length ≤ fuel) :
    (∀ y ∈ (visit back fuel ⟨seen, []⟩ r).finished, ¬ seen.contains y = true ∧ Leads next r y) ∧
      (∀ y, (visit back fuel ⟨seen, []⟩ r).Saw y ↔
        seen.contains y = true ∨ y ∈ (visit back fuel ⟨seen, []⟩ r).finished) ∧
      SeenFrom next (taken ++ [r]) (visit back fuel ⟨seen, []⟩ r).seen := by
  have hr : r ∈ all := (hs.mem_left r).1 (by simp [hsplit])
  have hstart : Trail.Ready back (fun y => seen.contains y = true) (fun _ => False) ⟨seen, []⟩ :=
    ⟨fun y hy => .inl hy, fun y hy => absurd hy List.not_mem_nil,
      fun y hy => absurd hy List.not_mem_nil, .nil⟩
  obtain ⟨new, hadd, hlead, hsaw, hready⟩ := visit_adds hs.all_back fuel (fun _ => False) ⟨seen, []⟩ r hr
    (le_trans (List.length_filter_le _ _) hfuel) (fun _ h => h.elim) hstart
  have hfin : (visit back fuel ⟨seen, []⟩ r).finished = new := by rw [hadd.finished, List.append_nil]
  rw [hfin]
  -- `r` leads back to what was found, since none of it leads to an earlier root
  have hloop : ∀ y ∈ new, Leads next r y := by
    intro y hy
    have hyleft : y ∈ left := (hs.mem_left y).2 (Leads.mem hs.all_back hr (hlead y hy))
    refine loop_of_leads hs hsplit hyleft (leads_flip hs.flip (hlead y hy)) fun p hp hyp => ?_
    exact hadd.fresh y hy ((hseen y).2 ⟨p, hp, hyp⟩)
  refine ⟨fun y hy => ⟨hadd.fresh y hy, hloop y hy⟩, hadd.saw, fun y => ⟨fun hy => ?_, ?_⟩⟩
  · rcases (hadd.saw y).1 hy with hy | hy
    · obtain ⟨p, hp, hyp⟩ := (hseen y).1 hy
      exact ⟨p, List.mem_append_left _ hp, hyp⟩
    · exact ⟨r, by simp, leads_flip hs.flip (hlead y hy)⟩
  · rintro ⟨p, hp, hyp⟩
    rcases List.mem_append.1 hp with hp | hp
    · exact (hadd.saw y).2 (.inl ((hseen y).2 ⟨p, hp, hyp⟩))
    · rw [List.mem_singleton] at hp
      subst hp
      -- what has been seen is closed under going back
      induction hyp using ReflTransGen.head_induction_on with
      | refl => exact hsaw
      | @head u v huv _ ih =>
        rcases (hadd.saw v).1 ih with hv | hv
        · obtain ⟨q, hq, hvq⟩ := (hseen v).1 hv
          exact (hadd.saw u).2 (.inl ((hseen u).2 ⟨q, hq, .head huv hvq⟩))
        · exact hready.closed v (hfin ▸ hv) u ((hs.flip u v).2 huv)

theorem getD_foldl_insert (found : List Nat) (rank : Nat) (ranks : Std.TreeMap Nat Nat) (y : Nat) :
    (found.foldl (·.insert · rank) ranks).getD y 0 = if y ∈ found then rank else ranks.getD y 0 := by
  induction found generalizing ranks with
  | nil => simp
  | cons v vs ih =>
    rw [List.foldl_cons, ih, Std.TreeMap.getD_insert]
    by_cases hy : y ∈ vs
    · simp [hy]
    · by_cases hv : v = y
      · simp [hv]
      · simp [hy, hv, Ne.symm hv]

open Classical in
/-- The place among the vertices left by the first search of the first one that a vertex leads to. -/
noncomputable def rootOf (next : Nat → List Nat) (left : List Nat) (v : Nat) : Nat :=
  left.findIdx fun r => decide (Leads next v r)

open Classical in
/-- **Ranks.** Counting on from `rank`, a new vertex gets the number of the first root that it leads to. The
induction is on the roots still to be taken; ranks given before stay as they are. -/
theorem rankFrom_eq (hs : Searched next back all left) {fuel : Nat} (hfuel : all.length ≤ fuel) :
    ∀ (roots taken : List Nat) (rank : Nat) (seen : Std.TreeMap Nat Unit) (ranks : Std.TreeMap Nat Nat),
      left = taken ++ roots → SeenFrom next taken seen →
      (∀ y, seen.contains y = true →
        (rankFrom back fuel rank seen ranks roots).getD y 0 = ranks.getD y 0) ∧
      ∀ y ∈ roots, ¬ seen.contains y = true →
        (rankFrom back fuel rank seen ranks roots).getD y 0 = rank + rootOf next roots y := by
  intro roots
  induction roots with
  | nil => exact fun taken rank seen ranks _ _ => ⟨fun y _ => rfl, fun y hy => absurd hy List.not_mem_nil⟩
  | cons r roots ih =>
    intro taken rank seen ranks hsplit hseen
    obtain ⟨hloop, hsaw, hseen'⟩ := secondSearch hs hsplit hseen hfuel
    rw [rankFrom]
    set t := visit back fuel ⟨seen, []⟩ r
    have hget : ∀ y, (t.finished.foldl (·.insert · rank) ranks).getD y 0 =
        if y ∈ t.finished then rank else ranks.getD y 0 := getD_foldl_insert _ _ _
    obtain ⟨hkeep, hnew⟩ := ih (taken ++ [r]) (rank + 1) t.seen _ (by simp [hsplit]) hseen'
    refine ⟨fun y hy => ?_, fun y hmem hy => ?_⟩
    · rw [hkeep y ((hsaw y).2 (.inl hy)), hget, if_neg fun h => (hloop y h).1 hy]
    · -- what is found now leads to `r`, and nothing else that is new does
      have hlead : y ∈ t.finished ↔ Leads next y r := by
        refine ⟨fun hfound => ?_, fun hyr => ?_⟩
        · obtain ⟨p, hp, hyp⟩ := (hseen' y).1 ((hsaw y).2 (.inr hfound))
          rcases List.mem_append.1 hp with hp | hp
          · exact absurd ((hseen y).2 ⟨p, hp, hyp⟩) hy
          · exact List.mem_singleton.1 hp ▸ hyp
        · exact ((hsaw y).1 ((hseen' y).2 ⟨r, by simp, hyr⟩)).resolve_left hy
      rw [rootOf, List.findIdx_cons]
      by_cases hfound : y ∈ t.finished
      · rw [hkeep y ((hsaw y).2 (.inr hfound)), hget, if_pos hfound, decide_eq_true (hlead.1 hfound)]
        rfl
      · have hyr : ¬ Leads next y r := fun h => hfound (hlead.2 h)
        have hroots : y ∈ roots := (List.mem_cons.1 hmem).resolve_left fun h => hyr (h ▸ .refl)
        rw [hnew y hroots fun h => ((hsaw y).1 h).elim hy hfound, decide_eq_false hyr]
        exact Nat.add_right_comm rank 1 _

variable {u v : Nat}

open Classical in
/-- A vertex that leads to another leads to the roots of that one, too. -/
theorem rootOf_le_of_leads (left : List Nat) (huv : Leads next u v) :
    rootOf next left u ≤ rootOf next left v :=
  List.findIdx_le_findIdx fun _ _ hvr => decide_eq_true (huv.trans (of_decide_eq_true hvr))

open Classical in
/-- The first root that a vertex leads to is on its loop. -/
theorem exists_rootOf (hs : Searched next back all left) (hu : u ∈ left) :
    ∃ r, left[rootOf next left u]? = some r ∧ Leads next u r ∧ Leads next r u := by
  have hlt : rootOf next left u < left.length :=
    List.findIdx_lt_length_of_exists ⟨u, hu, decide_eq_true .refl⟩
  have hur : Leads next u left[rootOf next left u] := of_decide_eq_true (List.findIdx_getElem (w := hlt))
  have hsplit : left = left.take (rootOf next left u) ++
      left[rootOf next left u] :: left.drop (rootOf next left u + 1) := by
    rw [List.getElem_cons_drop, List.take_append_drop]
  refine ⟨_, List.getElem?_eq_getElem hlt, hur, loop_of_leads hs hsplit hu hur fun p hp hup => ?_⟩
  obtain ⟨i, hi, rfl⟩ := List.mem_take_iff_getElem.1 hp
  exact of_decide_eq_false (List.not_of_lt_findIdx (Nat.lt_min.1 hi).1) hup

/-- **Loops.** Two vertices have the same first root exactly if they lead to each other. -/
theorem rootOf_eq_iff (hs : Searched next back all left) (hu : u ∈ left) (hv : v ∈ left) :
    rootOf next left u = rootOf next left v ↔ Leads next u v ∧ Leads next v u := by
  constructor
  · intro heq
    obtain ⟨r, hr, hur, hru⟩ := exists_rootOf hs hu
    obtain ⟨q, hq, hvq, hqv⟩ := exists_rootOf hs hv
    obtain rfl : r = q := Option.some.inj (by rw [← hr, ← hq, heq])
    exact ⟨hur.trans hqv, hvq.trans hru⟩
  · rintro ⟨huv, hvu⟩
    exact Nat.le_antisymm (rootOf_le_of_leads left huv) (rootOf_le_of_leads left hvu)

end SecondSearch

/-- The gate at `u` feeds the gate at `v`. -/
def Drives (gates : List Gate) (u v : Nat) : Prop :=
  u ∈ gates.map Gate.out ∧ ∃ g ∈ gates, g.out = v ∧ g.Reads u

variable {gates : List Gate}

theorem mem_gatePlaces (isGate : Nat → Bool) (u : Nat) (x : Source) :
    u ∈ gatePlaces isGate x ↔ x = .node u ∧ isGate u = true := by
  cases x with
  | node i =>
    rw [gatePlaces, Source.node.injEq]
    split
    · next h =>
      rw [List.mem_singleton]
      exact ⟨fun hu => ⟨hu.symm, hu ▸ h⟩, fun hu => hu.1.symm⟩
    · next h => exact ⟨fun hu => absurd hu List.not_mem_nil, fun hu => absurd (hu.1 ▸ hu.2) h⟩
  | input i => simp [gatePlaces]
  | const b => simp [gatePlaces]

theorem mem_drivers (isGate : Nat → Bool) (u : Nat) (g : Gate) :
    u ∈ drivers isGate g ↔ g.Reads u ∧ isGate u = true := by
  rw [drivers, List.mem_append, mem_gatePlaces, mem_gatePlaces, Gate.Reads]
  tauto

theorem gateSet_contains (gates : List Gate) (v : Nat) :
    (gateSet gates).contains v = true ↔ v ∈ gates.map Gate.out := by
  -- for any set to start from, since the fold carries one along
  have key : ∀ (gs : List Gate) (s : Std.TreeMap Nat Unit),
      (gs.foldl (fun t g => t.insert g.out ()) s).contains v = true ↔
        v ∈ gs.map Gate.out ∨ s.contains v = true := by
    intro gs
    induction gs with
    | nil => simp
    | cons g gs ih =>
      intro s
      rw [List.foldl_cons, ih, contains_insert_unit, List.map_cons, List.mem_cons]
      tauto
  simpa [gateSet] using key gates ∅

theorem getD_insert_list (table : Std.TreeMap Nat (List Nat)) (p u : Nat) (l : List Nat) :
    (table.insert p l).getD u [] = if p = u then l else table.getD u [] := by
  rw [Std.TreeMap.getD_insert]
  simp only [Std.LawfulEqCmp.compare_eq_iff_eq]

theorem mem_drivenTable (isGate : Nat → Bool) (gates : List Gate) (u v : Nat) :
    v ∈ (drivenTable isGate gates).getD u [] ↔ ∃ g ∈ gates, g.out = v ∧ u ∈ drivers isGate g := by
  have hadd : ∀ (ps : List Nat) (out : Nat) (table : Std.TreeMap Nat (List Nat)),
      v ∈ (ps.foldl (fun t p => t.insert p (out :: t.getD p [])) table).getD u [] ↔
        (out = v ∧ u ∈ ps) ∨ v ∈ table.getD u [] := by
    intro ps out
    induction ps with
    | nil => simp
    | cons p ps ih =>
      intro table
      rw [List.foldl_cons, ih, getD_insert_list]
      by_cases hp : p = u
      · subst hp; simp [eq_comm]; tauto
      · simp [hp, Ne.symm hp]
  -- one gate adds its place to the lists of its drivers and leaves the others alone
  have hall : ∀ (gs : List Gate) (table : Std.TreeMap Nat (List Nat)),
      v ∈ (gs.foldl (fun table g => (drivers isGate g).foldl
        (fun t p => t.insert p (g.out :: t.getD p [])) table) table).getD u [] ↔
        (∃ g ∈ gs, g.out = v ∧ u ∈ drivers isGate g) ∨ v ∈ table.getD u [] := by
    intro gs
    induction gs with
    | nil => simp
    | cons g gs ih =>
      intro table
      rw [List.foldl_cons, ih, hadd, List.exists_mem_cons_iff, or_left_comm, or_assoc]
  rw [drivenTable, hall]
  simp

/-- With distinct places the table lists the drivers of the one gate at a place. -/
theorem mem_driverTable (isGate : Nat → Bool) (gates : List Gate) (hnodup : (gates.map Gate.out).Nodup)
    (u v : Nat) :
    u ∈ (driverTable isGate gates).getD v [] ↔ ∃ g ∈ gates, g.out = v ∧ u ∈ drivers isGate g := by
  have hall : ∀ (gs : List Gate) (table : Std.TreeMap Nat (List Nat)), (gs.map Gate.out).Nodup →
      (u ∈ (gs.foldl (fun table g => table.insert g.out (drivers isGate g)) table).getD v [] ↔
        if v ∈ gs.map Gate.out then ∃ g ∈ gs, g.out = v ∧ u ∈ drivers isGate g
        else u ∈ table.getD v []) := by
    intro gs
    induction gs with
    | nil => simp
    | cons g gs ih =>
      intro table hnd
      obtain ⟨hg, hgs⟩ := List.nodup_cons.1 (List.map_cons ▸ hnd)
      rw [List.foldl_cons, ih _ hgs, getD_insert_list, List.map_cons]
      by_cases hv : v ∈ gs.map Gate.out
      · have hne : g.out ≠ v := fun h => hg (h ▸ hv)
        simp [hv, hne]
      · by_cases hgv : g.out = v
        · subst hgv
          have hnone : ∀ h ∈ gs, h.out ≠ g.out := fun h hh he => hv (List.mem_map.2 ⟨h, hh, he⟩)
          simp only [hv, if_false, if_true, List.mem_cons, true_or, exists_eq_or_imp, true_and]
          exact ⟨.inl, fun h => h.elim id fun ⟨h, hh, he, _⟩ => absurd he (hnone h hh)⟩
        · simp [hv, hgv, Ne.symm hgv]
  rw [driverTable, hall gates ∅ hnodup]
  split
  · rfl
  · next hv =>
    have hnone : ¬ ∃ g ∈ gates, g.out = v ∧ u ∈ drivers isGate g :=
      fun ⟨g, hg, he, _⟩ => hv (List.mem_map.2 ⟨g, hg, he⟩)
    simp [hnone]

/-- The gates that the gate at a place feeds. -/
def fedBy (gates : List Gate) (u : Nat) : List Nat :=
  (drivenTable (gateSet gates).contains gates).getD u []

theorem mem_fedBy (gates : List Gate) (u v : Nat) : v ∈ fedBy gates u ↔ Drives gates u v := by
  simp only [fedBy, mem_drivenTable, mem_drivers, gateSet_contains, Drives]
  tauto

/-- What a gate feeds is a gate. -/
theorem fedBy_mem (gates : List Gate) :
    ∀ u ∈ gates.map Gate.out, ∀ w ∈ fedBy gates u, w ∈ gates.map Gate.out := by
  intro u _ w hw
  obtain ⟨-, g, hg, hgw, -⟩ := (mem_fedBy gates u w).1 hw
  exact List.mem_map.2 ⟨g, hg, hgw⟩

/-- The first search leaves every gate once, and in order. -/
theorem leftLast_spec (gates : List Gate) :
    (leftLast (gateSet gates).contains gates).Nodup ∧
      (∀ v, v ∈ leftLast (gateSet gates).contains gates ↔ v ∈ gates.map Gate.out) ∧
      LeftInOrder (fedBy gates) (fun _ => False) (leftLast (gateSet gates).contains gates) := by
  have hstart : Trail.Ready (fedBy gates) (fun _ => False) (fun _ => False) ⟨∅, []⟩ :=
    ⟨fun y hy => by simp [Trail.Saw] at hy, fun y hy => absurd hy List.not_mem_nil,
      fun y hy => absurd hy List.not_mem_nil, .nil⟩
  obtain ⟨new, hadd, hnew, hsaw, hready⟩ := foldl_visits
    (fun t v hv hf hs ht => visit_adds (fedBy_mem gates) gates.length _ t v hv hf hs ht)
    (gates.map Gate.out) ⟨∅, []⟩ (fun w hw => ⟨hw, fun _ h => h.elim⟩)
    (le_trans (List.length_filter_le _ _) (by simp)) hstart
  rw [List.foldl_map] at hadd hsaw hready
  have heq : leftLast (gateSet gates).contains gates = new := by
    refine Eq.trans ?_ (hadd.finished.trans (List.append_nil new))
    rfl
  have horder := hready.order
  rw [hadd.finished, List.append_nil] at horder
  rw [heq]
  refine ⟨hadd.nodup, fun v => ⟨fun hv => ?_, fun hv => ?_⟩, horder⟩
  · obtain ⟨w, hw, hwv⟩ := hnew v hv
    exact Leads.mem (fedBy_mem gates) hw hwv
  · refine ((hadd.saw v).1 (hsaw v hv)).resolve_left ?_
    simp [Trail.Saw]

/-- The second search goes back from a gate to those that drive it. -/
theorem searched_gates (hnodup : (gates.map Gate.out).Nodup) :
    Searched (fedBy gates) (fun v => (driverTable (gateSet gates).contains gates).getD v [])
      (gates.map Gate.out) (leftLast (gateSet gates).contains gates) := by
  obtain ⟨hnd, hmem, horder⟩ := leftLast_spec gates
  have hback : ∀ u v, u ∈ (driverTable (gateSet gates).contains gates).getD v [] ↔ v ∈ fedBy gates u := by
    intro u v
    rw [mem_driverTable _ _ hnodup, fedBy, mem_drivenTable]
  refine ⟨hback, fun v _ u hu => ?_, fedBy_mem gates, horder, hnd, hmem⟩
  exact ((mem_fedBy gates u v).1 ((hback u v).1 hu)).1

/-- The rank of a gate is the number of the first root that it leads to. -/
theorem rank_eq_rootOf (hnodup : (gates.map Gate.out).Nodup) {v : Nat} (hv : v ∈ gates.map Gate.out) :
    ((keyTable gates).key v).rank = rootOf (fedBy gates) (leftLast (gateSet gates).contains gates) v := by
  have hs := searched_gates hnodup
  have hfuel : (gates.map Gate.out).length ≤ gates.length := by rw [List.length_map]
  obtain ⟨-, hrank⟩ := rankFrom_eq hs hfuel (leftLast (gateSet gates).contains gates) [] 0 ∅ ∅ rfl
    fun y => by simp
  exact (hrank v ((hs.mem_left v).2 hv) (by simp)).trans (Nat.zero_add _)

/-- **Loops have ranks of their own**: two gates have the same rank exactly if they lead to each other. -/
theorem rank_eq_iff (hnodup : (gates.map Gate.out).Nodup) {u v : Nat} (hu : u ∈ gates.map Gate.out)
    (hv : v ∈ gates.map Gate.out) :
    ((keyTable gates).key u).rank = ((keyTable gates).key v).rank ↔
      Leads (fedBy gates) u v ∧ Leads (fedBy gates) v u := by
  have hs := searched_gates hnodup
  rw [rank_eq_rootOf hnodup hu, rank_eq_rootOf hnodup hv]
  exact rootOf_eq_iff hs ((hs.mem_left u).2 hu) ((hs.mem_left v).2 hv)

/-- What a gate leads to has no smaller rank. -/
theorem rank_le_of_leads (hnodup : (gates.map Gate.out).Nodup) {u v : Nat} (hu : u ∈ gates.map Gate.out)
    (h : Leads (fedBy gates) u v) : ((keyTable gates).key u).rank ≤ ((keyTable gates).key v).rank := by
  rw [rank_eq_rootOf hnodup hu, rank_eq_rootOf hnodup (h.mem (fedBy_mem gates) hu)]
  exact rootOf_le_of_leads _ h

/-- A gate that leads to another without being led back to has the smaller rank. -/
theorem rank_lt_of_leads (hnodup : (gates.map Gate.out).Nodup) {u v : Nat} (hu : u ∈ gates.map Gate.out)
    (h : Leads (fedBy gates) u v) (hloop : ¬ Leads (fedBy gates) v u) :
    ((keyTable gates).key u).rank < ((keyTable gates).key v).rank :=
  Nat.lt_of_le_of_ne (rank_le_of_leads hnodup hu h) fun heq =>
    hloop ((rank_eq_iff hnodup hu (h.mem (fedBy_mem gates) hu)).1 heq).2

/-- The order only rearranges the gates. -/
theorem orderGates_perm (gates : List Gate) : (orderGates gates).Perm gates := List.mergeSort_perm _ _

/-- The ranks do not decrease along the order. -/
theorem orderGates_ranks (gates : List Gate) :
    (orderGates gates).Pairwise fun g h =>
      ((keyTable gates).key g.out).rank ≤ ((keyTable gates).key h.out).rank := by
  have hsorted : (orderGates gates).Pairwise fun g h =>
      ((keyTable gates).key g.out).le ((keyTable gates).key h.out) = true :=
    List.pairwise_mergeSort (fun g h k => by simp only [GateKey.le]; grind)
      (fun g h => by simp only [GateKey.le]; grind) gates
  refine hsorted.imp fun {g h} hle => ?_
  simp only [GateKey.le, Bool.or_eq_true, Bool.and_eq_true, decide_eq_true_eq] at hle
  omega

/-- **The order of gates.** A gate that drives one before it is led to by that one: they are parts of a
feedback loop. -/
theorem orderGates_drives (hnodup : (gates.map Gate.out).Nodup) :
    (orderGates gates).Pairwise fun g h => Drives gates h.out g.out → Leads (fedBy gates) g.out h.out := by
  refine (orderGates_ranks gates).imp fun {g h} hle hdr => ?_
  by_contra hloop
  have hlt := rank_lt_of_leads hnodup hdr.1 (.single ((mem_fedBy gates h.out g.out).2 hdr)) hloop
  exact Nat.not_lt.2 hle hlt

end GateOrder

end NandHdl
