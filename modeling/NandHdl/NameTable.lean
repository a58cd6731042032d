/-!
# Name tables

What is listed by name: the named signals and the input pins of a circuit. The
entries stand in increasing order of their names, each name once.

* `NameTable.insert`, `NameTable.get?`: the last value given to a name.
* `get?_insert`: how the two fit together.
* `ext_get?`: tables are told apart by their values.
* `mem_of_get?`: values are those of entries.
* `mem_insertAll`, `get?_insertAll_of_mem`: many names at once.
* `NameTable.map`: another table over the same names. `get?_map`, `map_insertAll`: it holds the images.
-/

namespace NandHdl

/-- Entries in strictly increasing order of their names. -/
def SortedByName {α : Type} (entries : List (String × α)) : Prop :=
  entries.Pairwise fun a b => a.1 < b.1

/-- A table from names to values. -/
structure NameTable (α : Type) where
  entries : List (String × α)
  sorted : SortedByName entries

namespace NameTable

variable {α β : Type}

theorem ext {t u : NameTable α} (h : t.entries = u.entries) : t = u := by
  cases t; cases u; cases h; rfl

instance [DecidableEq α] : DecidableEq (NameTable α) := fun t u =>
  if h : t.entries = u.entries then .isTrue (ext h) else .isFalse fun e => h (e ▸ rfl)

/-- No names. -/
def empty : NameTable α := ⟨[], .nil⟩

/-- The entries with `value` under `name`. -/
def insertEntry (name : String) (value : α) : List (String × α) → List (String × α)
  | [] => [(name, value)]
  | (n, v) :: rest =>
    if name < n then (name, value) :: (n, v) :: rest
    else if name = n then (name, value) :: rest
    else (n, v) :: insertEntry name value rest

/-- The first value under a name. -/
def entryOf? (name : String) : List (String × α) → Option α
  | [] => none
  | (n, v) :: rest => if n = name then some v else entryOf? name rest

theorem mem_insertEntry {name : String} {value : α} {entries : List (String × α)} {e : String × α}
    (h : e ∈ insertEntry name value entries) : e = (name, value) ∨ e ∈ entries := by
  induction entries with
  | nil => exact .inl (List.mem_singleton.1 h)
  | cons f rest ih =>
    unfold insertEntry at h
    split at h
    · exact (List.mem_cons.1 h).imp id id
    split at h
    · exact (List.mem_cons.1 h).imp id (List.mem_cons_of_mem _)
    · rcases List.mem_cons.1 h with h | h
      · exact .inr (h ▸ List.mem_cons_self)
      · exact (ih h).imp id (List.mem_cons_of_mem _)

theorem sorted_insertEntry (name : String) (value : α) {entries : List (String × α)}
    (h : SortedByName entries) : SortedByName (insertEntry name value entries) := by
  induction entries with
  | nil => exact List.pairwise_singleton _ _
  | cons f rest ih =>
    obtain ⟨n, v⟩ := f
    obtain ⟨hn, hrest⟩ := List.pairwise_cons.1 h
    unfold insertEntry
    split
    · next hlt =>
      refine List.pairwise_cons.2 ⟨fun e he => ?_, h⟩
      rcases List.mem_cons.1 he with rfl | he
      · exact hlt
      · exact String.lt_trans hlt (hn e he)
    split
    · next heq => exact List.pairwise_cons.2 ⟨fun e he => heq ▸ hn e he, hrest⟩
    · next hnlt hne =>
      refine List.pairwise_cons.2 ⟨fun e he => ?_, ih hrest⟩
      rcases mem_insertEntry he with rfl | he
      · rcases String.le_total n name with hle | hle
        · exact Classical.byContradiction fun hlt =>
            hne (String.le_antisymm (String.not_lt.1 hlt) hle)
        · exact absurd (String.le_antisymm hle (String.not_lt.1 hnlt)) hne
      · exact hn e he

/-- Gives a name a value. -/
def insert (t : NameTable α) (name : String) (value : α) : NameTable α :=
  ⟨insertEntry name value t.entries, sorted_insertEntry name value t.sorted⟩

/-- Gives names values, one after another. -/
def insertAll (t : NameTable α) (entries : List (String × α)) : NameTable α :=
  entries.foldl (fun t e => t.insert e.1 e.2) t

/-- The value of a name. -/
def get? (t : NameTable α) (name : String) : Option α := entryOf? name t.entries

/-- All names, in increasing order. -/
def names (t : NameTable α) : List String := t.entries.map Prod.fst

/-- The table with `f` applied to every value. -/
def map (f : α → β) (t : NameTable α) : NameTable β :=
  ⟨t.entries.map fun e => (e.1, f e.2), by
    simpa only [SortedByName, List.pairwise_map] using t.sorted⟩

@[simp] theorem get?_empty (name : String) : (empty : NameTable α).get? name = none := rfl

theorem entryOf?_insertEntry (name other : String) (value : α) (entries : List (String × α)) :
    entryOf? other (insertEntry name value entries) =
      if name = other then some value else entryOf? other entries := by
  induction entries with
  | nil => rfl
  | cons e rest ih =>
    unfold insertEntry
    split
    · rfl
    split
    · next h => subst h; simp only [entryOf?]; split <;> rfl
    · next h =>
      simp only [entryOf?, ih]
      split
      · next he => rw [if_neg fun hn => h (hn.trans he.symm)]
      · rfl

/-- A name has the value given to it last. -/
theorem get?_insert (t : NameTable α) (name other : String) (value : α) :
    (t.insert name value).get? other = if name = other then some value else t.get? other :=
  entryOf?_insertEntry name other value t.entries

theorem entryOf?_of_lt {name : String} {entries : List (String × α)} (h : ∀ e ∈ entries, name < e.1) :
    entryOf? name entries = none := by
  induction entries with
  | nil => rfl
  | cons e entries ih =>
    obtain ⟨he, hrest⟩ := List.forall_mem_cons.1 h
    have hne : e.1 ≠ name := fun heq => String.lt_irrefl name (heq ▸ he)
    rw [entryOf?, if_neg hne, ih hrest]

/-- Two lists of entries that give the same values have the same names first. -/
theorem head_le {n n' : String} {v v' : α} {rest rest' : List (String × α)}
    (hsorted' : SortedByName ((n', v') :: rest'))
    (h : ∀ name, entryOf? name ((n, v) :: rest) = entryOf? name ((n', v') :: rest')) : n' ≤ n := by
  refine Decidable.byContradiction fun hle => ?_
  have hlt : n < n' := String.not_le.1 hle
  have hnone : entryOf? n ((n', v') :: rest') = none := entryOf?_of_lt fun e he => by
    rcases List.mem_cons.1 he with rfl | he
    · exact hlt
    · exact String.lt_trans hlt ((List.pairwise_cons.1 hsorted').1 e he)
  have hsome := h n
  rw [hnone, entryOf?, if_pos rfl] at hsome
  cases hsome

/-- Entries in increasing order are those with the same values. -/
theorem entries_eq {entries entries' : List (String × α)} (hs : SortedByName entries)
    (hs' : SortedByName entries')
    (h : ∀ name, entryOf? name entries = entryOf? name entries') : entries = entries' := by
  induction entries generalizing entries' with
  | nil =>
    cases entries' with
    | nil => rfl
    | cons e rest =>
      have hname := h e.1
      rw [entryOf?, entryOf?, if_pos rfl] at hname
      cases hname
  | cons e rest ih =>
    obtain ⟨n, v⟩ := e
    cases entries' with
    | nil =>
      have hname := h n
      rw [entryOf?, entryOf?, if_pos rfl] at hname
      cases hname
    | cons e' rest' =>
      obtain ⟨n', v'⟩ := e'
      obtain rfl : n = n' := String.le_antisymm (head_le hs fun name => (h name).symm) (head_le hs' h)
      have hvalue := h n
      rw [entryOf?, entryOf?, if_pos rfl, if_pos rfl, Option.some.injEq] at hvalue
      obtain ⟨hfirst, hrest⟩ := List.pairwise_cons.1 hs
      obtain ⟨hfirst', hrest'⟩ := List.pairwise_cons.1 hs'
      rw [hvalue, ih hrest hrest' fun name => ?_]
      by_cases hname : n = name
      · rw [← hname, entryOf?_of_lt hfirst, entryOf?_of_lt hfirst']
      · have htail := h name
        rwa [entryOf?, entryOf?, if_neg hname, if_neg hname] at htail

/-- **Tables that give the same values are the same.** -/
theorem ext_get? {t u : NameTable α} (h : ∀ name, t.get? name = u.get? name) : t = u :=
  ext (entries_eq t.sorted u.sorted h)

theorem mem_of_entryOf? {name : String} {value : α} {entries : List (String × α)}
    (h : entryOf? name entries = some value) : (name, value) ∈ entries := by
  induction entries with
  | nil => cases h
  | cons e entries ih =>
    rw [entryOf?] at h
    split at h
    · next hname =>
      cases h
      rw [← hname]
      exact List.mem_cons_self
    · exact List.mem_cons_of_mem e (ih h)

/-- What a name stands for is an entry of the table. -/
theorem mem_of_get? {t : NameTable α} {name : String} {value : α} (h : t.get? name = some value) :
    (name, value) ∈ t.entries := mem_of_entryOf? h

/-- An entry of a table was there before or is one of those given to it. -/
theorem mem_insertAll {t : NameTable α} {es : List (String × α)} {e : String × α}
    (h : e ∈ (t.insertAll es).entries) : e ∈ es ∨ e ∈ t.entries := by
  induction es generalizing t with
  | nil => exact .inr h
  | cons d es ih =>
    rcases ih (t := t.insert d.1 d.2) h with h | h
    · exact .inl (List.mem_cons_of_mem d h)
    · refine (mem_insertEntry h).imp (fun he => ?_) id
      rw [he]
      exact List.mem_cons_self

/-- Names that are given no value keep theirs. -/
theorem get?_insertAll_of_not_mem {t : NameTable α} {es : List (String × α)} {name : String}
    (h : name ∉ es.map Prod.fst) : (t.insertAll es).get? name = t.get? name := by
  induction es generalizing t with
  | nil => rfl
  | cons d es ih =>
    rw [List.map_cons, List.mem_cons, not_or] at h
    have htail : (t.insertAll (d :: es)).get? name = (t.insert d.1 d.2).get? name := ih h.2
    rw [htail, get?_insert, if_neg fun hd => h.1 hd.symm]

/-- Each of several different names has the value given to it. -/
theorem get?_insertAll_of_mem {t : NameTable α} {es : List (String × α)} (hnodup : (es.map Prod.fst).Nodup)
    {e : String × α} (h : e ∈ es) : (t.insertAll es).get? e.1 = some e.2 := by
  induction es generalizing t with
  | nil => cases h
  | cons d es ih =>
    obtain ⟨hd, hes⟩ := List.nodup_cons.1 (List.map_cons ▸ hnodup)
    rcases List.mem_cons.1 h with rfl | h
    · have htail : (t.insertAll (e :: es)).get? e.1 = (t.insert e.1 e.2).get? e.1 :=
        get?_insertAll_of_not_mem hd
      rw [htail, get?_insert, if_pos rfl]
    · exact ih hes h

/-- A name has a value if it had one before or is given one. -/
theorem isSome_get?_insertAll {t : NameTable α} {es : List (String × α)} {name : String}
    (h : name ∈ es.map Prod.fst ∨ (t.get? name).isSome) : ((t.insertAll es).get? name).isSome := by
  induction es generalizing t with
  | nil => exact h.resolve_left List.not_mem_nil
  | cons d es ih =>
    refine ih (t := t.insert d.1 d.2) ?_
    rw [List.map_cons, List.mem_cons, or_assoc] at h
    rw [get?_insert]
    by_cases hd : d.1 = name
    · exact .inr (by rw [if_pos hd]; rfl)
    · rw [if_neg hd]
      exact h.resolve_left fun hn => hd hn.symm

/-- Names that are given the values of a function have them. -/
theorem get?_insertAll_map (t : NameTable α) (F : String → α) (names : List String)
    (name : String) :
    (t.insertAll (names.map fun x => (x, F x))).get? name =
      if name ∈ names then some (F name) else t.get? name := by
  induction names generalizing t with
  | nil => simp [insertAll]
  | cons x names ih =>
    have hinsert : (t.insertAll ((x :: names).map fun x => (x, F x))).get? name =
        ((t.insert x (F x)).insertAll (names.map fun x => (x, F x))).get? name := rfl
    rw [hinsert, ih, get?_insert]
    by_cases hname : name ∈ names
    · rw [if_pos hname, if_pos (List.mem_cons_of_mem x hname)]
    · rw [if_neg hname]
      by_cases hx : x = name
      · rw [if_pos hx, if_pos (hx ▸ List.mem_cons_self), hx]
      · rw [if_neg hx, if_neg fun hmem => (List.mem_cons.1 hmem).elim (fun h => hx h.symm) hname]

theorem entryOf?_map (f : α → β) (name : String) (entries : List (String × α)) :
    entryOf? name (entries.map fun e => (e.1, f e.2)) = (entryOf? name entries).map f := by
  induction entries with
  | nil => rfl
  | cons e rest ih =>
    simp only [List.map_cons, entryOf?]
    split
    · rfl
    · exact ih

theorem get?_map (f : α → β) (t : NameTable α) (name : String) :
    (t.map f).get? name = (t.get? name).map f :=
  entryOf?_map f name t.entries

theorem insertEntry_map (f : α → β) (name : String) (value : α) (entries : List (String × α)) :
    insertEntry name (f value) (entries.map fun e => (e.1, f e.2)) =
      (insertEntry name value entries).map fun e => (e.1, f e.2) := by
  induction entries with
  | nil => rfl
  | cons e rest ih =>
    simp only [List.map_cons, insertEntry, ih]
    split
    · rfl
    split <;> rfl

theorem map_insertAll (f : α → β) (t : NameTable α) (es : List (String × α)) :
    (t.insertAll es).map f = (t.map f).insertAll (es.map fun e => (e.1, f e.2)) := by
  induction es generalizing t with
  | nil => rfl
  | cons e es ih =>
    have hinsert : (t.insert e.1 e.2).map f = (t.map f).insert e.1 (f e.2) :=
      ext (insertEntry_map f e.1 e.2 t.entries).symm
    rw [List.map_cons]
    exact (ih (t.insert e.1 e.2)).trans (by rw [hinsert]; rfl)

end NameTable

end NandHdl
