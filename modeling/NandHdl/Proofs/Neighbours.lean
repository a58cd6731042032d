import NandHdl.Proofs.Illegal

/-!
# What stands next to a lexeme

Lexemes are as long as they can be, so blanks are never followed by blanks, and a comment by nothing but the end of its
line. Only line feeds end lines.

* `TokenKind.IsWord`: the kinds of words, as opposed to layout and the end.
* `Lexeme.Leads`: what a lexeme is in front of others.
* `Lexeme.Scanned`: lexemes one behind another, each of which may stand in front of the next one.
* `scanned_scanFrom`: **scanning gives such lexemes.**
-/

namespace NandHdl

/-- Neither layout nor the end. -/
def TokenKind.IsWord (k : TokenKind) : Prop := k ≠ .newline ∧ k ≠ .indent ∧ k ≠ .eof

instance : DecidablePred TokenKind.IsWord := fun _ => inferInstanceAs (Decidable (_ ∧ _ ∧ _))

/-- A text without line feeds moves on in its line. -/
theorem Position.after_of_not_mem {cs : List Char} (h : '\n' ∉ cs) :
    ∀ p : Position, p.after cs = ⟨p.line, p.column + cs.length⟩ := by
  induction cs with
  | nil => exact fun p => rfl
  | cons c cs ih =>
    intro p
    rw [List.mem_cons, not_or] at h
    rw [after_cons, ih h.2, advance, if_neg (Ne.symm h.1), List.length_cons]
    simp only [Position.mk.injEq, true_and]
    omega

namespace Lexeme

/-- What the lexeme is if `xs` follow it. -/
def Leads (x : Lexeme) (xs : List Lexeme) : Prop :=
  match x.shape with
  | .blank => '\n' ∉ x.text ∧ ∀ y ∈ xs.head?, y.shape ≠ .blank
  | .lineFeed => x.text = ['\n']
  | .comment => '\n' ∉ x.text ∧ ∀ y ∈ xs.head?, y.shape = .lineFeed
  | .word k => '\n' ∉ x.text ∧ k.IsWord

/-- Lexemes one behind another, the first of them at the first position, from which they lead to the second. -/
inductive Scanned : Position → List Lexeme → Position → Prop
  | nil (pos : Position) : Scanned pos [] pos
  | cons {x : Lexeme} {xs : List Lexeme} {last : Position} (hx : x.Leads xs)
    (hxs : Scanned (x.pos.after x.text) xs last) : Scanned x.pos (x :: xs) last

/-- The first of such lexemes, and the others. -/
theorem Scanned.of_cons {pos last : Position} {x : Lexeme} {xs : List Lexeme} (h : Scanned pos (x :: xs) last) :
    x.pos = pos ∧ x.Leads xs ∧ Scanned (x.pos.after x.text) xs last := by
  cases h with
  | cons hx hxs => exact ⟨rfl, hx, hxs⟩

/-! ## Cuts -/

variable {c : Char} {cs : List Char} {x : Cut}

theorem cut?_word {k : TokenKind} (h : cut? c cs = some x) (hshape : x.shape = .word k) : k.IsWord := by
  have hname : ∀ text, (nameKind text).IsWord := by
    intro text
    rw [nameKind]
    split <;> decide
  unfold cut? at h
  split at h
  · cases h; cases hshape
  split at h
  · cases h; cases hshape
  split at h
  · cases h; cases hshape
  split at h
  · cases h
    cases hshape
    exact hname _
  split at h
  · next hc =>
    cases h
    rw [(spells_number cs hc).1] at hshape
    cases hshape
    decide
  split at h
  · split at h
    · cases h; cases hshape; decide
    · cases h
  · obtain ⟨k', hk, rfl⟩ := Option.map_eq_some_iff.1 h
    cases hshape
    unfold punctuation? at hk
    split at hk <;> cases hk <;> decide

theorem isBlank_of_cut? (h : cut? c cs = some x) (hshape : x.shape = .blank) : isBlank c = true := by
  have hfits := fits_cut h
  have happ := cut?_eq_append h
  rw [hshape] at hfits
  obtain ⟨d, ds, htext⟩ := List.exists_cons_of_ne_nil hfits.1
  rw [htext, List.cons_append, List.cons.injEq] at happ
  rw [← happ.1]
  exact hfits.2.all d (by rw [htext]; exact List.mem_cons_self)

/-- Only a line feed ends a line. -/
theorem feed_not_mem (h : cut? c cs = some x) (hshape : x.shape ≠ .lineFeed) : '\n' ∉ x.text := by
  have hfits := fits_cut h
  intro hmem
  cases hx : x.shape with
  | blank =>
    rw [hx] at hfits
    exact absurd (hfits.2.all _ hmem) (by decide)
  | lineFeed => exact hshape hx
  | comment =>
    rw [hx] at hfits
    obtain ⟨ds, htext, hds⟩ := hfits
    rw [htext, List.mem_cons] at hmem
    exact hmem.elim (by decide) hds
  | word k =>
    rw [hx] at hfits
    rcases spells_cases hfits with hcs | hcs | ⟨c, m, htext, hc⟩ | htext | ⟨hk, -⟩
    · exact absurd (hcs _ hmem) (by decide)
    · exact absurd (hcs _ hmem) (by decide)
    · rw [htext, List.mem_singleton] at hmem
      subst hmem
      cases hc
    · rw [htext] at hmem
      exact absurd hmem (by decide)
    · exact (cut?_word h hx).1 hk

/-! ## Scanning -/

/-- The first lexeme of a text is cut off its front. -/
theorem head_scanFrom {pos : Position} {ys : List Lexeme} {y : Lexeme} (h : scanFrom pos cs = .ok ys)
    (hy : y ∈ ys.head?) : ∃ c ds z, cs = c :: ds ∧ cut? c ds = some z ∧ y.shape = z.shape := by
  cases cs with
  | nil =>
    rw [scanFrom] at h
    cases h
    cases hy
  | cons c cs =>
    rw [scanFrom] at h
    split at h
    · cases h
    · next z hz =>
      cases hrest : scanFrom (pos.after z.text) z.rest with
      | error e =>
        rw [hrest] at h
        cases h
      | ok zs =>
        rw [hrest] at h
        cases h
        cases hy
        exact ⟨c, cs, z, rfl, hz, rfl⟩

/-- A cut may stand in front of the lexemes of what follows it. -/
theorem leads_of_cut? (h : cut? c cs = some x) (pos : Position) {pos' : Position} {ys : List Lexeme}
    (hys : scanFrom pos' x.rest = .ok ys) : Leads ⟨x.shape, x.text, pos⟩ ys := by
  have hfits := fits_cut h
  unfold Leads
  cases hx : x.shape with
  | blank =>
    rw [hx] at hfits
    refine ⟨feed_not_mem h (by simp [hx]), fun y hy hblank => ?_⟩
    obtain ⟨d, ds, z, hrest, hz, hshape⟩ := head_scanFrom hys hy
    have hstop := hfits.2.stops d (by rw [hrest]; rfl)
    rw [isBlank_of_cut? hz (hshape.symm.trans hblank)] at hstop
    cases hstop
  | lineFeed =>
    rw [hx] at hfits
    exact hfits
  | comment =>
    refine ⟨feed_not_mem h (by simp [hx]), fun y hy => ?_⟩
    obtain ⟨d, ds, z, hrest, hz, hshape⟩ := head_scanFrom hys hy
    -- behind a comment the text goes on with the next line
    have hd : d = '\n' := by
      have hstop := (longestRun_run (· ≠ '\n') cs).stops d
      rw [(cut?_comment h hx).2] at hrest
      rw [show cs.dropWhile (· ≠ '\n') = d :: ds from hrest] at hstop
      simpa using hstop rfl
    rw [hd] at hz
    cases hz
    exact hshape
  | word k => exact ⟨feed_not_mem h (by simp [hx]), cut?_word h hx⟩

/-- **Scanning gives lexemes each of which may stand in front of the next one.** -/
theorem scanned_scanFrom {cs : List Char} : ∀ {pos : Position} {xs : List Lexeme},
    scanFrom pos cs = .ok xs → Scanned pos xs (pos.after cs) := by
  induction hn : cs.length using Nat.strongRecOn generalizing cs with
  | _ n ih =>
    intro pos xs h
    cases cs with
    | nil =>
      rw [scanFrom] at h
      cases h
      exact .nil pos
    | cons c cs =>
      rw [scanFrom] at h
      split at h
      · cases h
      · next x hx =>
        cases hrest : scanFrom (pos.after x.text) x.rest with
        | error e =>
          rw [hrest] at h
          cases h
        | ok ys =>
          rw [hrest] at h
          cases h
          rw [← cut?_eq_append hx, Position.after_append]
          exact @Scanned.cons ⟨x.shape, x.text, pos⟩ _ _ (leads_of_cut? hx pos hrest)
            (ih x.rest.length (hn ▸ cut?_rest_lt hx) rfl hrest)

end Lexeme

end NandHdl
