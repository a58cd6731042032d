import Mathlib
import NandHdl.Proofs.Commands

/-!
# Scripts written and read

A script is written with each command on its own line and nothing on the others. Reading goes over the lines one by
one, so it is said for any number that the first line may have.

* `Bench.HasLine`: the numbered lines of a text. `Bench.BadLine`: those that are no command.
* `Bench.Lists`: commands are those of a text. `Bench.Writes`: a text has commands on their lines.
* `Bench.lists_of_ofText`, `Bench.isLeast_of_ofText`: what is read, and what is reported if it is not.
* `Bench.Orderly`: commands that can be a script, as those of a text are (`Bench.Lists.orderly`).
* `Bench.ofText_of_writes`: **a script is read back** from each text that has its commands on their lines.
* `Bench.text`, `Bench.Orderly.writes`: such a text.
* `scripts_read_back`: all of this about every text and every command.
-/

namespace NandHdl

namespace Bench

/-- The line of a text that has number `n`; the first has number one. -/
def HasLine (source : String) (n : Nat) (line : String) : Prop := (line, n) ∈ (Text.lines source).zipIdx 1

/-- The line with number `n` is no command. -/
def BadLine (source : String) (n : Nat) : Prop :=
  ∃ line fault, HasLine source n line ∧ Command.ofLine line = .error fault

/-- The commands are those of a text, in the order of its lines: one of each line that is not blank. -/
structure Lists (b : Bench) (source : String) : Prop where
  mem_iff : ∀ n c, (n, c) ∈ b.commands ↔ ∃ line, HasLine source n line ∧ Command.ofLine line = .ok (some c)
  increasing : b.commands.Pairwise (·.1 < ·.1)
  nonblank : ∀ n line, HasLine source n line → (n ∈ b.commands.map Prod.fst ↔ ¬ Command.IsBlank line)

/-- The commands stand on numbered lines, in the order of the numbers, and each of them can be written. -/
structure Orderly (b : Bench) : Prop where
  pos : ∀ n c, (n, c) ∈ b.commands → 1 ≤ n
  increasing : b.commands.Pairwise (·.1 < ·.1)
  writable : ∀ n c, (n, c) ∈ b.commands → c.Writable

/-- A text has the commands written on their lines, and all other lines are blank. -/
structure Writes (b : Bench) (source : String) : Prop where
  written : ∀ n c, (n, c) ∈ b.commands → HasLine source n c.text
  elsewhere : ∀ n line, HasLine source n line → n ∉ b.commands.map Prod.fst → Command.IsBlank line

variable {b : Bench} {source line line' : String} {ls : List String} {cs : List (Nat × Command)} {n k : Nat}
  {c : Command} {e : BenchError}

theorem HasLine.unique (h : HasLine source n line) (h' : HasLine source n line') : line = line' := by
  rw [HasLine, List.mk_mem_zipIdx_iff_le_and_getElem?_sub] at h h'
  exact Option.some_inj.1 (h.2.symm.trans h'.2)

theorem HasLine.pos (h : HasLine source n line) : 1 ≤ n := (List.mk_mem_zipIdx_iff_le_and_getElem?_sub.1 h).1

/-! ## Reading a script -/

/-- The command of a numbered line with its number. -/
def numbered? (p : String × Nat) : Option (Nat × Command) :=
  match Command.ofLine p.1 with
  | .ok (some c) => some (p.2, c)
  | _ => none

theorem numbered?_eq_some_iff {p : String × Nat} :
    numbered? p = some (k, c) ↔ p.2 = k ∧ Command.ofLine p.1 = .ok (some c) := by
  unfold numbered?
  split
  · next c' h => simp [h]
  · next h => exact ⟨nofun, fun hp => absurd hp.2 (h c)⟩

/-- Lines are read if each of them is, and give the commands there are. -/
theorem commandsFrom_eq_ok_iff : commandsFrom n ls = .ok cs ↔
    (∀ line ∈ ls, ∃ found, Command.ofLine line = .ok found) ∧ (ls.zipIdx n).filterMap numbered? = cs := by
  induction ls generalizing n cs with
  | nil => simp [commandsFrom]
  | cons line rest ih =>
    rw [List.forall_mem_cons, List.zipIdx_cons, List.filterMap_cons, numbered?, commandsFrom]
    cases hl : Command.ofLine line with
    | error fault => simp
    | ok found =>
      cases found with
      | none => simp [ih]
      | some c =>
        constructor
        · intro h
          obtain ⟨cs', hrest, rfl⟩ := map_eq_ok_iff.1 h
          obtain ⟨hall, hcs⟩ := ih.1 hrest
          exact ⟨⟨⟨some c, rfl⟩, hall⟩, congrArg _ hcs⟩
        · rintro ⟨⟨-, hall⟩, hcs⟩
          rw [ih.2 ⟨hall, rfl⟩, ← hcs]
          rfl

/-- If lines are not read, the first that is no command is to blame. -/
theorem commandsFrom_eq_error (h : commandsFrom n ls = .error e) :
    (∃ line, (line, e.line) ∈ ls.zipIdx n ∧ Command.ofLine line = .error e.fault) ∧
    ∀ line k, (line, k) ∈ ls.zipIdx n → k < e.line → ∃ found, Command.ofLine line = .ok found := by
  induction ls generalizing n with
  | nil => cases h
  | cons line rest ih =>
    rw [commandsFrom] at h
    rw [List.zipIdx_cons]
    cases hl : Command.ofLine line with
    | error fault =>
      rw [hl] at h
      cases h
      refine ⟨⟨line, List.mem_cons_self, hl⟩, fun line' k hk hlt => ?_⟩
      -- no line has a smaller number
      rw [← List.zipIdx_cons] at hk
      exact absurd hlt (Nat.not_lt.2 (List.mk_mem_zipIdx_iff_le_and_getElem?_sub.1 hk).1)
    | ok found =>
      have hrest : commandsFrom (n + 1) rest = .error e := by
        rw [hl] at h
        cases found with
        | none => exact h
        | some c => exact map_eq_error_iff.1 h
      obtain ⟨⟨bad, hbad, hfault⟩, hbefore⟩ := ih hrest
      refine ⟨⟨bad, List.mem_cons_of_mem _ hbad, hfault⟩, fun line' k hk hlt => ?_⟩
      rcases List.mem_cons.1 hk with hk | hk
      · cases hk
        exact ⟨found, hl⟩
      · exact hbefore line' k hk hlt

theorem mem_lines_iff : line ∈ Text.lines source ↔ ∃ n, HasLine source n line := by
  constructor
  · intro h
    obtain ⟨i, hi⟩ := List.mem_iff_getElem?.1 h
    exact ⟨i + 1, List.mk_mem_zipIdx_iff_le_and_getElem?_sub.2 ⟨by omega, hi⟩⟩
  · rintro ⟨n, hn⟩
    exact List.mem_of_getElem? (List.mk_mem_zipIdx_iff_le_and_getElem?_sub.1 hn).2

/-- The commands of numbered lines are sorted by their numbers. -/
theorem pairwise_numbered (ls : List String) (n : Nat) : ((ls.zipIdx n).filterMap numbered?).Pairwise (·.1 < ·.1) := by
  have hlt : (ls.zipIdx n).Pairwise (·.2 < ·.2) := by
    rw [← List.pairwise_map, List.zipIdx_map_snd]
    exact List.pairwise_lt_range'
  refine hlt.filterMap numbered? ?_
  rintro p p' hp ⟨k, c⟩ hk ⟨k', c'⟩ hk'
  rw [← (numbered?_eq_some_iff.1 hk).1, ← (numbered?_eq_some_iff.1 hk').1]
  exact hp

/-- The commands of a script are those of its lines. -/
theorem lists_of_ofText (h : ofText source = .ok b) : b.Lists source := by
  obtain ⟨cs, hcs, rfl⟩ := map_eq_ok_iff.1 h
  obtain ⟨hall, rfl⟩ := commandsFrom_eq_ok_iff.1 hcs
  have hmem : ∀ n c, (n, c) ∈ ((Text.lines source).zipIdx 1).filterMap numbered? ↔
      ∃ line, HasLine source n line ∧ Command.ofLine line = .ok (some c) := by
    simp [List.mem_filterMap, numbered?_eq_some_iff, HasLine]
  refine ⟨hmem, pairwise_numbered _ 1, fun n line hline => ?_⟩
  rw [← Command.ofLine_eq_none_iff, List.mem_map]
  constructor
  · rintro ⟨⟨n, c⟩, hc, rfl⟩ hnone
    obtain ⟨line', hline', hl'⟩ := (hmem n c).1 hc
    rw [hline.unique hline', hl'] at hnone
    cases hnone
  · intro hsome
    obtain ⟨found, hl⟩ := hall line (mem_lines_iff.2 ⟨n, hline⟩)
    cases found with
    | none => exact absurd hl hsome
    | some c => exact ⟨(n, c), (hmem n c).2 ⟨line, hline, hl⟩, rfl⟩

/-- A script that is not read has a line that is no command, and the first of them is reported. -/
theorem isLeast_of_ofText (h : ofText source = .error e) :
    IsLeast {n | BadLine source n} e.line ∧
    ∃ line, HasLine source e.line line ∧ Command.ofLine line = .error e.fault := by
  obtain ⟨⟨bad, hbad, hfault⟩, hbefore⟩ := commandsFrom_eq_error (map_eq_error_iff.1 h)
  refine ⟨⟨⟨bad, e.fault, hbad, hfault⟩, ?_⟩, bad, hbad, hfault⟩
  rintro k ⟨line, fault, hline, hl⟩
  by_contra hlt
  obtain ⟨found, hfound⟩ := hbefore line k hline (Nat.lt_of_not_le hlt)
  cases hl.symm.trans hfound

/-- A script is not read exactly if a line is no command. -/
theorem ofText_fails_iff : (∃ e, ofText source = .error e) ↔ ∃ n, BadLine source n := by
  constructor
  · rintro ⟨e, he⟩
    exact ⟨e.line, (isLeast_of_ofText he).1.1⟩
  · rintro ⟨n, line, fault, hline, hl⟩
    cases h : ofText source with
    | error e => exact ⟨e, rfl⟩
    | ok b =>
      obtain ⟨cs, hcs, -⟩ := map_eq_ok_iff.1 h
      obtain ⟨found, hfound⟩ := (commandsFrom_eq_ok_iff.1 hcs).1 line (mem_lines_iff.2 ⟨n, hline⟩)
      cases hl.symm.trans hfound

/-- The commands of a text are orderly. -/
theorem Lists.orderly (h : b.Lists source) : b.Orderly where
  pos n c hc := by
    obtain ⟨line, hline, -⟩ := (h.mem_iff n c).1 hc
    exact hline.pos
  increasing := h.increasing
  writable n c hc := by
    obtain ⟨line, -, hl⟩ := (h.mem_iff n c).1 hc
    exact Command.writable_of_ofLine hl

/-! ## Writing a script -/

instance : Std.Irrefl fun p p' : Nat × Command => p.1 < p'.1 := ⟨fun p => Nat.lt_irrefl p.1⟩

instance : Std.Antisymm fun p p' : Nat × Command => p.1 < p'.1 := ⟨fun _ _ h h' => absurd h' (Nat.lt_asymm h)⟩

/-- The line of a command is read as the command. -/
theorem Writes.ofLine_of_mem (h : b.Writes source) (hb : b.Orderly) (hc : (n, c) ∈ b.commands)
    (hline : HasLine source n line) : Command.ofLine line = .ok (some c) := by
  rw [hline.unique (h.written n c hc)]
  exact Command.ofLine_text (hb.writable n c hc)

/-- Every line is read, and a command that it gives is the one that was written there. -/
theorem Writes.exists_ofLine (h : b.Writes source) (hb : b.Orderly) (hline : HasLine source n line) :
    ∃ found, Command.ofLine line = .ok found ∧ ∀ c, found = some c → (n, c) ∈ b.commands := by
  by_cases hin : n ∈ b.commands.map Prod.fst
  · obtain ⟨⟨n, c⟩, hc, rfl⟩ := List.mem_map.1 hin
    refine ⟨some c, h.ofLine_of_mem hb hc hline, ?_⟩
    rintro _ ⟨⟩
    exact hc
  · exact ⟨none, Command.ofLine_eq_none_iff.2 (h.elsewhere n line hline hin), nofun⟩

/-- **A script is read back** from each text that has its commands on their lines and nothing elsewhere. -/
theorem ofText_of_writes (hb : b.Orderly) (h : b.Writes source) : ofText source = .ok b := by
  have hall : ∀ line ∈ Text.lines source, ∃ found, Command.ofLine line = .ok found := by
    intro line hline
    obtain ⟨n, hn⟩ := mem_lines_iff.1 hline
    obtain ⟨found, hfound, -⟩ := h.exists_ofLine hb hn
    exact ⟨found, hfound⟩
  have hcommands : ((Text.lines source).zipIdx 1).filterMap numbered? = b.commands := by
    -- both are sorted by their lines
    refine (pairwise_numbered _ 1).eq_of_mem_iff hb.increasing ?_
    rintro ⟨n, c⟩
    rw [List.mem_filterMap]
    constructor
    · rintro ⟨⟨line, n⟩, hline, hp⟩
      obtain ⟨rfl, hl⟩ := numbered?_eq_some_iff.1 hp
      obtain ⟨found, hfound, hwritten⟩ := h.exists_ofLine hb hline
      exact hwritten c (Except.ok.inj (hfound.symm.trans hl))
    · intro hc
      have hline := h.written n c hc
      exact ⟨(c.text, n), hline, numbered?_eq_some_iff.2 ⟨rfl, h.ofLine_of_mem hb hc hline⟩⟩
  rw [ofText, commandsFrom_eq_ok_iff.2 ⟨hall, hcommands⟩]
  rfl

/-- Commands written on their lines, the first line being number `n`. -/
def linesFrom : Nat → List (Nat × Command) → List String
  | _, [] => []
  | n, (k, c) :: cs => List.replicate (k - n) "" ++ c.text :: linesFrom (k + 1) cs

/-- The text with each command on its line and empty lines elsewhere. -/
def text (b : Bench) : String := String.join ((linesFrom 1 b.commands).map (· ++ "\n"))

theorem of_mem_linesFrom (h : line ∈ linesFrom n cs) : line = "" ∨ ∃ k c, (k, c) ∈ cs ∧ line = c.text := by
  induction cs generalizing n with
  | nil => cases h
  | cons p cs ih =>
    obtain ⟨k, c⟩ := p
    rcases List.mem_append.1 h with h | h
    · exact .inl (List.eq_of_mem_replicate h)
    rcases List.mem_cons.1 h with h | h
    · exact .inr ⟨k, c, List.mem_cons_self, h⟩
    · exact (ih h).imp_right fun ⟨k', c', hmem, hline⟩ => ⟨k', c', List.mem_cons_of_mem _ hmem, hline⟩

/-- The lines of a written script are those it was written with. -/
theorem lines_text (hwritable : ∀ n c, (n, c) ∈ b.commands → c.Writable) :
    Text.lines b.text = linesFrom 1 b.commands := by
  refine Text.lines_join fun line hline => ?_
  rcases of_mem_linesFrom hline with rfl | ⟨n, c, hc, rfl⟩
  · simp
  · -- line breaks are white space other than the space
    have hchars : ∀ ch ∈ c.text.toList, ch ≠ '\n' ∧ ch ≠ '\r' := by
      intro ch hch
      rcases (hwritable n c hc).mem_text hch with rfl | hch
      · decide
      · constructor <;> rintro rfl <;> cases hch.1
    exact ⟨fun hfeed => (hchars _ hfeed).1 rfl, fun hreturn => (hchars _ (List.mem_of_getLast? hreturn)).2 rfl⟩

theorem zipIdx_linesFrom_cons (h : n ≤ k) (c : Command) (cs : List (Nat × Command)) :
    (linesFrom n ((k, c) :: cs)).zipIdx n =
      (List.replicate (k - n) "").zipIdx n ++ (c.text, k) :: (linesFrom (k + 1) cs).zipIdx (k + 1) := by
  rw [linesFrom, List.zipIdx_append, List.zipIdx_cons, List.length_replicate, Nat.add_sub_cancel' h]

/-- Each command stands on the line of its number. -/
theorem mem_zipIdx_linesFrom (hfrom : ∀ p ∈ cs, n ≤ p.1) (hincreasing : cs.Pairwise (·.1 < ·.1))
    (hc : (k, c) ∈ cs) : (c.text, k) ∈ (linesFrom n cs).zipIdx n := by
  induction cs generalizing n with
  | nil => cases hc
  | cons p cs ih =>
    obtain ⟨hfirst, hrest⟩ := List.pairwise_cons.1 hincreasing
    rw [zipIdx_linesFrom_cons (hfrom p List.mem_cons_self), List.mem_append, List.mem_cons]
    rcases List.mem_cons.1 hc with rfl | hc
    · exact .inr (.inl rfl)
    · exact .inr (.inr (ih hfirst hrest hc))

/-- The lines of all other numbers are empty. -/
theorem eq_empty_of_mem_zipIdx_linesFrom (hfrom : ∀ p ∈ cs, n ≤ p.1) (hincreasing : cs.Pairwise (·.1 < ·.1))
    (hline : (line, k) ∈ (linesFrom n cs).zipIdx n) (hk : k ∉ cs.map Prod.fst) : line = "" := by
  induction cs generalizing n with
  | nil => cases hline
  | cons p cs ih =>
    obtain ⟨hfirst, hrest⟩ := List.pairwise_cons.1 hincreasing
    rw [List.map_cons, List.mem_cons, not_or] at hk
    rw [zipIdx_linesFrom_cons (hfrom p List.mem_cons_self), List.mem_append, List.mem_cons] at hline
    rcases hline with hline | hline | hline
    · exact List.eq_of_mem_replicate (List.fst_mem_of_mem_zipIdx hline)
    · cases hline
      exact absurd rfl hk.1
    · exact ih hfirst hrest hline hk.2

/-- **Orderly commands are written on their lines.** -/
theorem Orderly.writes (hb : b.Orderly) : b.Writes b.text := by
  have hfrom : ∀ p ∈ b.commands, 1 ≤ p.1 := fun p hp => hb.pos p.1 p.2 hp
  have hlines := lines_text hb.writable
  constructor
  · intro n c hc
    rw [HasLine, hlines]
    exact mem_zipIdx_linesFrom hfrom hb.increasing hc
  · intro n line hline hn
    rw [HasLine, hlines] at hline
    rw [eq_empty_of_mem_zipIdx_linesFrom hfrom hb.increasing hline hn]
    exact List.forall_mem_nil _

end Bench

/-- **Scripts and commands are read back.** Whatever a text is, it is not read exactly if a line is no command, and
then the first such line is reported, with what is wrong with it. A text that is read gives one command of each line
that is not blank, in the order of the lines and with their numbers; written on lines of these numbers between blank
lines, the commands are read as the same script, and `Bench.text` writes them so. Each command whose names are
words without comment marks, and whose numbers fit a machine word, is read back from how it is written. -/
theorem scripts_read_back :
    (∀ source,
      ((∃ e, Bench.ofText source = .error e) ↔ ∃ n, Bench.BadLine source n) ∧
      (∀ e, Bench.ofText source = .error e →
        IsLeast {n | Bench.BadLine source n} e.line ∧
        ∃ line, Bench.HasLine source e.line line ∧ Command.ofLine line = .error e.fault) ∧
      ∀ b, Bench.ofText source = .ok b →
        b.Lists source ∧ b.Writes b.text ∧ ∀ source', b.Writes source' → Bench.ofText source' = .ok b) ∧
    ∀ c : Command, c.Writable → Command.ofLine c.text = .ok (some c) := by
  refine ⟨fun source => ⟨Bench.ofText_fails_iff, fun e he => Bench.isLeast_of_ofText he, fun b hb => ?_⟩,
    fun c hc => Command.ofLine_text hc⟩
  have hlists := Bench.lists_of_ofText hb
  exact ⟨hlists, hlists.orderly.writes, fun source' h => Bench.ofText_of_writes hlists.orderly h⟩

/-- A script whose second line is no command, a script with a comment, blank lines and numbers of other notations,
and the longest number. -/
theorem mixed_scripts_read_back :
    let cut : BenchError := ⟨2, .wrongArguments "poke" 1⟩
    let mixed := "step\n\n poke a 0x10 ; load\r\nrun\n# nothing\nassert q 0b101"
    let bench : Bench := ⟨[(1, .step), (3, .poke "a" 16), (4, .run 1), (6, .assert "q" 5)]⟩
    let most : Command := .poke "a" 18446744073709551615
    (Bench.ofText "step\npoke d\nfrob\n" = .error cut ∧ IsLeast {n | Bench.BadLine "step\npoke d\nfrob\n" n} 2) ∧
    (Bench.ofText mixed = .ok bench ∧ bench.Lists mixed ∧
      bench.text = "step\n\npoke a 16\nrun 1\n\nassert q 5\n" ∧ Bench.ofText bench.text = .ok bench) ∧
    most.Writable ∧ Command.ofLine "poke a 18446744073709551615" = .ok (some most) := by
  intro cut mixed bench most
  have hcut : Bench.ofText "step\npoke d\nfrob\n" = .error cut := by decide +kernel
  have hmixed : Bench.ofText mixed = .ok bench := by decide +kernel
  have hmost : most.Writable :=
    ⟨List.forall_mem_singleton.2 (by decide +kernel), List.forall_mem_singleton.2 (by decide)⟩
  obtain ⟨hlists, hwrites, hback⟩ := (scripts_read_back.1 mixed).2.2 bench hmixed
  exact ⟨⟨hcut, ((scripts_read_back.1 _).2.1 cut hcut).1⟩,
    ⟨hmixed, hlists, by decide +kernel, hback bench.text hwrites⟩, hmost, scripts_read_back.2 most hmost⟩

end NandHdl
