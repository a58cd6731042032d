import NandHdl.Proofs.Reactions

/-!
# Scripts and prompts as one flat script

A script and the lines typed at its prompts are read by two readers that treat errors differently. Together they
do what one flat script does, in which every `debug` gives way to the lines that are typed there.

* `Command.closes`: the lines that a prompt ends with.
* `Flat.Entry`: a line of a flat script: a command of the script, a typed line, or that there are no more.
* `Flat.flatten`: the flat script of a script and the lines typed at its prompts.
* `Flat.perform`: a flat script from its first line to its last.
* `run_is_flat`: **a run with prompts is the run of its flat script.**
-/

namespace NandHdl

/-- The line ends a prompt: it goes back to the script, or stops the run. -/
def Command.closes (line : String) : Bool :=
  match ofLine line with
  | .ok (some .debug) | .ok (some .quit) => true
  | _ => false

namespace Flat

/-- A line of a flat script. -/
inductive Entry
  /-- A command of the script itself, which must succeed. -/
  | script (c : Command)
  /-- A line typed at a prompt, which may be none or fail. -/
  | typed (line : String)
  /-- The end of all typed lines. -/
  | noMore
deriving DecidableEq, Repr

/-- The lines that a prompt takes, the last of which closes it, and those behind. Without a closing line it takes
all there are. -/
def atPrompt : List String → List Entry × List String
  | [] => ([.noMore], [])
  | line :: lines =>
    if Command.closes line then ([.typed line], lines)
    else (.typed line :: (atPrompt lines).1, (atPrompt lines).2)

/-- Commands with the typed lines in the places of their prompts. -/
def flatten : List Command → List String → List Entry
  | [], _ => []
  | .debug :: cs, lines => (atPrompt lines).1 ++ flatten cs (atPrompt lines).2
  | c :: cs, lines => .script c :: flatten cs lines

/-- Performs a flat script. A command of the script that fails ends it. A typed line is passed over if it is
blank, no command, or fails. -/
def perform (files : Files) : Session → List Entry → Session × Ending
  | s, [] => (s, .done)
  | s, .script c :: es =>
    match (s.exec files c).value with
    | (_, .error e) => (s, .failed e)
    | (s, .ok .quit) => (s, .quit)
    | (s, .ok _) => perform files s es
  | s, .typed line :: es =>
    match Command.ofLine line with
    | .ok (some c) =>
      match (s.exec files c).value with
      | (_, .error _) => perform files s es
      | (s, .ok .quit) => (s, .quit)
      | (s, .ok _) => perform files s es
    | _ => perform files s es
  | s, .noMore :: _ => (s, .quit)

variable {files : Files} {s : Session} {line : String}

/-- The run of a flat script, as a run that is over. -/
def finish (files : Files) (s : Session) (es : List Entry) : Run :=
  ⟨(perform files s es).1, .inr (perform files s es).2⟩

theorem flatten_of_ne_debug {c : Command} (h : c ≠ .debug) (cs : List Command) (lines : List String) :
    flatten (c :: cs) lines = .script c :: flatten cs lines := by
  cases c with
  | debug => exact absurd rfl h
  | _ => rfl

theorem closes_eq_true_iff : Command.closes line = true ↔
    Command.ofLine line = .ok (some .debug) ∨ Command.ofLine line = .ok (some .quit) := by
  unfold Command.closes
  split
  · next h => exact ⟨fun _ => .inl h, fun _ => rfl⟩
  · next h => exact ⟨fun _ => .inr h, fun _ => rfl⟩
  · next hdebug hquit => exact ⟨nofun, fun h => absurd h (by rintro (h | h); exacts [hdebug h, hquit h])⟩

end Flat

namespace Run

open Flat

variable {files : Files}

/-- A command of the script, and the rest of the script behind it. -/
theorem feedAll_proceed_cons {s : Session} {n : Nat} {c : Command} {cs : List (Nat × Command)}
    {lines : List String} (hc : c ≠ .debug)
    (ih : ∀ s, (feedAll files (proceed files s cs).value lines).value =
      finish files s (flatten (cs.map Prod.snd) lines)) :
    (feedAll files (proceed files s ((n, c) :: cs)).value lines).value =
      finish files s (.script c :: flatten (cs.map Prod.snd) lines) := by
  have hr := s.reaction_exec files c
  simp only [proceed, Logged.value_bind, finish, Flat.perform]
  revert hr
  generalize (s.exec files c).value = r
  intro hr
  cases hr with
  | failed _ e => exact feedAll_ended files s (.failed e) lines
  | observed _ => exact ih _
  | changed _ simulator => exact ih _
  | prompt => exact absurd rfl hc
  | quit => exact feedAll_ended files s .quit lines

/-- A script, if its prompts are known to take their lines as a flat script does. -/
theorem feedAll_proceed {lines : List String}
    (hprompt : ∀ s rest, (feedAll files ⟨s, .inl rest⟩ lines).value =
      finish files s ((atPrompt lines).1 ++ flatten (rest.map Prod.snd) (atPrompt lines).2))
    (s : Session) (cs : List (Nat × Command)) :
    (feedAll files (proceed files s cs).value lines).value = finish files s (flatten (cs.map Prod.snd) lines) := by
  induction cs generalizing s with
  | nil => exact feedAll_ended files s .done lines
  | cons head rest ih =>
    obtain ⟨n, c⟩ := head
    by_cases hc : c = .debug
    · subst hc
      exact hprompt s rest
    · rw [List.map_cons, flatten_of_ne_debug hc]
      exact feedAll_proceed_cons hc ih

/-- A command typed at a prompt. Unless it stops the run, the prompt stays open. -/
theorem value_answer {s : Session} {rest : List (Nat × Command)} {line : String} {c : Command}
    (hl : Command.ofLine line = .ok (some c)) (hc : c ≠ .debug) :
    (answer files s rest line).value =
      match (s.exec files c).value with
      | (s, .ok .quit) => ⟨s, .inr .quit⟩
      | (s, _) => ⟨s, .inl rest⟩ := by
  have hr := s.reaction_exec files c
  unfold answer
  rw [hl]
  revert hr
  cases c with
  | debug => exact absurd rfl hc
  | _ =>
    simp only [Logged.value_bind]
    generalize (s.exec files _).value = r
    intro hr
    cases hr <;> rfl

/-- A line that does not close the prompt leaves it open, in the session that the flat script has then. -/
theorem feedAll_answer_open {s : Session} {rest : List (Nat × Command)} {line : String} {lines : List String}
    {es : List Entry} (hclose : Command.closes line = false)
    (ih : ∀ s, (feedAll files ⟨s, .inl rest⟩ lines).value = finish files s es) :
    (feedAll files (answer files s rest line).value lines).value = finish files s (.typed line :: es) := by
  cases hl : Command.ofLine line with
  | error fault =>
    simp only [answer, finish, Flat.perform, hl]
    exact ih s
  | ok found =>
    cases found with
    | none =>
      simp only [answer, finish, Flat.perform, hl]
      exact ih s
    | some c =>
      have hdebug : c ≠ .debug := by
        rintro rfl
        cases hclose.symm.trans (closes_eq_true_iff.2 (.inl hl))
      have hquit : c ≠ .quit := by
        rintro rfl
        cases hclose.symm.trans (closes_eq_true_iff.2 (.inr hl))
      have hr := s.reaction_exec files c
      rw [value_answer hl hdebug]
      simp only [finish, Flat.perform, hl]
      revert hr
      generalize (s.exec files c).value = r
      intro hr
      cases hr with
      | failed _ e => exact ih s
      | observed _ => exact ih _
      | changed _ simulator => exact ih _
      | prompt => exact absurd rfl hdebug
      | quit => exact absurd rfl hquit

/-- **A prompt takes its lines as the flat script does**, and the script goes on behind it. -/
theorem feedAll_waiting (files : Files) (lines : List String) (s : Session) (rest : List (Nat × Command)) :
    (feedAll files ⟨s, .inl rest⟩ lines).value =
      finish files s ((atPrompt lines).1 ++ flatten (rest.map Prod.snd) (atPrompt lines).2) := by
  induction lines generalizing s rest with
  | nil => rfl
  | cons line lines ih =>
    have hfeed : (feedAll files ⟨s, .inl rest⟩ (line :: lines)).value =
      (feedAll files (answer files s rest line).value lines).value := rfl
    rw [hfeed]
    unfold atPrompt
    cases hclose : Command.closes line with
    | false => exact feedAll_answer_open hclose fun s => ih s rest
    | true =>
      rcases closes_eq_true_iff.1 hclose with hl | hl
      · -- back to the script, whose later prompts take the lines behind this one
        have hresumed : answer files s rest line = proceed files s rest := by simp only [answer, hl]
        have hpassed : finish files s (.typed line :: flatten (rest.map Prod.snd) lines) =
            finish files s (flatten (rest.map Prod.snd) lines) := by
          simp only [finish, Flat.perform, hl]
          rfl
        rw [hresumed, feedAll_proceed ih s rest]
        exact hpassed.symm
      · rw [value_answer hl (by decide)]
        simp only [if_true, finish, List.cons_append, List.nil_append, Flat.perform, hl]
        exact feedAll_ended files s .quit lines

end Run

/-- **A run with prompts is the run of its flat script.** Whatever the circuit, the script and the lines typed,
the run ends in the session and with the ending that the flat script has: every `debug` gives way to the lines
typed up to the next that closes a prompt. -/
theorem run_is_flat (files : Files) (s : Session) (bench : Bench) (typed : List String) :
    let flat := Flat.perform files s (Flat.flatten (bench.commands.map Prod.snd) typed)
    (Run.whole files s bench typed).value = ⟨flat.1, .inr flat.2⟩ := by
  intro flat
  exact Run.feedAll_proceed (Run.feedAll_waiting files typed) s bench.commands

example : Flat.flatten [.step, .debug, .reset, .debug] ["poke a 1", "debug", "peek a"] =
    [.script .step, .typed "poke a 1", .typed "debug", .script .reset, .typed "peek a", .noMore] := by decide

end NandHdl
