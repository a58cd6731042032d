import NandHdl.Bench.Session
import NandHdl.Proofs.Effect

/-!
# What commands do to a session

A command that fails, and one that only looks, leave the simulation as it was. So a script that gets by without
a failure can lose its lines that only look.

* `Command.observes`: the commands that only look.
* `Session.Reaction`, `reaction_exec`: the ways in which a command can change a session.
* `Session.Alike`: sessions that differ in their failures at most; `exec_alike`: commands keep it.
* `Run.whole`: a script together with all lines there are at its prompt.
* `Run.Trimmed`, `trimmed_feedAll`: a run, and one of the script without some of the commands that only look.
* `failing_and_looking_change_nothing`: **the simulation is left alone by failures and by observers.**
-/

namespace NandHdl

namespace Command

/-- The command only looks: it prints or compares. -/
def observes : Command → Bool
  | peek _ | assert _ _ | showAll | ram _ => true
  | _ => false

/-- The line holds a command that only looks. -/
def observesLine (line : String) : Bool :=
  match ofLine line with
  | .ok (some c) => c.observes
  | _ => false

end Command

namespace Session

variable {s t : Session}

/-- The command asserts of a wire a value that the wire does not have. -/
def mismatches (s : Session) : Command → Bool
  | .assert name value =>
    match s.simulator.peek name with
    | .ok actual => actual != value
    | .error _ => false
  | _ => false

/-- The session after a command that only looks: a mismatch is counted. -/
def observed (s : Session) (c : Command) : Session :=
  { s with failures := s.failures + if s.mismatches c then 1 else 0 }

theorem observed_of_not_mismatches {c : Command} (h : s.mismatches c = false) : s.observed c = s := by
  unfold observed
  rw [h]
  rfl

/-- **A command and its reply.** The simulation changes only if the command succeeds and does not just look. -/
inductive Reaction (s : Session) : Command → Reply → Prop
  | failed {c : Command} (h : s.mismatches c = false) (e : SessionError) : Reaction s c (s, .error e)
  | observed {c : Command} (h : c.observes = true) : Reaction s c (s.observed c, .ok .next)
  | changed {c : Command} (h : c.observes = false) (simulator : Simulator) :
      Reaction s c ({ s with simulator := simulator }, .ok .next)
  | prompt : Reaction s .debug (s, .ok .prompt)
  | quit : Reaction s .quit (s, .ok .quit)

theorem Reaction.looked {c : Command} (h : c.observes = true) (hm : s.mismatches c = false) :
    s.Reaction c (s, .ok .next) := by
  have hseen : s.Reaction c (s.observed c, .ok .next) := .observed h
  rwa [observed_of_not_mismatches hm] at hseen

theorem reaction_check (s : Session) (name : String) (value : Nat) :
    s.Reaction (.assert name value) (s.check name value).value := by
  unfold check
  cases hpeek : s.simulator.peek name with
  | error e =>
    refine .failed ?_ (.simulation e)
    simp only [mismatches, hpeek]
  | ok actual =>
    by_cases heq : actual = value
    · have hm : s.mismatches (.assert name value) = false := by simp [mismatches, hpeek, heq]
      simp only [if_pos heq]
      exact .looked rfl hm
    · have hm : s.mismatches (.assert name value) = true := by simp [mismatches, hpeek, heq]
      have hseen : s.Reaction (.assert name value) (s.observed (.assert name value), .ok .next) := .observed rfl
      unfold observed at hseen
      rw [hm, if_pos rfl] at hseen
      simp only [if_neg heq]
      exact hseen

/-- **Every command has one of these replies.** -/
theorem reaction_exec (files : Files) (s : Session) (c : Command) : s.Reaction c (s.exec files c).value := by
  cases c with
  | top name =>
    simp only [exec, setTop]
    cases Simulator.ofLibrary s.library (some name) s.simulator.ram with
    | error e => exact .failed rfl _
    | ok x => exact .changed rfl _
  | poke name value =>
    simp only [exec, Logged.value_bind]
    cases s.simulator.setInput name value with
    | error e => exact .failed rfl _
    | ok sim => exact .changed rfl _
  | peek name =>
    simp only [exec]
    cases s.simulator.peek name with
    | error e => exact .failed rfl _
    | ok v => exact .looked rfl rfl
  | step => exact .changed rfl _
  | run cycles => exact .changed rfl _
  | reset => exact .changed rfl _
  | assert name value => exact s.reaction_check name value
  | showAll => exact .looked rfl rfl
  | rom file =>
    simp only [exec, Logged.value_bind]
    cases files file with
    | none => exact .failed rfl _
    | some image => exact .changed rfl _
  | ram addr => cases addr <;> exact .looked rfl rfl
  | debug => exact .prompt
  | quit => exact .quit

/-- A command that fails leaves the session as it was. -/
theorem exec_of_error {files : Files} {c : Command} {e : SessionError}
    (h : (s.exec files c).value.2 = .error e) : (s.exec files c).value.1 = s := by
  have hr := s.reaction_exec files c
  revert h hr
  generalize (s.exec files c).value = r
  intro h hr
  cases hr with
  | failed _ e => rfl
  | observed _ => cases h
  | changed _ _ => cases h
  | prompt => cases h
  | quit => cases h

/-- A command that only looks changes the failures at most. -/
theorem exec_of_observes {files : Files} {c : Command} (h : c.observes = true) :
    (s.exec files c).value.1 = s.observed c := by
  have hr := s.reaction_exec files c
  revert hr
  generalize (s.exec files c).value = r
  intro hr
  cases hr with
  | failed hm e => exact (observed_of_not_mismatches hm).symm
  | observed _ => rfl
  | changed hc _ => exact absurd (h.symm.trans hc) (by decide)
  | prompt => cases h
  | quit => cases h

/-- The sessions differ in their failures at most. -/
structure Alike (s t : Session) : Prop where
  library : t.library = s.library
  simulator : t.simulator = s.simulator

theorem Alike.refl (s : Session) : Alike s s := ⟨rfl, rfl⟩

theorem alike_observed (s : Session) (c : Command) : Alike s (s.observed c) := ⟨rfl, rfl⟩

theorem Alike.trans {u : Session} (hst : Alike s t) (htu : Alike t u) : Alike s u :=
  ⟨htu.library.trans hst.library, htu.simulator.trans hst.simulator⟩

theorem Alike.symm (h : Alike s t) : Alike t s := ⟨h.library.symm, h.simulator.symm⟩

/-- Nothing that a command does depends on the failures counted so far. -/
theorem exec_alike (h : Alike s t) (files : Files) (c : Command) :
    Alike (s.exec files c).value.1 (t.exec files c).value.1 ∧
      (t.exec files c).value.2 = (s.exec files c).value.2 := by
  obtain ⟨_, _, m⟩ := s
  obtain ⟨library, sim, n⟩ := t
  obtain ⟨rfl, rfl⟩ := h
  cases c with
  | top name =>
    simp only [exec, setTop]
    cases Simulator.ofLibrary library (some name) sim.ram <;> exact ⟨⟨rfl, rfl⟩, rfl⟩
  | poke name value =>
    simp only [exec, Logged.value_bind]
    cases sim.setInput name value <;> exact ⟨⟨rfl, rfl⟩, rfl⟩
  | peek name =>
    simp only [exec]
    cases sim.peek name <;> exact ⟨⟨rfl, rfl⟩, rfl⟩
  | assert name value =>
    simp only [exec, check]
    cases sim.peek name with
    | error e => exact ⟨⟨rfl, rfl⟩, rfl⟩
    | ok actual =>
      by_cases heq : actual = value
      · simp only [if_pos heq]
        exact ⟨⟨rfl, rfl⟩, rfl⟩
      · simp only [if_neg heq]
        exact ⟨⟨rfl, rfl⟩, rfl⟩
  | rom file =>
    simp only [exec, Logged.value_bind]
    cases files file <;> exact ⟨⟨rfl, rfl⟩, rfl⟩
  | ram addr => cases addr <;> exact ⟨⟨rfl, rfl⟩, rfl⟩
  | _ => exact ⟨⟨rfl, rfl⟩, rfl⟩

end Session

namespace Run

open Session

variable {files : Files} {s t : Session} {r r' : Run}

/-- A script together with all lines there are at its prompt. -/
def whole (files : Files) (s : Session) (bench : Bench) (typed : List String) : Logged Output Run := do
  feedAll files (← start files s bench) typed

/-- The second script is the first without some commands that only look. Their lines may have other numbers. -/
inductive Lighter : List (Nat × Command) → List (Nat × Command) → Prop
  | nil : Lighter [] []
  | kept {n m : Nat} (c : Command) {cs cs' : List (Nat × Command)} (h : Lighter cs cs') :
      Lighter ((n, c) :: cs) ((m, c) :: cs')
  | dropped {n : Nat} {c : Command} (hc : c.observes = true) {cs cs' : List (Nat × Command)}
      (h : Lighter cs cs') : Lighter ((n, c) :: cs) cs'

/-- A run, and one of a lighter script. They go the same way unless the script itself fails. -/
inductive Trimmed : Run → Run → Prop
  | failed {s : Session} (e : SessionError) (r' : Run) : Trimmed ⟨s, .inr (.failed e)⟩ r'
  | ended {s t : Session} (h : Alike s t) (e : Ending) : Trimmed ⟨s, .inr e⟩ ⟨t, .inr e⟩
  | waiting {s t : Session} (h : Alike s t) {cs cs' : List (Nat × Command)} (hcs : Lighter cs cs') :
      Trimmed ⟨s, .inl cs⟩ ⟨t, .inl cs'⟩

theorem trimmed_proceed {cs cs' : List (Nat × Command)} (hcs : Lighter cs cs') (h : Alike s t) :
    Trimmed (proceed files s cs).value (proceed files t cs').value := by
  induction hcs generalizing s t with
  | nil => exact .ended h .done
  | @kept n m c cs cs' hcs ih =>
    obtain ⟨halike, hflow⟩ := exec_alike h files c
    simp only [proceed, Logged.value_bind]
    rw [hflow]
    rcases (s.exec files c).value.2 with e | flow
    · exact .ended halike (.failed e)
    cases flow with
    | next => exact ih halike
    | prompt => exact .waiting halike hcs
    | quit => exact .ended halike .quit
  | @dropped n c hc cs cs' hcs ih =>
    -- the lighter script does nothing here, so it is enough that the other one only looks
    have hseen : Alike (s.exec files c).value.1 t := by
      rw [exec_of_observes hc]
      exact (alike_observed s c).symm.trans h
    have hr := s.reaction_exec files c
    simp only [proceed, Logged.value_bind]
    revert hseen hr
    generalize (s.exec files c).value = r
    intro hseen hr
    cases hr with
    | failed _ e => exact .failed e _
    | observed _ => exact ih hseen
    | changed hc' _ => exact absurd (hc.symm.trans hc') (by decide)
    | prompt => cases hc
    | quit => cases hc

theorem trimmed_answer {cs cs' : List (Nat × Command)} (hcs : Lighter cs cs') (h : Alike s t) (line : String) :
    Trimmed (answer files s cs line).value (answer files t cs' line).value := by
  unfold answer
  split
  · exact .waiting h hcs
  · exact .waiting h hcs
  · exact trimmed_proceed hcs h
  · next c _ _ =>
    obtain ⟨halike, hflow⟩ := exec_alike h files c
    simp only [Logged.value_bind]
    rw [hflow]
    rcases (s.exec files c).value.2 with e | flow
    · exact .waiting halike hcs
    cases flow with
    | next => exact .waiting halike hcs
    | prompt => exact .waiting halike hcs
    | quit => exact .ended halike .quit

/-- A run that is over takes no more lines. -/
theorem feedAll_ended (files : Files) (s : Session) (e : Ending) (lines : List String) :
    (feedAll files ⟨s, .inr e⟩ lines).value = ⟨s, .inr e⟩ := by
  induction lines with
  | nil => rfl
  | cons l ls ih => exact ih

/-- Once there are no more lines the run is over. -/
theorem feedAll_over (files : Files) (r : Run) (lines : List String) :
    ∃ e, (feedAll files r lines).value.state = .inr e := by
  induction lines generalizing r with
  | nil =>
    obtain ⟨s, rest | e⟩ := r
    · exact ⟨.quit, rfl⟩
    · exact ⟨e, rfl⟩
  | cons l ls ih => exact ih _

theorem trimmed_feedAll (h : Trimmed r r') (lines : List String) :
    Trimmed (feedAll files r lines).value (feedAll files r' lines).value := by
  induction lines generalizing r r' with
  | nil =>
    cases h with
    | failed e r' => exact .failed e _
    | ended h e => exact .ended h e
    | waiting h hcs => exact .ended h .quit
  | cons l ls ih =>
    cases h with
    | failed e r' =>
      rw [feedAll_ended]
      exact .failed e _
    | ended h e => exact ih (.ended h e)
    | waiting h hcs => exact ih (trimmed_answer hcs h l)

end Run

/-- Without the lines that only look, a script has the commands that do not. -/
theorem Bench.commandsFrom_filter {lines : List String} {n m : Nat} {cs : List (Nat × Command)}
    (h : commandsFrom n lines = .ok cs) :
    ∃ cs', commandsFrom m (lines.filter fun l => !Command.observesLine l) = .ok cs' ∧ Run.Lighter cs cs' := by
  induction lines generalizing n m cs with
  | nil =>
    cases h
    exact ⟨[], rfl, .nil⟩
  | cons l ls ih =>
    simp only [commandsFrom] at h
    cases hl : Command.ofLine l with
    | error fault =>
      rw [hl] at h
      cases h
    | ok found =>
      rw [hl] at h
      cases found with
      | none =>
        have hkept : Command.observesLine l = false := by simp only [Command.observesLine, hl]
        obtain ⟨cs', hcs', hlight⟩ := ih h (m := m + 1)
        refine ⟨cs', ?_, hlight⟩
        simp only [List.filter_cons, hkept, Bool.not_false, if_true, commandsFrom, hl, hcs']
      | some c =>
        cases hrest : commandsFrom (n + 1) ls with
        | error e =>
          rw [hrest] at h
          cases h
        | ok rest =>
          rw [hrest] at h
          cases h
          cases hc : c.observes with
          | true =>
            have hlost : Command.observesLine l = true := by simp only [Command.observesLine, hl, hc]
            obtain ⟨cs', hcs', hlight⟩ := ih hrest (m := m)
            refine ⟨cs', ?_, .dropped hc hlight⟩
            simpa only [List.filter_cons, hlost, Bool.not_true, if_neg Bool.false_ne_true] using hcs'
          | false =>
            have hkept : Command.observesLine l = false := by simp only [Command.observesLine, hl, hc]
            obtain ⟨cs', hcs', hlight⟩ := ih hrest (m := m + 1)
            refine ⟨(m, c) :: cs', ?_, .kept c hlight⟩
            simp only [List.filter_cons, hkept, Bool.not_false, if_true, commandsFrom, hl, hcs']
            rfl

/-- The script without its lines that only look. -/
theorem Bench.ofText_filter {source source' : String} {bench : Bench} (h : ofText source = .ok bench)
    (hlines : Text.lines source' = (Text.lines source).filter fun l => !Command.observesLine l) :
    ∃ bench', ofText source' = .ok bench' ∧ Run.Lighter bench.commands bench'.commands := by
  unfold ofText at h
  cases hcs : commandsFrom 1 (Text.lines source) with
  | error e =>
    rw [hcs] at h
    cases h
  | ok cs =>
    rw [hcs] at h
    cases h
    obtain ⟨cs', hcs', hlight⟩ := commandsFrom_filter hcs (m := 1)
    refine ⟨⟨cs'⟩, ?_, hlight⟩
    unfold ofText
    rw [hlines, hcs']
    rfl

/-- An operation that is refused, or cannot join the memory, leaves the simulation as it was. -/
theorem Simulator.perform_of_refused {s : Simulator} {op : Operation}
    (h : (∃ e, (s.perform op).value.2 = .refused e) ∨ (s.perform op).value.2 = .joined false) :
    (s.perform op).value.1 = s := by
  cases op with
  | setInput name value =>
    simp only [perform] at h ⊢
    cases hset : s.setInput name value with
    | error e => rfl
    | ok sim =>
      rw [hset] at h
      rcases h with ⟨e, h⟩ | h <;> cases h
  | attach names =>
    simp only [perform] at h ⊢
    cases hjoin : s.attach names with
    | error e => rfl
    | ok x =>
      rw [hjoin] at h
      rcases h with ⟨e, h⟩ | h <;> cases h
  | attachDefault =>
    simp only [perform, attachDefault] at h ⊢
    cases hjoin : s.attach {} with
    | error e => rfl
    | ok x =>
      rw [hjoin] at h
      rcases h with ⟨e, h⟩ | h <;> cases h
  | output name => rfl
  | wire name => rfl
  | readRam addr => rfl
  | memory => rfl
  | names => rfl
  | table => rfl
  | _ => rcases h with ⟨e, h⟩ | h <;> cases h

open Session in
/-- **The simulation is left alone by failures and by observers.** A command that fails leaves the whole session
as it was. One that only looks leaves the simulation as it was, and counts a failure just if it is an assertion
that does not hold. An operation that is refused, and an attempt to join the memory that fails, leave the
simulation as it was. And a script that ends without an error ends in the same way, with the same simulation,
without its lines that only look, whatever is typed at its prompt. -/
theorem failing_and_looking_change_nothing (files : Files) :
    (∀ (s : Session) (c : Command) (e : SessionError),
      (s.exec files c).value.2 = .error e → (s.exec files c).value.1 = s) ∧
    (∀ (s : Session) (c : Command), c.observes = true → (s.exec files c).value.1 =
      { s with failures := s.failures + if s.mismatches c then 1 else 0 }) ∧
    (∀ (sim : Simulator) (op : Operation),
      (∃ e, (sim.perform op).value.2 = .refused e) ∨ (sim.perform op).value.2 = .joined false →
        (sim.perform op).value.1 = sim) ∧
    ∀ (s : Session) (source source' : String) (bench : Bench) (typed : List String),
      Bench.ofText source = .ok bench →
      (Text.lines source' = (Text.lines source).filter fun l => !Command.observesLine l) →
      (∀ e, (Run.whole files s bench typed).value.state ≠ .inr (.failed e)) →
      ∃ bench', Bench.ofText source' = .ok bench' ∧
        (Run.whole files s bench' typed).value.session.simulator =
          (Run.whole files s bench typed).value.session.simulator ∧
        (Run.whole files s bench' typed).value.state = (Run.whole files s bench typed).value.state := by
  refine ⟨fun s c e h => exec_of_error h, fun s c h => exec_of_observes h,
    fun sim op h => Simulator.perform_of_refused h, ?_⟩
  intro s source source' bench typed hbench hlines hend
  obtain ⟨bench', hbench', hlight⟩ := Bench.ofText_filter hbench hlines
  refine ⟨bench', hbench', ?_⟩
  have htrim : Run.Trimmed (Run.whole files s bench typed).value (Run.whole files s bench' typed).value :=
    Run.trimmed_feedAll (Run.trimmed_proceed hlight (.refl s)) typed
  obtain ⟨ending, hover⟩ : ∃ e, (Run.whole files s bench typed).value.state = .inr e :=
    Run.feedAll_over files _ typed
  revert htrim hend hover
  generalize (Run.whole files s bench typed).value = r
  generalize (Run.whole files s bench' typed).value = r'
  intro hend htrim hover
  cases htrim with
  | failed e r' => exact absurd rfl (hend e)
  | ended h e => exact ⟨h.simulator, rfl⟩
  | waiting h hcs => cases hover

/-- A gate with one input. -/
def invertingGate : Netlist where
  name := "inverting"
  inputs := [⟨"a", 1⟩]
  outputs := [(⟨"out", 1⟩, ⟨#[.node 0]⟩)]
  nodes := #[⟨0, .nand (.input 0) (.const true)⟩]
  signals := .empty

/-- A simulation of `invertingGate`, with a memory of two bytes. -/
def invertingSession : Session where
  library := ⟨[invertingGate]⟩
  simulator := (Simulator.ofNetlist invertingGate (.zeros 2)).value
  failures := 0

/-- A pin that does not exist, an assertion that does not hold, a memory that cannot be joined, and a script with
a prompt that loses its three lines that only look. -/
theorem inverting_left_alone :
    let s := invertingSession
    let files : Files := fun _ => none
    let source := "poke a 1\npeek out\nassert out 1\nstep\ndebug\nassert out 1\nstep"
    let source' := "poke a 1\nstep\ndebug\nstep\n"
    let typed := ["poke a 0", "poke b 1", "debug"]
    ((s.exec files (.poke "b" 1)).value.2 = .error (.simulation (.noSuchInput "b")) ∧
      (s.exec files (.poke "b" 1)).value.1 = s) ∧
    (Command.observes (.assert "out" 1) = true ∧
      (s.exec files (.assert "out" 1)).value.1 = { s with failures := 1 }) ∧
    ((s.simulator.perform .attachDefault).value.2 = .joined false ∧
      (s.simulator.perform .attachDefault).value.1 = s.simulator) ∧
    ∃ bench bench', Bench.ofText source = .ok bench ∧ Bench.ofText source' = .ok bench' ∧
      (Text.lines source' = (Text.lines source).filter fun l => !Command.observesLine l) ∧
      (Run.whole files s bench typed).value.state = .inr .done ∧
      (Run.whole files s bench' typed).value.session.simulator =
        (Run.whole files s bench typed).value.session.simulator := by
  intro s files source source' typed
  obtain ⟨hfailed, hlooked, hrefused, htrimmed⟩ := failing_and_looking_change_nothing files
  have hpoke : (s.exec files (.poke "b" 1)).value.2 = .error (.simulation (.noSuchInput "b")) := by
    decide +kernel
  have hassert : (s.exec files (.assert "out" 1)).value.1 = { s with failures := 1 } := by
    rw [hlooked s (.assert "out" 1) rfl]
    have hm : s.mismatches (.assert "out" 1) = true := by decide +kernel
    rw [hm]
    rfl
  have hjoin : (s.simulator.perform .attachDefault).value.2 = .joined false := by decide +kernel
  refine ⟨⟨hpoke, hfailed s _ _ hpoke⟩, ⟨rfl, hassert⟩, ⟨hjoin, hrefused _ _ (.inr hjoin)⟩, ?_⟩
  let bench : Bench := ⟨[(1, .poke "a" 1), (2, .peek "out"), (3, .assert "out" 1), (4, .step), (5, .debug),
    (6, .assert "out" 1), (7, .step)]⟩
  have hbench : Bench.ofText source = .ok bench := by decide +kernel
  have hlines : Text.lines source' = (Text.lines source).filter fun l => !Command.observesLine l := by
    decide +kernel
  have hstate : (Run.whole files s bench typed).value.state = .inr .done := by decide +kernel
  have hend : ∀ e, (Run.whole files s bench typed).value.state ≠ .inr (.failed e) := by
    intro e he
    cases hstate.symm.trans he
  obtain ⟨bench', hbench', hsim, -⟩ := htrimmed s source source' bench typed hbench hlines hend
  exact ⟨bench, bench', hbench, hbench', hlines, hstate, hsim⟩

end NandHdl
