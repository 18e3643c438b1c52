import FlightMath.Statistics.Running
import Mathlib.Data.List.ReduceOption

/-! # Clearing forgets and asking leaves no trace

A cleared state still holds accumulators from before, among them perhaps NaN, and it keeps one of
them through the first sample. How much of a state can be seen depends on its count: nothing at
zero, all but the reported spread at one, and everything from two on. States that agree that far
give the same answers, and every command keeps them in agreement.
-/

namespace FlightMath.Running

/-! ## Agreement -/

/-- Two states agree on all that may be read at their count. -/
structure Agree (a b : Running) : Prop where
  count : a.count = b.count
  base : a.count ≠ 0 → a.base = b.base
  center : a.count ≠ 0 → a.latest.center = b.latest.center
  spread : 1 < a.count → a.latest.spread = b.latest.spread

variable {a b : Running}

/-- States without samples agree. -/
theorem agree_of_count_eq_zero (zero : a.count = 0) (zero' : b.count = 0) : a.Agree b where
  count := zero.trans zero'.symm
  base nonzero := absurd zero nonzero
  center nonzero := absurd zero nonzero
  spread several := absurd (zero ▸ several) (Nat.not_lt_zero 1)

theorem Agree.summary (agree : a.Agree b) : a.summary = b.summary := by
  have mean : a.mean = b.mean := by
    unfold Running.mean
    rw [← agree.count]
    split
    · rfl
    · next nonzero => exact agree.center nonzero
  have variance : a.variance = b.variance := by
    unfold Running.variance
    rw [← agree.count]
    split
    · next several => rw [agree.spread several]
    · rfl
  rw [Running.summary, Running.summary, standardDeviation, standardDeviation, agree.count, mean,
    variance]

/-- A first sample makes the bases and the centers equal, and a later one everything. -/
theorem Agree.push (agree : a.Agree b) (sample : Single) :
    (a.push sample).Agree (b.push sample) := by
  by_cases zero : a.count = 0
  · rw [push_of_count_eq_zero zero, push_of_count_eq_zero (agree.count ▸ zero)]
    exact ⟨rfl, fun _ => rfl, fun _ => rfl, fun several => absurd several (Nat.lt_irrefl 1)⟩
  · have same : a.push sample = b.push sample := by
      rw [push_of_count_ne_zero zero, push_of_count_ne_zero (agree.count ▸ zero), agree.count,
        agree.base zero]
    rw [same]
    exact ⟨rfl, fun _ => rfl, fun _ => rfl, fun _ => rfl⟩

theorem Agree.step (agree : a.Agree b) (command : Command) :
    (a.step command).Agree (b.step command) := by
  cases command with
  | push sample => exact agree.push sample
  | clear => exact agree_of_count_eq_zero rfl rfl
  | query => exact agree

/-- States that agree answer alike after every command. -/
theorem Agree.summaries (agree : a.Agree b) (commands : List Command) :
    a.summaries commands = b.summaries commands := by
  induction commands generalizing a b with
  | nil => rfl
  | cons command rest ih =>
    have next := agree.step command
    rw [Running.summaries, Running.summaries, next.summary, ih next]

/-! ## Queries put in -/

/-- The commands of a script in which `none` stands for a query put in. -/
def withQueries (script : List (Option Command)) : List Command :=
  script.map fun command => command.getD .query

/-- Of the answers to such a script, those that follow its own commands. -/
def ownAnswers (script : List (Option Command)) (answers : List Summary) : List Summary :=
  (script.zip answers).filterMap fun (command, answer) => command.map fun _ => answer

/-- The answers to a script's own commands are those to the commands alone. -/
theorem ownAnswers_summaries (state : Running) (script : List (Option Command)) :
    ownAnswers script (state.summaries (withQueries script)) =
      state.summaries script.reduceOption := by
  induction script generalizing state with
  | nil => rfl
  | cons entry rest ih =>
    cases entry with
    | none => exact ih state
    | some command => exact congrArg ((state.step command).summary :: ·) (ih (state.step command))

/-- After any history, a cleared state answers every run as a new one does, and queries put into a
run change none of its answers. -/
theorem summaries_clear_eq_summaries_empty (history : List Command) :
    (∀ commands, (empty.after history).clear.summaries commands = empty.summaries commands) ∧
      ∀ script, ownAnswers script ((empty.after history).summaries (withQueries script)) =
        (empty.after history).summaries script.reduceOption :=
  ⟨(agree_of_count_eq_zero rfl rfl).summaries, ownAnswers_summaries _⟩

/-- The states themselves may differ for one more sample. -/
example : (empty.after [.push .nan, .push .nan, .clear, .push 1]).latest.spread = .nan ∧
    (empty.after [.push 1]).latest.spread = 0 := by
  decide +kernel

end FlightMath.Running
