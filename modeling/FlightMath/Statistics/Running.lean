import FlightMath.Binary.Arithmetic
import FlightMath.Binary.Conversion
import FlightMath.Binary.SquareRoot

/-! # Running mean and variance

The mean and the sum of squared deviations are updated with each sample, in 32-bit arithmetic. They
are held twice: as the base of the next update, and as what is reported. Clearing resets the count
alone. The first sample after it replaces the base and the reported center but leaves the reported
spread as it was, and the second replaces that too; until then the count keeps what is stale from
being read.
-/

namespace FlightMath

/-- A mean and the sum of squared deviations from it. -/
structure Moments where
  center : Single
  spread : Single
deriving DecidableEq, Repr, Inhabited

/-- The accumulated samples. -/
structure Running where
  count : Nat
  /-- What the next sample is added to. -/
  base : Moments
  /-- What is reported. -/
  latest : Moments
deriving DecidableEq, Repr

/-- The moments with one more sample, the last of `count`. -/
def Moments.extend (moments : Moments) (count : Nat) (sample : Single) : Moments :=
  let center := moments.center + (sample - moments.center) / Single.ofCount count
  ⟨center, moments.spread + (sample - moments.center) * (sample - center)⟩

namespace Running

/-- No samples yet. -/
def empty : Running := ⟨0, ⟨0, 0⟩, ⟨0, 0⟩⟩

instance : Inhabited Running :=
  ⟨empty⟩

/-- Forgets all samples. -/
def clear (state : Running) : Running :=
  { state with count := 0 }

/-- Adds a sample. -/
def push (state : Running) (sample : Single) : Running :=
  if state.count = 0 then ⟨1, ⟨sample, 0⟩, ⟨sample, state.latest.spread⟩⟩
  else
    let moments := state.base.extend (state.count + 1) sample
    ⟨state.count + 1, moments, moments⟩

/-- The mean of the samples, or zero before the first. -/
def mean (state : Running) : Single :=
  if state.count = 0 then 0 else state.latest.center

/-- The sample variance, or zero with fewer than two samples. -/
def variance (state : Running) : Single :=
  if 1 < state.count then state.latest.spread / Single.ofCount (state.count - 1) else 0

/-- The root of the sample variance. -/
def standardDeviation (state : Running) : Single :=
  state.variance.sqrt

/-- All that can be asked of the samples. -/
structure Summary where
  count : Nat
  mean : Single
  variance : Single
  standardDeviation : Single
deriving DecidableEq, Repr

/-- The answers for a state. -/
def summary (state : Running) : Summary :=
  ⟨state.count, state.mean, state.variance, state.standardDeviation⟩

/-! ## Runs of commands -/

/-- What may be asked of a running state. -/
inductive Command where
  | push (sample : Single)
  | clear
  | query
deriving DecidableEq, Repr

/-- A query changes nothing. -/
def step (state : Running) : Command → Running
  | .push sample => state.push sample
  | .clear => state.clear
  | .query => state

/-- The state after all commands. -/
def after (state : Running) (commands : List Command) : Running :=
  commands.foldl step state

/-- The summary after each command. -/
def summaries : Running → List Command → List Summary
  | _, [] => []
  | state, command :: rest => (state.step command).summary :: summaries (state.step command) rest

@[simp] theorem count_clear (state : Running) : state.clear.count = 0 := rfl

@[simp] theorem count_push (state : Running) (sample : Single) :
    (state.push sample).count = state.count + 1 := by
  unfold push
  split
  · next zero => rw [zero]
  · rfl

/-- The first sample replaces all but the reported spread. -/
theorem push_of_count_eq_zero {state : Running} (zero : state.count = 0) (sample : Single) :
    state.push sample = ⟨1, ⟨sample, 0⟩, ⟨sample, state.latest.spread⟩⟩ :=
  if_pos zero

theorem push_of_count_ne_zero {state : Running} (nonzero : state.count ≠ 0) (sample : Single) :
    state.push sample = ⟨state.count + 1, state.base.extend (state.count + 1) sample,
      state.base.extend (state.count + 1) sample⟩ :=
  if_neg nonzero

@[simp] theorem after_append (state : Running) (commands later : List Command) :
    state.after (commands ++ later) = (state.after commands).after later :=
  List.foldl_append

@[simp] theorem length_summaries (state : Running) (commands : List Command) :
    (state.summaries commands).length = commands.length := by
  induction commands generalizing state with
  | nil => rfl
  | cons command rest ih => simp [summaries, ih]

end Running

end FlightMath
