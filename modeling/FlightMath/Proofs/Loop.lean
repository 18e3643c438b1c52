/-! # Loops

A loop changes a value by a step as long as a guard holds. `Loop guard step rounds start final` says
that from `start` it ends at `final` after that many rounds, so it states termination and cost along
with the result. A loop that follows another round by round ends after as many rounds.
-/

namespace FlightMath

/-- The loop with this guard and this step ends at a value after so many rounds. -/
inductive Loop {α : Type} (guard : α → Prop) (step : α → α) : Nat → α → α → Prop
  | stop {value : α} (fails : ¬ guard value) : Loop guard step 0 value value
  | round {rounds : Nat} {value final : α} (holds : guard value)
      (rest : Loop guard step rounds (step value) final) :
      Loop guard step (rounds + 1) value final

namespace Loop

variable {α β : Type} {guard : α → Prop} {step : α → α} {guard' : β → Prop} {step' : β → β}
variable {rounds : Nat} {start final : α}

/-- A loop on related values whose guards agree and whose steps keep the relation runs along. -/
theorem simulate (related : α → β → Prop)
    (agree : ∀ {a b}, related a b → (guard a ↔ guard' b))
    (keep : ∀ {a b}, related a b → guard a → related (step a) (step' b))
    (loop : Loop guard step rounds start final) {start' : β} (along : related start start') :
    ∃ final', Loop guard' step' rounds start' final' ∧ related final final' := by
  induction loop generalizing start' with
  | stop fails => exact ⟨start', .stop fun holds => fails ((agree along).mpr holds), along⟩
  | round holds _ ih =>
    obtain ⟨last, rest, near⟩ := ih (keep along holds)
    exact ⟨last, .round ((agree along).mp holds) rest, near⟩

end Loop

end FlightMath
