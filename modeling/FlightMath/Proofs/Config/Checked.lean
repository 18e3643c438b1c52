import FlightMath.Config.Mode
import FlightMath.Config.Settings
import Mathlib.Data.Int.Cast.Basic

/-! # No invalid configuration

Parameters pass their check exactly if they are those of some settings, and then they hold a mode
and one of four integers. What is read from a value has passed the check, so settings can be made of
it, a window of their size has a median, and showing the parameters and reading them again changes
nothing. Values of any kind may stand in parameters that were not read.
-/

namespace FlightMath

/-! ## Results that may fail -/

section

variable {ε ε' α β : Type}

theorem exists_of_bind_eq_ok {x : Except ε α} {f : α → Except ε β} {b : β} (ran : x >>= f = .ok b) :
    ∃ a, x = .ok a ∧ f a = .ok b := by
  cases x with
  | error cause => cases ran
  | ok a => exact ⟨a, rfl, ran⟩

theorem mapError_eq_ok_iff {x : Except ε α} {f : ε → ε'} {a : α} :
    x.mapError f = .ok a ↔ x = .ok a := by
  cases x <;> simp [Except.mapError]

end

/-- The sizes of the networks. -/
theorem WindowSize.exists_eq_toNat_iff (count : ℤ) :
    (∃ size : WindowSize, count = size.toNat) ↔ count ∈ ([3, 5, 7, 9] : List ℤ) := by
  constructor
  · rintro ⟨size, rfl⟩
    cases size <;> decide
  · intro supported
    rcases (by simpa using supported : count = 3 ∨ count = 5 ∨ count = 7 ∨ count = 9) with
      rfl | rfl | rfl | rfl
    · exact ⟨.three, rfl⟩
    · exact ⟨.five, rfl⟩
    · exact ⟨.seven, rfl⟩
    · exact ⟨.nine, rfl⟩

namespace Params

variable {params : Params} {settings : Settings}

/-- Only the parameters of settings pass the check as these. -/
theorem check_eq_ok_iff : params.check = .ok settings ↔ params = settings.toParams := by
  constructor
  · intro checked
    obtain ⟨mode, window⟩ := params
    cases mode with
    | mode mode =>
      cases window with
      | int count =>
        cases found : WindowSize.ofInt? count with
        | some size =>
          simp only [check, found] at checked
          obtain rfl := Except.ok.inj checked
          rw [(WindowSize.ofInt?_eq_some_iff count size).mp found]
          rfl
        | none => simp [check, found] at checked
      | _ => cases checked
    | _ => cases checked
  · rintro rfl
    exact check_toParams settings

theorem validate_eq_ok_iff :
    params.validate = .ok () ↔ ∃ settings : Settings, params = settings.toParams := by
  constructor
  · intro valid
    cases checked : params.check with
    | ok settings => exact ⟨settings, check_eq_ok_iff.mp checked⟩
    | error cause =>
      rw [validate, checked] at valid
      cases valid
  · rintro ⟨settings, rfl⟩
    rw [validate, check_toParams]
    rfl

/-- Parameters that hold a mode and an integer for which there is a network. -/
def Valid (params : Params) : Prop :=
  (∃ mode, params.mode = .mode mode) ∧ ∃ count ∈ [3, 5, 7, 9], params.window = .int count

theorem valid_iff : params.Valid ↔ ∃ settings : Settings, params = settings.toParams := by
  constructor
  · rintro ⟨⟨mode, modeEq⟩, count, supported, windowEq⟩
    obtain ⟨size, rfl⟩ := (WindowSize.exists_eq_toNat_iff count).mpr supported
    exact ⟨⟨mode, size⟩, by rw [Settings.toParams, ← modeEq, ← windowEq]⟩
  · rintro ⟨settings, rfl⟩
    exact ⟨⟨settings.mode, rfl⟩, settings.window.toNat,
      (WindowSize.exists_eq_toNat_iff _).mp ⟨settings.window, rfl⟩, rfl⟩

/-! ## Reading -/

/-- Reading succeeds if each of its steps does, and gives what the two namespaces hold. -/
theorem ofValue_eq_ok_iff {data : Value} : ofValue data = .ok params ↔
    ∃ trig median mode window, checkNamespaces data = .ok () ∧
      readNamespace data "trig" = .ok trig ∧ readTrig trig = .ok mode ∧
      readNamespace data "median" = .ok median ∧ readMedian median = .ok window ∧
      params = ⟨.mode mode, window⟩ ∧ params.validate = .ok () := by
  constructor
  · intro read
    obtain ⟨⟨⟩, names, read⟩ := exists_of_bind_eq_ok read
    obtain ⟨trig, trigFound, read⟩ := exists_of_bind_eq_ok read
    obtain ⟨mode, modeRead, read⟩ := exists_of_bind_eq_ok read
    obtain ⟨median, medianFound, read⟩ := exists_of_bind_eq_ok read
    obtain ⟨window, windowRead, read⟩ := exists_of_bind_eq_ok read
    obtain ⟨⟨⟩, valid, read⟩ := exists_of_bind_eq_ok read
    obtain rfl := Except.ok.inj read
    exact ⟨trig, median, mode, window, names, trigFound, modeRead, medianFound, windowRead, rfl,
      mapError_eq_ok_iff.mp valid⟩
  · rintro ⟨trig, median, mode, window, names, trigFound, modeRead, medianFound, windowRead, rfl,
      valid⟩
    rw [ofValue, names, trigFound, medianFound]
    simp only [bind, Except.bind, modeRead, windowRead, valid]
    rfl

private theorem readMode_word (mode : ApproxMode) : readMode (.text mode.word) = .ok mode := by
  have lower : mode.word.toLower = mode.word := by cases mode <;> decide +kernel
  rw [readMode, lower, (ApproxMode.ofWord?_eq_some_iff _ _).mpr rfl]

/-- Settings are read back from the nested value that shows them. -/
theorem ofValue_toValue (settings : Settings) :
    ofValue settings.toParams.toValue = .ok settings.toParams := by
  refine ofValue_eq_ok_iff.mpr ⟨.table [("approx_mode", .text settings.mode.word)],
    .table [("window", .int settings.window.toNat)], settings.mode, .int settings.window.toNat,
    rfl, rfl, ?_, rfl, rfl, rfl, validate_eq_ok_iff.mpr ⟨settings, rfl⟩⟩
  show (readMode (.text settings.mode.word)).mapError _ = _
  rw [readMode_word]
  rfl

end Params

/-! ## Settings made of parameters -/

namespace Settings

variable {params : Params} {settings : Settings}

private theorem ofParams_eq_ok_iff : ofParams params = .ok settings ↔ params = settings.toParams :=
  mapError_eq_ok_iff.trans Params.check_eq_ok_iff

/-- Settings and the check fail together, with one text. -/
theorem exists_failure (invalid : ¬ params.Valid) : ∃ failure cause,
    ofParams params = .error failure ∧ params.validate = .error cause ∧
      failure.message = cause.message := by
  cases checked : params.check with
  | ok settings =>
    exact absurd (Params.valid_iff.mpr ⟨settings, Params.check_eq_ok_iff.mp checked⟩) invalid
  | error cause =>
    refine ⟨⟨cause⟩, cause, ?_, ?_, rfl⟩
    · rw [ofParams, checked]
      rfl
    · rw [Params.validate, checked]
      rfl

/-- Settings that do as the parameters say. The mode they select is in use, and gives the sine and
the cosine. The integer that stands for the window names a network, and the median comes from it:
windows of that length have the median that they have without settings, and no others have one. -/
structure Realizes (settings : Settings) (params : Params) : Prop where
  mode : params.mode = .mode settings.mode
  selectMode : selectMode params.mode = .ok settings.mode
  sine : ∀ mode, FlightMath.selectMode params.mode = .ok mode →
    ∀ angle, settings.sine angle = FlightMath.sine mode angle
  cosine : ∀ mode, FlightMath.selectMode params.mode = .ok mode →
    ∀ angle, settings.cosine angle = FlightMath.cosine mode angle
  window : params.window = .int settings.window.toNat
  network : ∀ count, params.window = .int count → ∃ size, WindowSize.ofInt? count = some size ∧
    ∀ samples, settings.median samples = singleMedianOf? size samples
  median : ∀ samples : List Double, params.window = .int samples.length →
    ∃ median, settings.median samples = .ok median ∧ singleMedian? samples = .ok median
  refusal : ∀ samples : List Double, params.window ≠ .int samples.length →
    settings.median samples = .error (.wrongLength settings.window samples.length)

private theorem realizes_toParams (settings : Settings) : settings.Realizes settings.toParams where
  mode := rfl
  selectMode := rfl
  sine mode selected angle := by
    obtain rfl := Value.mode.inj (selectMode_eq_ok_iff.mp selected)
    rfl
  cosine mode selected angle := by
    obtain rfl := Value.mode.inj (selectMode_eq_ok_iff.mp selected)
    rfl
  window := rfl
  network count named := by
    obtain rfl := Value.int.inj named
    exact ⟨settings.window, WindowSize.ofInt?_toNat _, fun samples => rfl⟩
  median samples sameLength := by
    have length : samples.length = settings.window.toNat := by
      exact_mod_cast (Value.int.inj sameLength).symm
    have rounded : (samples.map Double.toSingle).length = settings.window.toNat := by
      rw [List.length_map, length]
    refine ⟨_, medianOf?_of_length rounded, ?_⟩
    rw [singleMedian?, windowSize?, length, WindowSize.ofNat?_toNat]
    exact medianOf?_of_length rounded
  refusal samples different := by
    have length : (samples.map Double.toSingle).length ≠ settings.window.toNat := by
      rw [List.length_map]
      intro same
      exact different (by rw [same]; rfl)
    have refused := medianOf?_of_length_ne length
    rwa [List.length_map] at refused

/-- What is read passes the check, and settings that do as it says are made of it; shown as a value,
it is read back. Of any parameters, settings are made exactly if those hold a mode and an integer
with a network; otherwise they are refused with the text of the check. -/
theorem ofParams_sound_complete :
    (∀ data params, Params.ofValue data = .ok params →
      params.validate = .ok () ∧
        (∃ settings, ofParams params = .ok settings ∧ settings.Realizes params) ∧
        Params.ofValue params.toValue = .ok params) ∧
    ∀ params : Params,
      ((∃ settings, ofParams params = .ok settings) ↔ params.Valid) ∧
        (¬ params.Valid → ∃ failure cause, ofParams params = .error failure ∧
          params.validate = .error cause ∧ failure.message = cause.message) := by
  refine ⟨fun data params read => ?_, fun params => ⟨?_, exists_failure⟩⟩
  · obtain ⟨-, -, -, -, -, -, -, -, -, -, valid⟩ := Params.ofValue_eq_ok_iff.mp read
    obtain ⟨settings, rfl⟩ := Params.validate_eq_ok_iff.mp valid
    exact ⟨valid, ⟨settings, ofParams_toParams settings, realizes_toParams settings⟩,
      Params.ofValue_toValue settings⟩
  · rw [Params.valid_iff]
    exact exists_congr fun settings => ofParams_eq_ok_iff

/-- A value that chooses the fast mode by its word, and a window of five samples. -/
def fastOfFive : Value :=
  .table [("trig", .table [("approx_mode", .text "Fast")]), ("median", .table [("window", .int 5)])]

theorem ofParams_sound_complete_fastOfFive :
    Params.ofValue fastOfFive = .ok ⟨.mode .fast, .int 5⟩ ∧
      (∃ settings, ofParams ⟨.mode .fast, .int 5⟩ = .ok settings ∧
        settings.Realizes ⟨.mode .fast, .int 5⟩) ∧
      ∃ failure cause, ofParams ⟨.mode .fast, .bool true⟩ = .error failure ∧
        Params.validate ⟨.mode .fast, .bool true⟩ = .error cause ∧
        failure.message = cause.message := by
  have word : Params.readMode (.text "Fast") = .ok .fast := by
    have lower : "Fast".toLower = ApproxMode.fast.word := by decide +kernel
    rw [Params.readMode, lower]
    rfl
  have read : Params.ofValue fastOfFive = .ok ⟨.mode .fast, .int 5⟩ := by
    refine Params.ofValue_eq_ok_iff.mpr
      ⟨_, _, .fast, .int 5, rfl, rfl, ?_, rfl, rfl, rfl, rfl⟩
    show (Params.readMode (.text "Fast")).mapError ReadError.params = _
    rw [word]
    rfl
  have invalid : ¬ Params.Valid ⟨.mode .fast, .bool true⟩ := by
    rintro ⟨-, count, -, absurd⟩
    cases absurd
  exact ⟨read, (ofParams_sound_complete.1 _ _ read).2.1, (ofParams_sound_complete.2 _).2 invalid⟩

end Settings

end FlightMath
