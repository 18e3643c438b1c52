import FlightMath.Binary.Conversion
import FlightMath.Median.Network

/-! # Medians of windows

A window is a list of samples. `medianOf?` runs the network of a size that is fixed in advance, and
`median?` chooses it by the window's length. Integer windows take numbers and truncate them first;
32-bit windows take 64-bit numbers and round them first.

Two faults may occur in one window. With the size fixed, a sample that cannot be truncated is
reported before a wrong length; otherwise an unsupported length comes first.
-/

namespace FlightMath

/-- Why a window has no median. -/
inductive MedianError where
  | wrongLength (size : WindowSize) (length : Nat)
  | unsupportedLength (length : Nat)
  | truncation (cause : TruncationError)
deriving DecidableEq, Repr

/-- The text that reports the error. -/
def MedianError.message : MedianError → String
  | .wrongLength size length =>
      "Median window must have " ++ toString size.toNat ++ " values, got " ++ toString length
  | .unsupportedLength length => "Unsupported median window size: " ++ toString length
  | .truncation cause => cause.message

/-- The samples as a vector, if there are as many as the size asks for. -/
def WindowSize.window? {α : Type} (size : WindowSize) (samples : List α) :
    Except MedianError (Vector α size.toNat) :=
  if sameLength : samples.length = size.toNat then .ok ⟨samples.toArray, by simpa using sameLength⟩
  else .error (.wrongLength size samples.length)

/-- The median of a window of the given size. -/
def medianOf? {α : Type} [LT α] [DecidableLT α] (size : WindowSize) (samples : List α) :
    Except MedianError α :=
  (size.window? samples).map size.network.select

theorem medianOf?_of_length {α : Type} [LT α] [DecidableLT α] {size : WindowSize} {samples : List α}
    (sameLength : samples.length = size.toNat) :
    medianOf? size samples =
      .ok (size.network.select ⟨samples.toArray, by simpa using sameLength⟩) := by
  simp [medianOf?, WindowSize.window?, sameLength, Except.map]

theorem medianOf?_of_length_ne {α : Type} [LT α] [DecidableLT α] {size : WindowSize}
    {samples : List α} (different : samples.length ≠ size.toNat) :
    medianOf? size samples = .error (.wrongLength size samples.length) := by
  simp [medianOf?, WindowSize.window?, different, Except.map]

/-- As many samples as the size asks for are a window. -/
theorem WindowSize.exists_window {α : Type} {size : WindowSize} {samples : List α}
    (sameLength : samples.length = size.toNat) :
    ∃ window : Vector α size.toNat, window.toList = samples :=
  ⟨⟨samples.toArray, by simpa using sameLength⟩, rfl⟩

theorem WindowSize.window?_toList {α : Type} (size : WindowSize) (window : Vector α size.toNat) :
    size.window? window.toList = .ok window :=
  dif_pos window.length_toList

theorem medianOf?_toList {α : Type} [LT α] [DecidableLT α] (size : WindowSize)
    (window : Vector α size.toNat) :
    medianOf? size window.toList = .ok (size.network.select window) := by
  rw [medianOf?, size.window?_toList]
  rfl

/-- Truncates every sample, or reports the first that has no integer part. -/
def truncateSamples (samples : List Number) : Except MedianError (List Int) :=
  (samples.mapM Number.truncate).mapError .truncation

/-- The integer median of a window of the given size. -/
def intMedianOf? (size : WindowSize) (samples : List Number) : Except MedianError Int :=
  truncateSamples samples >>= medianOf? size

/-- The 32-bit median of a window of the given size. -/
def singleMedianOf? (size : WindowSize) (samples : List Double) : Except MedianError Single :=
  medianOf? size (samples.map Double.toSingle)

/-- The size of a window of this length. -/
def windowSize? (length : Nat) : Except MedianError WindowSize :=
  match WindowSize.ofNat? length with
  | some size => .ok size
  | none => .error (.unsupportedLength length)

/-- The integer median of a window of any supported length. -/
def intMedian? (samples : List Number) : Except MedianError Int :=
  windowSize? samples.length >>= fun size => intMedianOf? size samples

/-- The 32-bit median of a window of any supported length. -/
def singleMedian? (samples : List Double) : Except MedianError Single :=
  windowSize? samples.length >>= fun size => singleMedianOf? size samples

theorem windowSize?_toNat (size : WindowSize) : windowSize? size.toNat = .ok size := by
  rw [windowSize?, WindowSize.ofNat?_toNat]

theorem intMedian?_of_length {size : WindowSize} {samples : List Number}
    (sameLength : samples.length = size.toNat) :
    intMedian? samples = intMedianOf? size samples := by
  rw [intMedian?, sameLength, windowSize?_toNat]
  rfl

theorem singleMedian?_of_length {size : WindowSize} {samples : List Double}
    (sameLength : samples.length = size.toNat) :
    singleMedian? samples = singleMedianOf? size samples := by
  rw [singleMedian?, sameLength, windowSize?_toNat]
  rfl

end FlightMath
