import FlightMath.Binary.Arithmetic
import FlightMath.Binary.Conversion
import FlightMath.Integer.Truncated
import FlightMath.Integer.Width

/-! # Mapping one span of values onto another

A span has a start and a stop in either order. The affine map that takes one span onto another is
evaluated with the product first. On integers the division rounds toward zero and the result wraps
to a word; on 32-bit values each operation rounds, and a span without width leads to an infinity
or NaN.
-/

namespace FlightMath

/-- A directed interval of values. -/
structure Span (α : Type) where
  start : α
  stop : α
deriving DecidableEq, Repr

namespace Span

/-- The image of `x` under the map of `source` onto `dest`, or nothing if `source` has no width. -/
def rescale? (source dest : Span Int) (x : Int) : Option Int :=
  (quotient? ((dest.stop - dest.start) * (x - source.start)) (source.stop - source.start)).map
    fun offset => wrapWord (offset + dest.start)

/-- The image of `x` under the map of `source` onto `dest`, in 32-bit arithmetic. -/
def rescaleSingle (source dest : Span Single) (x : Single) : Single :=
  (dest.stop - dest.start) * (x - source.start) / (source.stop - source.start) + dest.start

theorem rescale?_of_width {source : Span Int} (dest : Span Int) (x : Int)
    (width : source.stop - source.start ≠ 0) :
    source.rescale? dest x = some (wrapWord
      (((dest.stop - dest.start) * (x - source.start)).tdiv (source.stop - source.start) +
        dest.start)) := by
  rw [rescale?, quotient?_of_ne_zero _ width, Option.map_some]

end Span

end FlightMath
