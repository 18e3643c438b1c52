/-! # Powers of natural numbers

Widths, ranges and units are powers of two. Inside this library a power of natural numbers is
always the built-in operation, whatever other structure on the natural numbers a module imports,
so the same power means the same term in definitions and in theorems about them.
-/

namespace FlightMath

attribute [scoped instance (2000)] instPowNat

end FlightMath
