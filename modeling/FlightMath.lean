import FlightMath.Binary.Bits
import FlightMath.Deadband
import FlightMath.Diagnostics
import FlightMath.Integer.Difference
import FlightMath.Integer.Fixed
import FlightMath.Proofs.Config.Checked
import FlightMath.Proofs.Median.Correct
import FlightMath.Proofs.Quaternion.RoundTrip
import FlightMath.Proofs.Quaternion.Hamilton
import FlightMath.Proofs.Quaternion.Conjugate
import FlightMath.Proofs.Quaternion.DoubleCover
import FlightMath.Proofs.Rotation.Orthonormal
import FlightMath.Proofs.Rotation.Elementary
import FlightMath.Proofs.Statistics.Average
import FlightMath.Proofs.Statistics.Bounds
import FlightMath.Proofs.Statistics.Forgetting
import FlightMath.Span
import FlightMath.Trig.ArcCosine
import FlightMath.Proofs.Trig.Direction
import FlightMath.Proofs.UnitLength
import FlightMath.Trig.ArcTangent
import FlightMath.Proofs.Quaternion.Composition
import FlightMath.Proofs.Trig.Guard
import FlightMath.Proofs.Trig.Principal
import FlightMath.Proofs.Trig.CubicFactor
import FlightMath.Proofs.Trig.ArcCosine
import FlightMath.Proofs.Trig.Inverse
import FlightMath.Proofs.Median.Conversion
import FlightMath.Proofs.Median.Samples
import FlightMath.Proofs.Quaternion.Normalization
import FlightMath.Proofs.Config.Reading
import FlightMath.Proofs.Integer.Rescaling
import FlightMath.Proofs.Trig.Oddness
import FlightMath.Proofs.Trig.Symmetry
import FlightMath.Proofs.Rounding.Rescaling
import FlightMath.Proofs.Integer.Fractions
import FlightMath.Proofs.Integer.Divisors
import FlightMath.Proofs.Integer.InPlace
import FlightMath.Proofs.Deadband
import FlightMath.Proofs.Integer.Residues
import FlightMath.Proofs.Integer.Division
