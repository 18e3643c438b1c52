import FlightMath.Binary.Basic

/-! # Comparator networks

A network is a list of position pairs. Running it exchanges the two entries of each pair in turn
when the second is less than the first, and afterwards the middle position holds the median. The
networks here sort no more than that takes, so the other positions mean nothing.

The order is any decidable relation: where entries are incomparable nothing is exchanged, and the
entries that come out are still the ones that went in.
-/

namespace FlightMath

/-- The window sizes that have a network. -/
inductive WindowSize where
  | three
  | five
  | seven
  | nine
deriving DecidableEq, Repr

namespace WindowSize

/-- The number of samples in a window. -/
def toNat : WindowSize → Nat
  | .three => 3
  | .five => 5
  | .seven => 7
  | .nine => 9

/-- All sizes, in increasing order. -/
def all : List WindowSize := [.three, .five, .seven, .nine]

/-- The window size with this many samples. -/
def ofNat? (count : Nat) : Option WindowSize :=
  all.find? fun size => size.toNat == count

/-- The window size that an integer names. -/
def ofInt? (count : Int) : Option WindowSize :=
  all.find? fun size => size.toNat == count

@[simp] theorem ofNat?_toNat (size : WindowSize) : ofNat? size.toNat = some size := by
  cases size <;> rfl

@[simp] theorem ofInt?_toNat (size : WindowSize) : ofInt? size.toNat = some size := by
  cases size <;> rfl

theorem ofInt?_eq_some_iff (count : Int) (size : WindowSize) :
    ofInt? count = some size ↔ count = size.toNat := by
  constructor
  · intro found
    have same := List.find?_some found
    exact (beq_iff_eq.mp same).symm
  · rintro rfl
    exact ofInt?_toNat size

end WindowSize

/-- A sequence of comparators on `size` positions, and the position of the median. -/
structure Network (size : Nat) where
  comparators : List (Fin size × Fin size)
  middle : Fin size
deriving DecidableEq, Repr

namespace Network

variable {α : Type} [LT α] [DecidableLT α] {size : Nat}

/-- Puts the lesser of two entries first. -/
def exchange (window : Vector α size) (pair : Fin size × Fin size) : Vector α size :=
  if window[pair.2] < window[pair.1] then window.swap pair.1 pair.2 else window

/-- Applies the comparators in order. -/
def run (network : Network size) (window : Vector α size) : Vector α size :=
  network.comparators.foldl exchange window

/-- The entry that ends up in the middle. -/
def select (network : Network size) (window : Vector α size) : α :=
  (network.run window)[network.middle]

/-- A comparator only rearranges the window. -/
theorem exchange_perm (window : Vector α size) (pair : Fin size × Fin size) :
    (exchange window pair).Perm window := by
  unfold exchange
  split
  · exact Vector.swap_perm _ _
  · exact Vector.Perm.rfl

/-- Running a network only rearranges the window. -/
theorem run_perm (network : Network size) (window : Vector α size) :
    (network.run window).Perm window := by
  unfold run
  induction network.comparators generalizing window with
  | nil => exact Vector.Perm.rfl
  | cons pair rest ih => exact (ih _).trans (exchange_perm window pair)

/-- The selected entry is one of the window's. -/
theorem select_mem (network : Network size) (window : Vector α size) :
    network.select window ∈ window := by
  have inside : network.select window ∈ network.run window := Vector.getElem_mem _
  exact (network.run_perm window).mem_iff.mp inside

/-- The network on three entries. -/
def three : Network 3 where
  comparators := [(0, 1), (1, 2), (0, 1)]
  middle := 1

/-- The network on five entries. -/
def five : Network 5 where
  comparators := [(0, 1), (3, 4), (0, 3), (1, 4), (1, 2), (2, 3), (1, 2)]
  middle := 2

/-- The network on seven entries. -/
def seven : Network 7 where
  comparators :=
    [(0, 5), (0, 3), (1, 6), (2, 4), (0, 1), (3, 5), (2, 6), (2, 3), (3, 6), (4, 5), (1, 4), (1, 3),
      (3, 4)]
  middle := 3

/-- The network on nine entries. -/
def nine : Network 9 where
  comparators :=
    [(1, 2), (4, 5), (7, 8), (0, 1), (3, 4), (6, 7), (1, 2), (4, 5), (7, 8), (0, 3), (5, 8), (4, 7),
      (3, 6), (1, 4), (2, 5), (4, 7), (4, 2), (6, 4), (4, 2)]
  middle := 4

end Network

/-- The network of each window size. -/
def WindowSize.network : (size : WindowSize) → Network size.toNat
  | .three => Network.three
  | .five => Network.five
  | .seven => Network.seven
  | .nine => Network.nine

end FlightMath
