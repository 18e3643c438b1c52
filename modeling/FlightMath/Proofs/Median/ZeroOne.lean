import FlightMath.Median.Network
import Mathlib

/-! # The zero-one principle for selection

A map that never reverses the order of two entries commutes with every comparator, and so with what
a network selects. Thresholds are such maps into the truth values, and a network that selects the
majority of every window of truth values selects the entry that as many lie above as below.
-/

namespace FlightMath.Network

section Maps

variable {α β : Type} {size : ℕ}

private theorem map_swap (f : α → β) (window : Vector α size) (i j : Fin size) :
    (window.swap i j).map f = (window.map f).swap i j := by
  ext k bound
  simp only [Vector.getElem_map, Vector.getElem_swap]
  split
  · rfl
  · split <;> rfl

private theorem swap_eq_self {window : Vector α size} {i j : Fin size}
    (same : window[j] = window[i]) : window.swap i j = window := by
  ext k bound
  rw [Vector.getElem_swap]
  split
  · next atFirst =>
    subst atFirst
    exact same
  · split
    · next atSecond =>
      subst atSecond
      exact same.symm
    · rfl

variable [LT α] [LT β]

/-- On the entries of the window, the map keeps the order or identifies what it orders. -/
def Respects (f : α → β) (window : Vector α size) : Prop :=
  ∀ a ∈ window, ∀ b ∈ window, (f b < f a → b < a) ∧ (b < a → f b < f a ∨ f b = f a)

theorem Respects.of_perm {f : α → β} {window other : Vector α size} (respects : Respects f window)
    (perm : other.Perm window) : Respects f other := by
  intro a memA b memB
  exact respects a (perm.mem_iff.mp memA) b (perm.mem_iff.mp memB)

variable [DecidableLT α] [DecidableLT β]

/-- A comparator and the map may change places. Where only the window's own entries are exchanged,
the map does not tell them apart. -/
theorem exchange_map {f : α → β} {window : Vector α size} (respects : Respects f window)
    (pair : Fin size × Fin size) : exchange (window.map f) pair = (exchange window pair).map f := by
  have first : window[pair.1] ∈ window := Vector.getElem_mem _
  have second : window[pair.2] ∈ window := Vector.getElem_mem _
  obtain ⟨reflects, keeps⟩ := respects _ first _ second
  have entry : ∀ i : Fin size, (window.map f)[i] = f window[i] := fun i => Vector.getElem_map f _
  unfold exchange
  rw [entry, entry]
  by_cases image : f window[pair.2] < f window[pair.1]
  · rw [if_pos image, if_pos (reflects image), map_swap]
  · rw [if_neg image]
    split
    · next less =>
      have same := (keeps less).resolve_left image
      rw [map_swap, swap_eq_self (by rwa [entry, entry])]
    · rfl

private theorem run_map (network : Network size) {f : α → β} {window : Vector α size}
    (respects : Respects f window) : network.run (window.map f) = (network.run window).map f := by
  unfold run
  induction network.comparators generalizing window with
  | nil => rfl
  | cons pair rest ih =>
    rw [List.foldl_cons, List.foldl_cons, exchange_map respects]
    exact ih (respects.of_perm (exchange_perm window pair))

/-- What the network selects commutes with the map. -/
theorem select_map (network : Network size) {f : α → β} {window : Vector α size}
    (respects : Respects f window) : network.select (window.map f) = f (network.select window) := by
  unfold select
  rw [run_map network respects]
  exact Vector.getElem_map f _

end Maps

/-! ## Windows of truth values

All windows of one size are run at once. The entries at one position of all windows are the bits of
one number, and a comparator takes the conjunction and the disjunction of two such numbers.
-/

section Columns

variable {size : ℕ}

/-- The number whose bit `k` is bit `position` of `k`, for every `k` below `2 ^ size`. -/
def column (size position : ℕ) : ℕ :=
  Nat.ofBits fun k : Fin (2 ^ size) => k.val.testBit position

/-- The number whose bit `k` tells whether most of the first `size` bits of `k` are set. -/
def majorityColumn (size : ℕ) : ℕ :=
  Nat.ofBits fun k : Fin (2 ^ size) =>
    decide (size < 2 * (List.range size).countP fun position => k.val.testBit position)

/-- The comparator on all windows at once. -/
def exchangeColumns (columns : Vector ℕ size) : Fin size × Fin size → Vector ℕ size
  | (i, j) =>
    (columns.set i (columns.get i &&& columns.get j) i.isLt).set j (columns.get i ||| columns.get j)
      j.isLt

/-- The entries that the network selects, as the bits of one number. -/
def selectColumns (network : Network size) : ℕ :=
  (network.comparators.foldl exchangeColumns
    (Vector.ofFn fun position => column size position)).get network.middle

private theorem getElem_map_testBit (columns : Vector ℕ size) (k : ℕ) (position : Fin size) :
    (columns.map (·.testBit k))[position] = (columns.get position).testBit k :=
  Vector.getElem_map _ _

/-- One bit of the columns is one window. -/
private theorem map_exchangeColumns (columns : Vector ℕ size) (pair : Fin size × Fin size) (k : ℕ) :
    (exchangeColumns columns pair).map (·.testBit k) =
      exchange (columns.map (·.testBit k)) pair := by
  obtain ⟨i, j⟩ := pair
  unfold exchange exchangeColumns
  dsimp only
  rw [getElem_map_testBit, getElem_map_testBit]
  ext position bound
  rw [Vector.getElem_map, Vector.getElem_set, Vector.getElem_set]
  by_cases exchanged : (columns.get j).testBit k < (columns.get i).testBit k
  · obtain ⟨second, first⟩ := Bool.lt_iff.mp exchanged
    have apart : i.val ≠ j.val := by
      intro same
      rw [Fin.ext same, second] at first
      exact Bool.false_ne_true first
    rw [if_pos exchanged, Vector.getElem_swap]
    split
    · next atSecond =>
      rw [if_neg (by omega), if_pos atSecond.symm, Nat.testBit_or, first, Bool.true_or]
      exact ((getElem_map_testBit columns k i).trans first).symm
    · split
      · next atFirst =>
        rw [if_pos atFirst.symm, Nat.testBit_and, second, Bool.and_false]
        exact ((getElem_map_testBit columns k j).trans second).symm
      · rw [if_neg (by omega), if_neg (by omega), Vector.getElem_map]
  · have ordered : (columns.get i).testBit k = true → (columns.get j).testBit k = true := by
      intro first
      by_contra second
      exact exchanged (Bool.lt_iff.mpr ⟨Bool.eq_false_of_not_eq_true second, first⟩)
    rw [if_neg exchanged, Vector.getElem_map]
    split
    · next atSecond =>
      subst atSecond
      rw [Nat.testBit_or]
      exact Bool.or_eq_right_iff_imp.mpr ordered
    · split
      · next atFirst =>
        subst atFirst
        rw [Nat.testBit_and]
        exact Bool.and_eq_left_iff_imp.mpr ordered
      · rfl

private theorem map_foldl_exchangeColumns (comparators : List (Fin size × Fin size))
    (columns : Vector ℕ size) (k : ℕ) :
    (comparators.foldl exchangeColumns columns).map (·.testBit k) =
      comparators.foldl exchange (columns.map (·.testBit k)) := by
  induction comparators generalizing columns with
  | nil => rfl
  | cons pair rest ih => rw [List.foldl_cons, List.foldl_cons, ih, map_exchangeColumns]

private theorem testBit_selectColumns (network : Network size) {k : ℕ} (below : k < 2 ^ size) :
    network.selectColumns.testBit k =
      network.select (Vector.ofFn fun position : Fin size => k.testBit position) := by
  have start : (Vector.ofFn fun position : Fin size => column size position).map (·.testBit k) =
      Vector.ofFn fun position : Fin size => k.testBit position := by
    ext position bound
    rw [Vector.getElem_map, Vector.getElem_ofFn, Vector.getElem_ofFn]
    exact Nat.testBit_ofBits_lt _ k below
  unfold select run selectColumns
  rw [← start, ← map_foldl_exchangeColumns]
  exact (getElem_map_testBit _ k network.middle).symm

/-- On truth values the network selects the majority. -/
def SelectsMajority (network : Network size) : Prop :=
  ∀ window : Vector Bool size, network.select window = decide (size < 2 * window.toList.count true)

private theorem selectsMajority_of_columns {network : Network size}
    (agree : network.selectColumns = majorityColumn size) : network.SelectsMajority := by
  intro window
  obtain ⟨k, below, bits⟩ : ∃ k < 2 ^ size, ∀ i (bound : i < size), k.testBit i = window[i] :=
    ⟨Nat.ofBits fun i : Fin size => window[i], Nat.ofBits_lt_two_pow _, fun i bound =>
      Nat.testBit_ofBits_lt _ i bound⟩
  have same : window = Vector.ofFn fun position : Fin size => k.testBit position := by
    ext position bound
    rw [Vector.getElem_ofFn, bits position bound]
  have count : window.toList.count true = (List.range size).countP fun i => k.testBit i := by
    have listed : window.toList = (List.range size).map (k.testBit ·) := by
      apply List.ext_getElem (by simp)
      intro i left right
      rw [List.getElem_map, List.getElem_range, bits i (by simpa using right),
        Vector.getElem_toList]
    rw [listed, List.count_eq_countP, List.countP_map]
    exact List.countP_congr fun i _ => by simp
  rw [count, same, ← testBit_selectColumns network below, agree]
  exact Nat.testBit_ofBits_lt _ k below

end Columns

end Network

theorem WindowSize.network_selectsMajority (size : WindowSize) : size.network.SelectsMajority := by
  apply Network.selectsMajority_of_columns
  cases size <;> decide +kernel

end FlightMath
