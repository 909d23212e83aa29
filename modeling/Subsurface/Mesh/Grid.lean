import Subsurface.Mesh.Locate
/-!
The bucket table of the grid strategy.

The grid keeps, for each of its cells, the elements whose corner box covers
the cell. A cell is numbered by reading its coordinates as digits in base `n`,
axis 0 the least significant (`flatIndex`). The cells of an element are
enumerated by an odometer running from the cell of its box's lower corner to
the cell of its upper corner (`cellsInRange`): the first axis below its upper
bound steps up and the axes before it go back to their lower bounds. The
table has `n^d` buckets, the product saturating at the largest machine word,
and every element is pushed, in element order, into the bucket of each of its
cells.

`Locator.locate` works out the bucket of a query's cell when it needs it, as
the elements whose box covers the cell.
-/

namespace Subsurface

namespace Grid

/-- The number of a cell: its coordinates read as digits in base `n`, axis 0
the least significant. -/
def flatIndex (n : Nat) (coords : List Nat) : Nat :=
  coords.reverse.foldl (fun acc c => acc * n + c) 0

/-- The odometer's next cell: the first axis below its upper bound steps up
and the axes before it go back to their lower bounds; `none` once every axis
is at its upper bound. -/
def advance : List Nat → List Nat → List Nat → Option (List Nat)
  | l :: low, h :: high, c :: cell =>
    if c < h then some ((c + 1) :: cell) else (advance low high cell).map (l :: ·)
  | _, _, _ => none

/-- What the odometer's steps decrease: the distances to the upper bounds, as
digits of a mixed radix whose radix on each axis is one past its upper bound. -/
def weight : List Nat → List Nat → Nat
  | h :: high, c :: cell => (h - c) + (h + 1) * weight high cell
  | _, _ => 0

theorem weight_advance_lt {low high cell next : List Nat} (hadv : advance low high cell = some next) :
    weight high next < weight high cell := by
  induction low, high, cell using advance.induct generalizing next with
  | case1 l low h high c cell hc =>
    -- the first axis steps up
    rw [advance, if_pos hc, Option.some.injEq] at hadv
    subst hadv
    simp only [weight]
    omega
  | case2 l low h high c cell hc ih =>
    -- the first axis goes back to its lower bound, a later one steps up
    rw [advance, if_neg hc] at hadv
    obtain ⟨next', hnext, rfl⟩ := Option.map_eq_some_iff.1 hadv
    have hlt := ih hnext
    have hstep : (h + 1) * (weight high next' + 1) ≤ (h + 1) * weight high cell :=
      Nat.mul_le_mul_left _ hlt
    rw [Nat.mul_add, Nat.mul_one] at hstep
    simp only [weight]
    omega
  | case3 low high cell hnone =>
    rw [advance.eq_def] at hadv
    split at hadv
    · exact (hnone _ _ _ _ _ _ rfl rfl rfl).elim
    · cases hadv

/-- The cells the odometer visits from `cell` on, up to the upper corner
`high`. -/
def odometer (low high cell : List Nat) : List (List Nat) :=
  cell :: match _advanced : advance low high cell with
    | none => []
    | some next => odometer low high next
termination_by weight high cell
decreasing_by exact weight_advance_lt _advanced

/-- The numbers of the cells from `low` to `high`, in the odometer's order. -/
def cellsInRange (n : Nat) (low high : List Nat) : List Nat :=
  (odometer low high low).map (flatIndex n)

/-- The number of cells of a grid of `n` cells on each of `d` axes, the
product saturating at the largest machine word. -/
def cellCount (n d : Nat) : Nat :=
  (List.range d).foldl (fun acc _ => min (acc * n) (Nat.pow 2 64 - 1)) 1

end Grid

namespace Locator

variable {K : Type} [Scalar K]

/-- The cells element `e` is bucketed in: the range between the cells of its
corner box's corners, none when an index is out of range. -/
def elementCells (l : Locator K) (n : Nat) (e : Nat) : List Nat :=
  match l.corners e with
  | none => []
  | some cs =>
    match Box.ofPoints cs with
    | none => []
    | some eb => Grid.cellsInRange n (l.cellOf n eb.min) (l.cellOf n eb.max)

/-- The grid's buckets: each element, in order, pushed into the bucket of
each of its cells. -/
def buckets (l : Locator K) (n : Nat) : Array (List Nat) :=
  (List.range l.elements.size).foldl
    (fun cells e => (l.elementCells n e).foldl (fun cells i => cells.modify i (· ++ [e])) cells)
    (Array.replicate (Grid.cellCount n l.dim) [])

end Locator

end Subsurface
