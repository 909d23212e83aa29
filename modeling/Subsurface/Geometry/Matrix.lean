import Subsurface.Geometry.Point
/-!
Small dense matrices: determinant and LU solving with partial pivoting.

The determinant of matrices up to 3×3 is the closed cofactor expansion along
the first row; larger ones go through the LU factors. The factorisation picks,
in each column, the first entry of largest magnitude at or below the
diagonal, swaps whole rows, scales the column below the pivot by the pivot's
reciprocal and subtracts multiples of the pivot row; a column whose pivot is
zero is left as it is. Solving applies the recorded swaps, then forward
substitution with a unit diagonal, then back substitution, which fails on a
zero diagonal entry.
-/

namespace Subsurface

/-- A matrix as an array of rows; of doubles unless said otherwise. -/
abbrev Matrix (K : Type := Float) := Array (Array K)

namespace Matrix

variable {K : Type} [Scalar K]

/-- The entry at row `r` and column `c`, zero outside the matrix. -/
def entry (m : Matrix K) (r c : Nat) : K := (m.getD r #[]).getD c 0

/-- The `rows × cols` matrix with entries `f r c`. -/
def ofFn (rows cols : Nat) (f : Nat → Nat → K) : Matrix K :=
  (Array.range rows).map fun r => (Array.range cols).map fun c => f r c

/-- Replaces the entry at row `r` and column `c`. -/
def setEntry (m : Matrix K) (r c : Nat) (x : K) : Matrix K :=
  m.modify r fun row => row.set! c x

/-- Exchanges rows `i` and `j`. -/
def swapRows (m : Matrix K) (i j : Nat) : Matrix K :=
  let ri := m.getD i #[]
  let rj := m.getD j #[]
  (m.set! i rj).set! j ri

/-- Transpose of a `rows × cols` matrix. -/
def transpose (m : Matrix K) (rows cols : Nat) : Matrix K :=
  ofFn cols rows fun r c => m.entry c r

/-- Product `a b` of a `n × p` and a `p × q` matrix; each entry sums its
products from the first inner index, the first product taken as it is. -/
def mul (a b : Matrix K) (n p q : Nat) : Matrix K :=
  ofFn n q fun r c =>
    match List.range p with
    | [] => 0
    | l :: rest => rest.foldl (fun s t => a.entry r t * b.entry t c + s) (a.entry r l * b.entry l c)

/-- Product of a `n × p` matrix and a vector, summed like `mul`. -/
def mulVec (a : Matrix K) (v : Point K) (n p : Nat) : Point K :=
  (Array.range n).map fun r =>
    match List.range p with
    | [] => 0
    | l :: rest => rest.foldl (fun s t => a.entry r t * v.coord t + s) (a.entry r l * v.coord l)

/-- Factors of a square matrix: `lu` holds the unit lower factor below the
diagonal and the upper factor on and above it, and `swaps` the row exchanges
in the order they were made. -/
structure Lu (K : Type := Float) where
  lu : Matrix K
  swaps : List (Nat × Nat)
  size : Nat

/-- Index of the first entry of largest magnitude in column `c`, rows `i` to
`n - 1`. -/
def pivotRow (m : Matrix K) (c i n : Nat) : Nat :=
  (List.range' (i + 1) (n - (i + 1))).foldl
    (fun best r => if Scalar.abs (m.entry r c) > Scalar.abs (m.entry best c) then r else best) i

/-- One elimination step on column `i` with pivot row `i` and pivot `p`. -/
def eliminate (m : Matrix K) (i n : Nat) (p : K) : Matrix K :=
  let inv := 1 / p
  let below := List.range' (i + 1) (n - (i + 1))
  let scaled := below.foldl (fun acc r => acc.setEntry r i (acc.entry r i * inv)) m
  below.foldl (fun acc c =>
    below.foldl (fun acc r =>
      acc.setEntry r c (acc.entry r c - acc.entry i c * acc.entry r i)) acc) scaled

/-- One column of the factorisation: the pivot row is exchanged to the
diagonal and the column eliminated below it; a zero pivot leaves the column
as it is. -/
def factorStep (n : Nat) (st : Matrix K × List (Nat × Nat)) (i : Nat) :
    Matrix K × List (Nat × Nat) :=
  let piv := pivotRow st.1 i i n
  let d := st.1.entry piv i
  if d == 0 then st
  else if piv ≠ i then (eliminate (st.1.swapRows i piv) i n d, st.2 ++ [(i, piv)])
  else (eliminate st.1 i n d, st.2)

/-- LU factorisation with partial pivoting of an `n × n` matrix. -/
def factor (m : Matrix K) (n : Nat) : Lu K :=
  let st := (List.range n).foldl (factorStep n) (m, [])
  ⟨st.1, st.2, n⟩

/-- The right-hand side with the row exchanges applied in order. -/
def Lu.permute (f : Lu K) (b : Point K) : Point K :=
  f.swaps.foldl (fun v sw => (v.set! sw.1 (v.coord sw.2)).set! sw.2 (v.coord sw.1)) b

/-- Forward substitution with the unit lower factor, column by column. -/
def Lu.forward (f : Lu K) (v : Point K) : Point K :=
  (List.range (f.size - 1)).foldl (fun v i =>
    let coeff := v.coord i
    (List.range' (i + 1) (f.size - (i + 1))).foldl (fun v r =>
      v.set! r (v.coord r - coeff * f.lu.entry r i)) v) v

/-- Back substitution with the upper factor, from the last row up, or `none`
at a zero diagonal entry. -/
def Lu.backward (f : Lu K) (v : Point K) : Option (Point K) :=
  (List.range f.size).reverse.foldlM (fun v i =>
    let d := f.lu.entry i i
    if d == 0 then none
    else
      let coeff := v.coord i / d
      let v := v.set! i coeff
      some ((List.range i).foldl (fun v r => v.set! r (v.coord r - coeff * f.lu.entry r i)) v))
    v

/-- Solution of `A x = b` from the factors of `A`, or `none` when a diagonal
entry of the upper factor is zero. -/
def Lu.solve (f : Lu K) (b : Point K) : Option (Point K) :=
  f.backward (f.forward (f.permute b))

/-- Sign of the row permutation recorded by the factorisation. -/
def Lu.permutationSign (f : Lu K) : K :=
  if f.swaps.length % 2 = 0 then 1 else -1

/-- Determinant from the factors: the product of the upper diagonal, taken
from the last entry back to the first, times the permutation sign. -/
def Lu.determinant (f : Lu K) : K :=
  let n := f.size
  let last := f.lu.entry (n - 1) (n - 1)
  if last == 0 then 0
  else (List.range (n - 1)).foldl (fun acc i => acc * f.lu.entry i i) last * f.permutationSign

/-- Determinant of an `n × n` matrix. -/
def determinant (m : Matrix K) (n : Nat) : K :=
  match n with
  | 0 => 1
  | 1 => m.entry 0 0
  | 2 => m.entry 0 0 * m.entry 1 1 - m.entry 1 0 * m.entry 0 1
  | 3 =>
    let m11 := m.entry 0 0; let m12 := m.entry 0 1; let m13 := m.entry 0 2
    let m21 := m.entry 1 0; let m22 := m.entry 1 1; let m23 := m.entry 1 2
    let m31 := m.entry 2 0; let m32 := m.entry 2 1; let m33 := m.entry 2 2
    m11 * (m22 * m33 - m32 * m23) - m12 * (m21 * m33 - m31 * m23) + m13 * (m21 * m32 - m31 * m22)
  | n + 4 => (factor m (n + 4)).determinant

end Matrix

end Subsurface
