import Mathlib
import Subsurface.Proofs.Geometry.Exact
/-!
Solving by LU factors with partial pivoting is exact in exact arithmetic.

After the first `k` columns are eliminated, the working matrix holds the
multipliers of those columns below the diagonal, the finished rows of the
upper factor above, and the remaining block still to be eliminated. Read this
way, the unit lower factor times the upper part gives the original matrix with
its rows permuted by the exchanges made so far (`RowsAgree`): every step keeps
that (`rowsAgree_step`), an exchange by permuting, an elimination by moving
one term of each row's sum from one factor to the other.

Solving then permutes the right-hand side the same way, solves the lower
system by forward substitution and the upper one by back substitution. The
upper diagonal has no zero entry exactly when the matrix is nonsingular, so
the solution of a nonsingular system is always found (`solve_factor`).
-/

namespace Subsurface

namespace Point

variable {v : Point ℝ}

@[simp] theorem size_set (i : ℕ) (x : ℝ) : (v.set! i x).size = v.size := by
  simp [Array.set!_eq_setIfInBounds]

theorem coord_set {i : ℕ} (hi : i < v.size) (x : ℝ) (j : ℕ) :
    Point.coord (v.set! i x) j = if j = i then x else v.coord j := by
  simp only [coord, Array.getD_eq_getD_getElem?, Array.set!_eq_setIfInBounds,
    Array.getElem?_setIfInBounds]
  by_cases hij : i = j
  · subst hij
    simp [hi]
  · simp [hij, Ne.symm hij]

theorem coord_foldl_set (φ : ℕ → ℝ → ℝ) : ∀ (l : List ℕ) (v : Point ℝ), l.Nodup →
    (∀ r ∈ l, r < v.size) →
      (l.foldl (fun v r => v.set! r (φ r (v.coord r))) v).size = v.size ∧
      ∀ j, (l.foldl (fun v r => v.set! r (φ r (v.coord r))) v).coord j =
        if j ∈ l then φ j (v.coord j) else v.coord j := by
  intro l
  induction l with
  | nil => simp
  | cons r l ih =>
    intro v hnd hl
    obtain ⟨hrl, hnd⟩ := List.nodup_cons.1 hnd
    have hr : r < v.size := hl r (by simp)
    obtain ⟨hsize, hcoord⟩ := ih (v.set! r (φ r (v.coord r))) hnd
      (fun q hq => by simpa using hl q (by simp [hq]))
    refine ⟨by rw [List.foldl_cons, hsize, size_set], fun j => ?_⟩
    rw [List.foldl_cons, hcoord, coord_set hr]
    by_cases hj : j ∈ l
    · have hjr : j ≠ r := fun h => hrl (h ▸ hj)
      simp [hj, hjr]
    · by_cases hjr : j = r
      · subst hjr
        simp [hj]
      · simp [hj, hjr]

end Point

namespace Matrix

/-- A matrix with `n` rows of `n` entries. -/
def Square (m : Matrix ℝ) (n : ℕ) : Prop := m.size = n ∧ ∀ row ∈ m, row.size = n

section Entries

variable {m : Matrix ℝ} {n : ℕ}

theorem entry_setEntry {r c : ℕ} {x : ℝ} (h : m.Square n) (hr : r < n) (hc : c < n)
    (r' c' : ℕ) : (m.setEntry r c x).entry r' c' = if r' = r ∧ c' = c then x else m.entry r' c' := by
  have hr' : r < m.size := h.1 ▸ hr
  have hrow : m[r].size = n := h.2 _ (Array.getElem_mem hr')
  simp only [setEntry, entry, Array.getD_eq_getD_getElem?, Array.getElem?_modify]
  by_cases hrr : r = r'
  · subst hrr
    by_cases hcc : c = c'
    · subst hcc
      simp [hr', hrow, hc]
    · simp [hr', hcc, Ne.symm hcc]
  · simp [hrr, Ne.symm hrr]

theorem Square.setEntry {r c : ℕ} {x : ℝ} (h : m.Square n) : (m.setEntry r c x).Square n := by
  refine ⟨by simp [Matrix.setEntry, h.1], fun row hrow => ?_⟩
  obtain ⟨k, hk, rfl⟩ := Array.mem_iff_getElem.1 hrow
  simp only [Matrix.setEntry, Array.getElem_modify]
  split
  · simp [h.2 _ (Array.getElem_mem _)]
  · exact h.2 _ (Array.getElem_mem _)

theorem entry_swapRows {i j : ℕ} (h : m.Square n) (hi : i < n) (hj : j < n) (r c : ℕ) :
    (m.swapRows i j).entry r c = m.entry (Equiv.swap i j r) c := by
  have hi' : i < m.size := h.1 ▸ hi
  have hj' : j < m.size := h.1 ▸ hj
  simp only [swapRows, entry, Array.getD_eq_getD_getElem?, Array.set!_eq_setIfInBounds,
    Array.getElem?_setIfInBounds]
  by_cases hri : r = i
  · subst hri
    by_cases hrj : r = j
    · subst hrj
      simp [hi']
    · simp [Equiv.swap_apply_left, Ne.symm hrj, hi', hj']
  · by_cases hrj : r = j
    · subst hrj
      simp [Equiv.swap_apply_right, hi', hj']
    · simp [Equiv.swap_apply_of_ne_of_ne hri hrj, Ne.symm hri, Ne.symm hrj]

theorem Square.swapRows {i j : ℕ} (h : m.Square n) (hi : i < n) (hj : j < n) :
    (m.swapRows i j).Square n := by
  have hi' : i < m.size := h.1 ▸ hi
  have hj' : j < m.size := h.1 ▸ hj
  refine ⟨by simp [Matrix.swapRows, h.1], fun row hrow => ?_⟩
  simp only [Matrix.swapRows, Array.set!_eq_setIfInBounds] at hrow
  rcases Array.mem_or_eq_of_mem_setIfInBounds hrow with hrow | rfl
  · rcases Array.mem_or_eq_of_mem_setIfInBounds hrow with hrow | rfl
    · exact h.2 _ hrow
    · simpa [Array.getD, hj'] using h.2 _ (Array.getElem_mem hj')
  · simpa [Array.getD, hi'] using h.2 _ (Array.getElem_mem hi')

/-- Writing row by row into column `c`, where each new entry reads the
matrix only at its own place or at places the loop does not write, gives every
row of the list its entry computed from the matrix before the loop. -/
theorem entry_foldl_setEntry {c : ℕ} (hc : c < n) {L : List ℕ} (F : Matrix ℝ → ℕ → ℝ)
    (hF : ∀ a a' r, r ∈ L → (∀ r' c', ¬(r' ∈ L ∧ c' = c) → a.entry r' c' = a'.entry r' c') →
      a.entry r c = a'.entry r c → F a r = F a' r) :
    ∀ (l : List ℕ) (a : Matrix ℝ), a.Square n → l.Nodup → (∀ r ∈ l, r ∈ L ∧ r < n) →
      (l.foldl (fun acc r => acc.setEntry r c (F acc r)) a).Square n ∧
      ∀ r' c', (l.foldl (fun acc r => acc.setEntry r c (F acc r)) a).entry r' c' =
        if r' ∈ l ∧ c' = c then F a r' else a.entry r' c' := by
  intro l
  induction l with
  | nil => simp
  | cons r l ih =>
    intro a ha hnd hl
    obtain ⟨hrl, hnd⟩ := List.nodup_cons.1 hnd
    obtain ⟨hrL, hrn⟩ := hl r (by simp)
    have hset := entry_setEntry (x := F a r) ha hrn hc
    obtain ⟨hsq, hentry⟩ := ih _ ha.setEntry hnd (fun q hq => hl q (by simp [hq]))
    refine ⟨hsq, fun r' c' => ?_⟩
    rw [List.foldl_cons, hentry]
    by_cases hr' : r' ∈ l ∧ c' = c
    · -- a later row reads the matrix where only this row was written
      obtain ⟨hr'l, rfl⟩ := hr'
      have hne : r' ≠ r := fun h => hrl (h ▸ hr'l)
      rw [if_pos ⟨hr'l, rfl⟩, if_pos ⟨List.mem_cons_of_mem _ hr'l, rfl⟩]
      refine hF _ _ r' (hl r' (by simp [hr'l])).1 (fun q c'' hq => ?_) ?_
      · rw [hset, if_neg]
        rintro ⟨rfl, rfl⟩
        exact hq ⟨hrL, rfl⟩
      · rw [hset, if_neg (fun h => hne h.1)]
    · rw [if_neg hr', hset]
      by_cases hrc : r' = r ∧ c' = c
      · obtain ⟨rfl, rfl⟩ := hrc
        simp
      · rw [if_neg hrc, if_neg]
        rintro ⟨hmem, rfl⟩
        rcases List.mem_cons.1 hmem with rfl | hmem
        · exact hrc ⟨rfl, rfl⟩
        · exact hr' ⟨hmem, rfl⟩

end Entries

section Elimination

variable {m : Matrix ℝ} {n : ℕ}

/-- The running choice of the entry of largest magnitude ends on one of the
candidates, and no candidate is larger. -/
theorem foldl_argmax (f : ℕ → ℝ) : ∀ (l : List ℕ) (best : ℕ),
    (l.foldl (fun best r => if f r > f best then r else best) best = best ∨
      l.foldl (fun best r => if f r > f best then r else best) best ∈ l) ∧
    ∀ r ∈ best :: l, f r ≤ f (l.foldl (fun best r => if f r > f best then r else best) best) := by
  intro l
  induction l with
  | nil => simp
  | cons q l ih =>
    intro best
    rw [List.foldl_cons]
    -- the candidate kept after `q` is one of the two, and neither is larger
    have hnext : ((if f q > f best then q else best) = q ∨ (if f q > f best then q else best) = best) ∧
        f best ≤ f (if f q > f best then q else best) ∧ f q ≤ f (if f q > f best then q else best) := by
      split
      · exact ⟨.inl rfl, le_of_lt ‹_›, le_rfl⟩
      · exact ⟨.inr rfl, le_rfl, not_lt.1 ‹_›⟩
    obtain ⟨hmem, hmax⟩ := ih (if f q > f best then q else best)
    refine ⟨?_, fun r hr => ?_⟩
    · rcases hmem with h | h
      · rcases hnext.1 with h' | h'
        · exact .inr (by rw [h, h']; exact List.mem_cons_self ..)
        · exact .inl (h.trans h')
      · exact .inr (List.mem_cons_of_mem _ h)
    · rcases List.mem_cons.1 hr with rfl | hr
      · exact hnext.2.1.trans (hmax _ (List.mem_cons_self ..))
      · rcases List.mem_cons.1 hr with rfl | hr
        · exact hnext.2.2.trans (hmax _ (List.mem_cons_self ..))
        · exact hmax r (List.mem_cons_of_mem _ hr)

/-- The pivot row is at or below the diagonal, and its entry has the largest
magnitude there. -/
theorem pivotRow_spec {c i : ℕ} (hi : i < n) :
    i ≤ pivotRow m c i n ∧ pivotRow m c i n < n ∧
      ∀ r, i ≤ r → r < n → |m.entry r c| ≤ |m.entry (pivotRow m c i n) c| := by
  unfold pivotRow
  simp only [Exact.abs_eq]
  obtain ⟨hmem, hmax⟩ := foldl_argmax (fun r => |m.entry r c|)
    (List.range' (i + 1) (n - (i + 1))) i
  have hrange : ∀ r, r ∈ List.range' (i + 1) (n - (i + 1)) ↔ i + 1 ≤ r ∧ r < n := by
    intro r
    rw [List.mem_range'_1]
    omega
  have hpiv : i ≤ List.foldl (fun best r => if |m.entry r c| > |m.entry best c| then r else best) i
        (List.range' (i + 1) (n - (i + 1))) ∧
      List.foldl (fun best r => if |m.entry r c| > |m.entry best c| then r else best) i
        (List.range' (i + 1) (n - (i + 1))) < n := by
    rcases hmem with h | h
    · rw [h]
      exact ⟨le_rfl, hi⟩
    · have := (hrange _).1 h
      exact ⟨by omega, this.2⟩
  refine ⟨hpiv.1, hpiv.2, fun r hir hrn => hmax r ?_⟩
  rcases Nat.eq_or_lt_of_le hir with rfl | hlt
  · exact List.mem_cons_self ..
  · exact List.mem_cons_of_mem _ ((hrange r).2 ⟨hlt, hrn⟩)

theorem mem_below {i r n : ℕ} : r ∈ List.range' (i + 1) (n - (i + 1)) ↔ i < r ∧ r < n := by
  rw [List.mem_range'_1]
  omega

-- The update loop over the columns right of the pivot: each entry of the block
-- loses the pivot row's entry times the row's multiplier.
theorem entry_foldl_columns {i : ℕ} :
    ∀ (cols : List ℕ) (a : Matrix ℝ), a.Square n → cols.Nodup → (∀ c ∈ cols, i < c ∧ c < n) →
      let below := List.range' (i + 1) (n - (i + 1))
      let res := cols.foldl (fun acc c => below.foldl (fun acc r =>
        acc.setEntry r c (acc.entry r c - acc.entry i c * acc.entry r i)) acc) a
      res.Square n ∧ ∀ r c, res.entry r c =
        if r ∈ below ∧ c ∈ cols then a.entry r c - a.entry i c * a.entry r i else a.entry r c := by
  intro cols
  induction cols with
  | nil => simp
  | cons c cols ih =>
    intro a ha hnd hcols
    obtain ⟨hccols, hnd⟩ := List.nodup_cons.1 hnd
    obtain ⟨hic, hcn⟩ := hcols c (by simp)
    -- the column loop for `c` reads the pivot row and column `i`, which it never writes
    obtain ⟨hsq, hentry⟩ := entry_foldl_setEntry hcn
      (L := List.range' (i + 1) (n - (i + 1)))
      (fun acc r => acc.entry r c - acc.entry i c * acc.entry r i)
      (fun a a' r _ hagree hrc => by
        have hpiv : a.entry i c = a'.entry i c :=
          hagree i c (fun h => by have := mem_below.1 h.1; omega)
        have hmul : a.entry r i = a'.entry r i := hagree r i (fun h => by omega)
        simp only [hrc, hpiv, hmul])
      (List.range' (i + 1) (n - (i + 1))) a ha List.nodup_range'
      (fun r hr => ⟨hr, (mem_below.1 hr).2⟩)
    obtain ⟨hsq', hentry'⟩ := ih _ hsq hnd (fun c' hc' => hcols c' (by simp [hc']))
    refine ⟨hsq', fun r c' => ?_⟩
    simp only [List.foldl_cons]
    rw [hentry']
    by_cases hc' : c' = c
    · subst hc'
      rw [if_neg (fun h => hccols h.2), hentry]
      by_cases hr : r ∈ List.range' (i + 1) (n - (i + 1)) <;> simp [hr]
    · have hi_below : i ∉ List.range' (i + 1) (n - (i + 1)) := fun h => by
        have := mem_below.1 h
        omega
      have hci : i ≠ c := by omega
      simp only [hentry, hc', and_false, if_false, hi_below, hci, List.mem_cons,
        false_or]

/-- One elimination step with pivot `p` on the diagonal of column `i`: the
entries below the pivot become multipliers, and the block right of and below
the pivot loses the pivot row times each row's multiplier. -/
theorem eliminate_spec {i : ℕ} (h : m.Square n) (hi : i < n) (p : ℝ) :
    (eliminate m i n p).Square n ∧ ∀ r c, (eliminate m i n p).entry r c =
      if i < r ∧ r < n ∧ i < c ∧ c < n then m.entry r c - m.entry i c * (m.entry r i * (1 / p))
      else if i < r ∧ r < n ∧ c = i then m.entry r i * (1 / p)
      else m.entry r c := by
  obtain ⟨hsq1, hentry1⟩ := entry_foldl_setEntry hi (L := List.range' (i + 1) (n - (i + 1)))
    (fun acc r => acc.entry r i * (1 / p)) (fun a a' r _ _ hri => by simp only [hri])
    (List.range' (i + 1) (n - (i + 1))) m h List.nodup_range'
    (fun r hr => ⟨hr, (mem_below.1 hr).2⟩)
  obtain ⟨hsq2, hentry2⟩ := entry_foldl_columns (List.range' (i + 1) (n - (i + 1))) _ hsq1
    List.nodup_range' (fun c hc => mem_below.1 hc)
  refine ⟨hsq2, fun r c => ?_⟩
  simp only [eliminate]
  rw [hentry2, hentry1, hentry1, hentry1]
  simp only [mem_below]
  by_cases hr : i < r ∧ r < n
  · by_cases hc : i < c ∧ c < n
    · simp [hr, hc, Nat.ne_of_gt hc.1]
    · by_cases hci : c = i
      · simp [hr, hci]
      · simp [hr, hc, hci]
  · simp only [hr, false_and, if_false]
    rw [if_neg (fun h' => hr ⟨h'.1, h'.2.1⟩), if_neg (fun h' => hr ⟨h'.1, h'.2.1⟩)]

end Elimination

section Factor

variable {A : Matrix ℝ} {n : ℕ}

/-- The row order the exchanges make, applied in order. -/
def exchanges (swaps : List (ℕ × ℕ)) : Equiv.Perm ℕ :=
  swaps.foldl (fun σ sw => σ * Equiv.swap sw.1 sw.2) 1

theorem exchanges_append (swaps : List (ℕ × ℕ)) (i j : ℕ) :
    exchanges (swaps ++ [(i, j)]) = exchanges swaps * Equiv.swap i j := by
  simp [exchanges, List.foldl_append]

/-- Row `j` of the upper part after `k` eliminated columns: a finished row of
the upper factor above row `k`, a row of the block still to be eliminated
from row `k` on. -/
noncomputable def upperAt (a : Matrix ℝ) (k j c : ℕ) : ℝ :=
  if j < k then (if j ≤ c then a.entry j c else 0) else (if k ≤ c then a.entry j c else 0)

/-- Entry `(r, c)` of the unit lower factor times the upper part, after `k`
eliminated columns. -/
noncomputable def rowProduct (a : Matrix ℝ) (k r c : ℕ) : ℝ :=
  ∑ j ∈ Finset.range (min r k), a.entry r j * upperAt a k j c + upperAt a k r c

/-- After `k` columns the working matrix and the exchanges made so far factor
`A`: the lower factor times the upper part is `A` with its rows permuted. -/
structure RowsAgree (A : Matrix ℝ) (n k : ℕ) (a : Matrix ℝ) (swaps : List (ℕ × ℕ)) : Prop where
  square : a.Square n
  swaps_lt : ∀ sw ∈ swaps, sw.1 < n ∧ sw.2 < n
  rows : ∀ r < n, ∀ c < n, rowProduct a k r c = A.entry (exchanges swaps r) c

theorem upperAt_succ_of_lt {a : Matrix ℝ} {k j : ℕ} (hj : j < k) (c : ℕ) :
    upperAt a (k + 1) j c = upperAt a k j c := by
  simp [upperAt, hj, Nat.lt_succ_of_lt hj]

theorem rowsAgree_start (hA : A.Square n) : RowsAgree A n 0 A [] where
  square := hA
  swaps_lt := by simp
  rows r _ c _ := by simp [rowProduct, upperAt, exchanges]

/-- Exchanging two rows of the block still to be eliminated permutes the rows
of the product. -/
theorem RowsAgree.swapRows {a : Matrix ℝ} {swaps : List (ℕ × ℕ)} {k piv : ℕ}
    (h : RowsAgree A n k a swaps) (hk : k < n) (hkp : k ≤ piv) (hpn : piv < n) :
    RowsAgree A n k (a.swapRows k piv) (swaps ++ [(k, piv)]) := by
  have hfix : ∀ q < k, Equiv.swap k piv q = q := fun q hq =>
    Equiv.swap_apply_of_ne_of_ne (by omega) (by omega)
  have hentry := entry_swapRows h.square hk hpn
  have hupper : ∀ q < k, ∀ c, upperAt (a.swapRows k piv) k q c = upperAt a k q c := by
    intro q hq c
    simp only [upperAt, hentry, hfix q hq]
  refine ⟨h.square.swapRows hk hpn, ?_, fun r hr c hc => ?_⟩
  · intro sw hsw
    rcases List.mem_append.1 hsw with hsw | hsw
    · exact h.swaps_lt sw hsw
    · rw [List.mem_singleton.1 hsw]
      exact ⟨hk, hpn⟩
  · have hsr : Equiv.swap k piv r < n := by
      rw [Equiv.swap_apply_def]
      split_ifs <;> omega
    rw [exchanges_append, Equiv.Perm.mul_apply, ← h.rows _ hsr c hc]
    by_cases hrk : r < k
    · -- a finished row is not exchanged
      rw [hfix r hrk]
      simp only [rowProduct, hentry, hfix r hrk, hupper r hrk]
      refine congrArg₂ (· + ·) (Finset.sum_congr rfl fun q hq => ?_) rfl
      rw [hupper q (by simp at hq; omega)]
    · have hks : k ≤ Equiv.swap k piv r := by
        rw [Equiv.swap_apply_def]
        split_ifs <;> omega
      simp only [rowProduct, min_eq_right (not_lt.1 hrk), min_eq_right hks, hentry]
      refine congrArg₂ (· + ·) ?_ ?_
      · exact Finset.sum_congr rfl fun q hq => by rw [hupper q (by simpa using hq)]
      · simp [upperAt, hentry, hrk, not_lt.2 hks]

theorem RowsAgree.zeroColumn {a : Matrix ℝ} {swaps : List (ℕ × ℕ)} {k : ℕ}
    (h : RowsAgree A n k a swaps) (hzero : ∀ q, k ≤ q → q < n → a.entry q k = 0) :
    RowsAgree A n (k + 1) a swaps := by
  refine ⟨h.square, h.swaps_lt, fun r hr c hc => ?_⟩
  rw [← h.rows r hr c hc]
  unfold rowProduct
  rcases Nat.lt_trichotomy r k with hrk | rfl | hrk
  · rw [min_eq_left (by omega), min_eq_left hrk.le, upperAt_succ_of_lt hrk]
    exact congrArg (· + _) (Finset.sum_congr rfl fun q hq => by
      rw [upperAt_succ_of_lt (by simp at hq; omega)])
  · rw [min_eq_left (by omega), min_self]
    refine congrArg₂ (· + ·) ?_ ?_
    · exact Finset.sum_congr rfl fun q hq => by rw [upperAt_succ_of_lt (by simpa using hq)]
    · simp [upperAt]
  · rw [min_eq_right (by omega), min_eq_right hrk.le, Finset.sum_range_succ, hzero r hrk.le hr,
      zero_mul, add_zero]
    refine congrArg₂ (· + ·) ?_ ?_
    · exact Finset.sum_congr rfl fun q hq => by rw [upperAt_succ_of_lt (by simpa using hq)]
    · -- the row's entry in column `k` is zero, so the block may start after it
      rcases Nat.lt_or_ge c k with hck | hck
      · simp [upperAt, Nat.not_lt.2 hrk.le, Nat.not_lt.2 (Nat.succ_le_of_lt hrk),
          Nat.not_le.2 hck, Nat.not_le.2 (Nat.lt_succ_of_lt hck)]
      · rcases Nat.eq_or_lt_of_le hck with rfl | hck
        · simp [upperAt, Nat.not_lt.2 hrk.le, Nat.not_lt.2 (Nat.succ_le_of_lt hrk),
            hzero r hrk.le hr]
        · simp [upperAt, Nat.not_lt.2 hrk.le, Nat.not_lt.2 (Nat.succ_le_of_lt hrk), hck.le,
            Nat.succ_le_of_lt hck]

/-- Eliminating column `k` with a nonzero pivot moves each row's term for
column `k` from the block into the lower factor. -/
theorem RowsAgree.eliminate {a : Matrix ℝ} {swaps : List (ℕ × ℕ)} {k : ℕ}
    (h : RowsAgree A n k a swaps) (hk : k < n) (hp : a.entry k k ≠ 0) :
    RowsAgree A n (k + 1) (a.eliminate k n (a.entry k k)) swaps := by
  obtain ⟨hsq, hentry⟩ := eliminate_spec h.square hk (a.entry k k)
  -- rows above and at the pivot, and columns left of it, are left as they are
  have hrow : ∀ q c, q ≤ k → (a.eliminate k n (a.entry k k)).entry q c = a.entry q c := by
    intro q c hq
    rw [hentry, if_neg (by omega), if_neg (by omega)]
  have hcol : ∀ q c, c < k → (a.eliminate k n (a.entry k k)).entry q c = a.entry q c := by
    intro q c hc
    rw [hentry, if_neg (by omega), if_neg (by omega)]
  have hupper : ∀ q < k, ∀ c, upperAt (a.eliminate k n (a.entry k k)) (k + 1) q c =
      upperAt a k q c := by
    intro q hq c
    rw [upperAt_succ_of_lt hq]
    simp only [upperAt, hrow q c hq.le, hq, if_true]
  refine ⟨hsq, h.swaps_lt, fun r hr c hc => ?_⟩
  rw [← h.rows r hr c hc]
  unfold rowProduct
  rcases Nat.lt_or_ge k r with hkr | hrk
  · rw [min_eq_right (by omega), min_eq_right hkr.le, Finset.sum_range_succ, add_assoc]
    refine congrArg₂ (· + ·) ?_ ?_
    · exact Finset.sum_congr rfl fun q hq => by
        rw [hcol r q (by simpa using hq), hupper q (by simpa using hq)]
    · -- the new multiplier times the pivot row gives back the removed term
      have hmult : (a.eliminate k n (a.entry k k)).entry r k = a.entry r k * (1 / a.entry k k) := by
        rw [hentry, if_neg (by omega), if_pos ⟨hkr, hr, rfl⟩]
      have hpiv : upperAt (a.eliminate k n (a.entry k k)) (k + 1) k c =
          if k ≤ c then a.entry k c else 0 := by
        rw [upperAt, if_pos (Nat.lt_succ_self k), hrow k c le_rfl]
      have hrest : upperAt (a.eliminate k n (a.entry k k)) (k + 1) r c =
          if k < c then (a.eliminate k n (a.entry k k)).entry r c else 0 := by
        rw [upperAt, if_neg (by omega)]
        rfl
      have hold : upperAt a k r c = if k ≤ c then a.entry r c else 0 := by
        rw [upperAt, if_neg (by omega)]
      rw [hmult, hpiv, hrest, hold]
      rcases Nat.lt_trichotomy c k with hck | hck | hck
      · simp [Nat.not_le.2 hck, Nat.not_lt.2 hck.le]
      · rw [if_pos hck.symm.le, if_neg (by omega), if_pos hck.symm.le, hck, add_zero]
        field_simp
      · rw [if_pos hck.le, if_pos hck, if_pos hck.le, hentry, if_pos ⟨hkr, hr, hck, hc⟩]
        ring
  · rw [min_eq_left (by omega), min_eq_left hrk]
    refine congrArg₂ (· + ·) ?_ ?_
    · exact Finset.sum_congr rfl fun q hq => by
        rw [hrow r q hrk, hupper q (by simp at hq; omega)]
    · rcases Nat.lt_or_ge r k with hrk' | hrk'
      · rw [hupper r hrk']
      · -- the pivot row itself is finished as it stands
        obtain rfl : r = k := le_antisymm hrk hrk'
        simp only [upperAt, Nat.lt_succ_self, lt_irrefl, if_true, if_false, hrow r c le_rfl]

theorem RowsAgree.step {st : Matrix ℝ × List (ℕ × ℕ)} {k : ℕ} (h : RowsAgree A n k st.1 st.2)
    (hk : k < n) : RowsAgree A n (k + 1) (factorStep n st k).1 (factorStep n st k).2 := by
  obtain ⟨hkp, hpn, hmax⟩ := pivotRow_spec (m := st.1) (c := k) hk
  unfold Matrix.factorStep
  simp only [Exact.beq_eq, decide_eq_true_eq]
  split_ifs with hzero hne
  · -- the largest entry is zero, so the whole column is
    exact h.zeroColumn fun q hkq hqn => abs_eq_zero.1 (le_antisymm
      ((hmax q hkq hqn).trans (by rw [hzero, abs_zero])) (abs_nonneg _))
  · have hd : (st.1.swapRows k (pivotRow st.1 k k n)).entry k k =
        st.1.entry (pivotRow st.1 k k n) k := by
      rw [entry_swapRows h.square hk hpn, Equiv.swap_apply_left]
    have := (h.swapRows hk hkp hpn).eliminate hk (hd ▸ hzero)
    rwa [hd] at this
  · have hpk : pivotRow st.1 k k n = k := not_not.1 hne
    rw [hpk] at hzero ⊢
    exact h.eliminate hk hzero

/-- The factors of a square matrix factor it: the unit lower factor times the
upper factor is the matrix with its rows exchanged as recorded. -/
theorem rowsAgree_factor (hA : A.Square n) :
    RowsAgree A n n (factor A n).lu (factor A n).swaps := by
  have hrun : ∀ k ≤ n, RowsAgree A n k ((List.range k).foldl (factorStep n) (A, [])).1
      ((List.range k).foldl (factorStep n) (A, [])).2 := by
    intro k
    induction k with
    | zero => exact fun _ => rowsAgree_start hA
    | succ k ih =>
      intro hk
      rw [List.range_succ, List.foldl_append, List.foldl_cons, List.foldl_nil]
      exact (ih (by omega)).step (by omega)
  exact hrun n le_rfl

end Factor

section Solve

variable {A : Matrix ℝ} {n : ℕ}

theorem foldl_exchanges (τ : Equiv.Perm ℕ) : ∀ l : List (ℕ × ℕ),
    l.foldl (fun σ sw => σ * Equiv.swap sw.1 sw.2) τ = τ * exchanges l := by
  intro l
  induction l generalizing τ with
  | nil => simp [exchanges]
  | cons sw l ih =>
    simp only [exchanges, List.foldl_cons, one_mul] at ih ⊢
    rw [ih, ih (Equiv.swap sw.1 sw.2), mul_assoc]

theorem exchanges_cons (sw : ℕ × ℕ) (l : List (ℕ × ℕ)) :
    exchanges (sw :: l) = Equiv.swap sw.1 sw.2 * exchanges l := by
  rw [exchanges, List.foldl_cons, one_mul, foldl_exchanges]

theorem coord_exchange {v : Point ℝ} {i j : ℕ} (hi : i < v.size) (hj : j < v.size) (r : ℕ) :
    Point.coord ((v.set! i (v.coord j)).set! j (v.coord i)) r = v.coord (Equiv.swap i j r) := by
  rw [Point.coord_set (by simpa using hj), Point.coord_set hi]
  by_cases hrj : r = j
  · rw [if_pos hrj, hrj, Equiv.swap_apply_right]
  · rw [if_neg hrj]
    by_cases hri : r = i
    · rw [if_pos hri, hri, Equiv.swap_apply_left]
    · rw [if_neg hri, Equiv.swap_apply_of_ne_of_ne hri hrj]

/-- The right-hand side with the recorded exchanges applied is the
right-hand side read in the exchanged row order. -/
theorem coord_permute : ∀ (l : List (ℕ × ℕ)) (v : Point ℝ),
    (∀ sw ∈ l, sw.1 < v.size ∧ sw.2 < v.size) →
      (l.foldl (fun v sw => (v.set! sw.1 (v.coord sw.2)).set! sw.2 (v.coord sw.1)) v).size =
        v.size ∧
      ∀ r, (l.foldl (fun v sw => (v.set! sw.1 (v.coord sw.2)).set! sw.2 (v.coord sw.1)) v).coord r =
        v.coord (exchanges l r) := by
  intro l
  induction l with
  | nil => simp [exchanges]
  | cons sw l ih =>
    intro v hl
    obtain ⟨hi, hj⟩ := hl sw (by simp)
    obtain ⟨hsize, hcoord⟩ := ih ((v.set! sw.1 (v.coord sw.2)).set! sw.2 (v.coord sw.1))
      (fun q hq => by simpa using hl q (by simp [hq]))
    refine ⟨by rw [List.foldl_cons, hsize]; simp, fun r => ?_⟩
    rw [List.foldl_cons, hcoord, coord_exchange hi hj, exchanges_cons, Equiv.Perm.mul_apply]

theorem Lu.forward_spec (f : Lu ℝ) {v : Point ℝ} (hv : v.size = f.size) :
    (f.forward v).size = f.size ∧ ∀ r < f.size,
      (f.forward v).coord r + ∑ q ∈ Finset.range r, f.lu.entry r q * (f.forward v).coord q =
        v.coord r := by
  -- after `k` columns, each row holds its right-hand side less the columns done
  have hrun : ∀ k ≤ f.size - 1,
      let w := (List.range k).foldl (fun v i =>
        (List.range' (i + 1) (f.size - (i + 1))).foldl (fun w r =>
          w.set! r (w.coord r - v.coord i * f.lu.entry r i)) v) v
      w.size = f.size ∧ ∀ r < f.size,
        w.coord r + ∑ q ∈ Finset.range (min r k), f.lu.entry r q * w.coord q = v.coord r := by
    intro k
    induction k with
    | zero => intro _; simp [hv]
    | succ k ih =>
      intro hk
      obtain ⟨hsize, hrows⟩ := ih (by omega)
      simp only [List.range_succ, List.foldl_append, List.foldl_cons, List.foldl_nil]
      set w := (List.range k).foldl (fun v i =>
        (List.range' (i + 1) (f.size - (i + 1))).foldl (fun w r =>
          w.set! r (w.coord r - v.coord i * f.lu.entry r i)) v) v
      obtain ⟨hsize', hcoord⟩ := Point.coord_foldl_set (fun r x => x - w.coord k * f.lu.entry r k)
        (List.range' (k + 1) (f.size - (k + 1))) w List.nodup_range'
        (fun r hr => by rw [hsize]; exact (mem_below.1 hr).2)
      set u : Point ℝ := (List.range' (k + 1) (f.size - (k + 1))).foldl
        (fun v r => v.set! r (v.coord r - w.coord k * f.lu.entry r k)) w
      -- column `k` is subtracted from the rows below it; the rows up to `k` stay
      have hkeep : ∀ q ≤ k, u.coord q = w.coord q := fun q hq => by
        rw [hcoord, if_neg (fun h => by have := mem_below.1 h; omega)]
      have hsum : ∀ r j, j ≤ k → ∑ q ∈ Finset.range j, f.lu.entry r q * u.coord q =
          ∑ q ∈ Finset.range j, f.lu.entry r q * w.coord q := fun r j hj =>
        Finset.sum_congr rfl fun q hq => by rw [hkeep q (by simp at hq; omega)]
      refine ⟨hsize'.trans hsize, fun r hr => ?_⟩
      by_cases hrk : r ≤ k
      · rw [min_eq_left (by omega), hkeep r hrk, hsum r r hrk, ← hrows r hr, min_eq_left hrk]
      · rw [min_eq_right (by omega), hcoord, if_pos (mem_below.2 ⟨by omega, hr⟩), ← hrows r hr,
          min_eq_right (by omega), Finset.sum_range_succ, hkeep k le_rfl, hsum r k le_rfl]
        ring
  obtain ⟨hsize, hrows⟩ := hrun (f.size - 1) le_rfl
  refine ⟨hsize, fun r hr => ?_⟩
  have := hrows r hr
  rwa [min_eq_left (by omega)] at this

theorem Lu.backward_spec (f : Lu ℝ) (hdiag : ∀ i < f.size, f.lu.entry i i ≠ 0) {y : Point ℝ}
    (hy : y.size = f.size) :
    ∃ x, f.backward y = some x ∧ x.size = f.size ∧
      ∀ r < f.size, ∑ q ∈ Finset.Ico r f.size, f.lu.entry r q * x.coord q = y.coord r := by
  -- with the rows from `m` on solved, each row above holds its right-hand side
  -- less the solved part
  have hrun : ∀ m ≤ f.size, ∀ v : Point ℝ, v.size = f.size →
      (∀ r < m, v.coord r + ∑ q ∈ Finset.Ico m f.size, f.lu.entry r q * v.coord q = y.coord r) →
      (∀ r, m ≤ r → r < f.size →
        ∑ q ∈ Finset.Ico r f.size, f.lu.entry r q * v.coord q = y.coord r) →
      ∃ x, (List.range m).reverse.foldlM (fun v i =>
          if f.lu.entry i i == 0 then none
          else some ((List.range i).foldl (fun w r =>
            w.set! r (w.coord r - v.coord i / f.lu.entry i i * f.lu.entry r i))
            (v.set! i (v.coord i / f.lu.entry i i)))) v = some x ∧
        x.size = f.size ∧
        ∀ r < f.size, ∑ q ∈ Finset.Ico r f.size, f.lu.entry r q * x.coord q = y.coord r := by
    intro m
    induction m with
    | zero =>
      intro _ v hv _ hsolved
      exact ⟨v, rfl, hv, fun r hr => hsolved r (Nat.zero_le r) hr⟩
    | succ m ih =>
      intro hm v hv habove hsolved
      have hd := hdiag m (by omega)
      have hbeq : (f.lu.entry m m == 0) = false := by simp [hd]
      rw [List.range_succ, List.reverse_append, List.reverse_singleton, List.singleton_append,
        List.foldlM_cons, hbeq]
      simp only [Bool.false_eq_true, if_false, Option.bind_eq_bind, Option.bind_some]
      obtain ⟨hsize, hcoord⟩ := Point.coord_foldl_set
        (fun r x => x - v.coord m / f.lu.entry m m * f.lu.entry r m) (List.range m)
        (v.set! m (v.coord m / f.lu.entry m m)) List.nodup_range
        (fun r hr => by simp at hr; simp [hv]; omega)
      set u : Point ℝ := (List.range m).foldl (fun w r =>
        w.set! r (w.coord r - v.coord m / f.lu.entry m m * f.lu.entry r m))
        (v.set! m (v.coord m / f.lu.entry m m))
      -- the step divides row `m` by its diagonal entry, updates the rows above
      -- and keeps the rows below
      have hnew : ∀ j, u.coord j =
          if j < m then v.coord j - v.coord m / f.lu.entry m m * f.lu.entry j m
          else if j = m then v.coord m / f.lu.entry m m else v.coord j := by
        intro j
        rw [hcoord, Point.coord_set (by simp [hv]; omega)]
        by_cases hjm : j < m
        · rw [if_pos (List.mem_range.2 hjm), if_neg (by omega), if_pos hjm]
        · rw [if_neg (fun h => hjm (List.mem_range.1 h)), if_neg hjm]
      have hkeep : ∀ q, m < q → u.coord q = v.coord q := fun q hq => by
        rw [hnew, if_neg (by omega), if_neg (by omega)]
      have hrest : ∀ r, ∑ q ∈ Finset.Ico (m + 1) f.size, f.lu.entry r q * u.coord q =
          ∑ q ∈ Finset.Ico (m + 1) f.size, f.lu.entry r q * v.coord q := fun r =>
        Finset.sum_congr rfl fun q hq => by rw [hkeep q (by simp at hq; omega)]
      apply ih (by omega) _ (by rw [hsize]; simp [hv])
      · -- a row above: its term for row `m` moved from the vector into the sum
        intro r hr
        rw [Finset.sum_eq_sum_Ico_succ_bot (by omega), hnew, hnew, if_pos hr, if_neg (by omega),
          if_pos rfl, ← habove r (by omega), hrest]
        ring
      · intro r hmr hr
        rcases Nat.eq_or_lt_of_le hmr with hrm | hmr
        · -- row `m` is solved by dividing by its diagonal entry
          subst hrm
          rw [Finset.sum_eq_sum_Ico_succ_bot hr, hnew, if_neg (lt_irrefl _), if_pos rfl,
            ← habove m (by omega), hrest]
          field_simp
        · rw [← hsolved r hmr hr]
          exact Finset.sum_congr rfl fun q hq => by rw [hkeep q (by simp at hq; omega)]
  exact hrun f.size le_rfl y hy (fun r _ => by simp) (fun r hr hr' => absurd hr' (by omega))

theorem sum_upperAt {a : Matrix ℝ} {q : ℕ} (hq : q < n) (x : ℕ → ℝ) :
    ∑ c ∈ Finset.range n, upperAt a n q c * x c = ∑ c ∈ Finset.Ico q n, a.entry q c * x c := by
  have hfilter : (Finset.range n).filter (q ≤ ·) = Finset.Ico q n := by
    ext c
    simp only [Finset.mem_filter, Finset.mem_range, Finset.mem_Ico]
    omega
  rw [← hfilter, Finset.sum_filter]
  exact Finset.sum_congr rfl fun c _ => by by_cases hqc : q ≤ c <;> simp [upperAt, hq, hqc]

theorem RowsAgree.sum_mul {a : Matrix ℝ} {swaps : List (ℕ × ℕ)} (h : RowsAgree A n n a swaps)
    (x : ℕ → ℝ) {r : ℕ} (hr : r < n) :
    ∑ c ∈ Finset.range n, A.entry (exchanges swaps r) c * x c =
      ∑ q ∈ Finset.range r, a.entry r q * ∑ c ∈ Finset.range n, upperAt a n q c * x c +
        ∑ c ∈ Finset.range n, upperAt a n r c * x c := by
  have hrow : ∀ c ∈ Finset.range n, A.entry (exchanges swaps r) c * x c =
      ∑ q ∈ Finset.range r, a.entry r q * (upperAt a n q c * x c) + upperAt a n r c * x c := by
    intro c hc
    rw [← h.rows r hr c (Finset.mem_range.1 hc), rowProduct, min_eq_left hr.le, add_mul,
      Finset.sum_mul]
    simp only [mul_assoc]
  rw [Finset.sum_congr rfl hrow, Finset.sum_add_distrib, Finset.sum_comm]
  simp only [Finset.mul_sum]

theorem exchanges_symm_lt : ∀ {swaps : List (ℕ × ℕ)}, (∀ sw ∈ swaps, sw.1 < n ∧ sw.2 < n) →
    ∀ {s : ℕ}, s < n → (exchanges swaps).symm s < n := by
  intro swaps
  induction swaps with
  | nil => exact fun _ _ hs => hs
  | cons sw l ih =>
    intro hl s hs
    obtain ⟨hi, hj⟩ := hl sw (by simp)
    rw [exchanges_cons, Equiv.Perm.mul_def, Equiv.symm_trans_apply]
    apply ih (fun q hq => hl q (by simp [hq]))
    rw [Equiv.symm_swap, Equiv.swap_apply_def]
    split_ifs <;> omega

theorem RowsAgree.forall_row {a : Matrix ℝ} {swaps : List (ℕ × ℕ)} {k : ℕ}
    (h : RowsAgree A n k a swaps) {P : ℕ → Prop} (hP : ∀ r < n, P (exchanges swaps r)) :
    ∀ s < n, P s := fun s hs => by
  simpa using hP _ (exchanges_symm_lt h.swaps_lt hs)

/-- No pivot of a nonsingular matrix is zero: a zero on the upper diagonal
would give the upper factor, hence the matrix, a nonzero kernel vector. -/
theorem pivots_ne_zero (hA : A.Square n)
    (hinj : ∀ x : ℕ → ℝ, (∀ r < n, ∑ c ∈ Finset.range n, A.entry r c * x c = 0) →
      ∀ c < n, x c = 0) :
    ∀ i < n, (factor A n).lu.entry i i ≠ 0 := by
  intro i hi hzero
  have h := rowsAgree_factor hA
  have hdet : (Matrix.of fun p q : Fin n => upperAt (factor A n).lu n p q).det = 0 := by
    rw [Matrix.det_of_isUpperTriangular (fun p q hpq => by
      have hqp : ¬ (p : ℕ) ≤ q := Nat.not_le.2 hpq
      simp only [Matrix.of_apply, upperAt, if_pos p.isLt, if_neg hqp])]
    exact Finset.prod_eq_zero (Finset.mem_univ ⟨i, hi⟩) (by simp [upperAt, hzero])
  obtain ⟨v, hv0, hv⟩ := Matrix.exists_mulVec_eq_zero_iff.2 hdet
  -- the kernel vector, read with natural indices
  set x : ℕ → ℝ := fun c => if hc : c < n then v ⟨c, hc⟩ else 0 with hx
  have hUx : ∀ q < n, ∑ c ∈ Finset.range n, upperAt (factor A n).lu n q c * x c = 0 := by
    intro q hq
    have := congrFun hv ⟨q, hq⟩
    rw [Matrix.mulVec_apply_eq_sum] at this
    rw [← Fin.sum_univ_eq_sum_range (fun c => upperAt (factor A n).lu n q c * x c)]
    simpa [hx] using this
  have hAx := h.forall_row (P := fun s => ∑ c ∈ Finset.range n, A.entry s c * x c = 0)
    fun r hr => by
      show ∑ c ∈ Finset.range n, A.entry (exchanges (factor A n).swaps r) c * x c = 0
      rw [h.sum_mul x hr, hUx r hr, add_zero]
      exact Finset.sum_eq_zero fun q hq => by rw [hUx q (by simp at hq; omega), mul_zero]
  apply hv0
  funext c
  simpa [hx] using hinj x hAx c c.isLt

/-- Solving by the factors gives the solution of every nonsingular system. -/
theorem solve_factor (hA : A.Square n) {b : Point ℝ} (hb : b.size = n)
    (hinj : ∀ x : ℕ → ℝ, (∀ r < n, ∑ c ∈ Finset.range n, A.entry r c * x c = 0) →
      ∀ c < n, x c = 0) :
    ∃ x, (factor A n).solve b = some x ∧ x.size = n ∧
      ∀ r < n, ∑ c ∈ Finset.range n, A.entry r c * x.coord c = b.coord r := by
  have h := rowsAgree_factor hA
  obtain ⟨hpsize, hpcoord⟩ := coord_permute (factor A n).swaps b
    (fun sw hsw => by rw [hb]; exact h.swaps_lt sw hsw)
  obtain ⟨hfsize, hfrows⟩ := (factor A n).forward_spec (v := (factor A n).permute b)
    (by rw [Lu.permute, hpsize, hb]; rfl)
  obtain ⟨x, hx, hxsize, hxrows⟩ := (factor A n).backward_spec (pivots_ne_zero hA hinj) hfsize
  refine ⟨x, hx, hxsize, h.forall_row (P := fun s => ∑ c ∈ Finset.range n, A.entry s c *
    x.coord c = b.coord s) fun r hr => ?_⟩
  -- through the factors: the upper system, then the lower one, then the exchanges
  have hback : ∀ q < n, ∑ c ∈ Finset.range n, upperAt (factor A n).lu n q c * x.coord c =
      ((factor A n).forward ((factor A n).permute b)).coord q := fun q hq => by
    rw [sum_upperAt hq]
    exact hxrows q hq
  show ∑ c ∈ Finset.range n, A.entry (exchanges (factor A n).swaps r) c * x.coord c =
    b.coord (exchanges (factor A n).swaps r)
  rw [h.sum_mul _ hr, hback r hr, Finset.sum_congr rfl fun q hq => by
    rw [hback q (by simp at hq; omega)], add_comm, hfrows r hr]
  exact hpcoord r

end Solve

end Matrix

end Subsurface
