import Mathlib
import Subsurface.Mesh.Grid
import Subsurface.Proofs.Mesh.CellCoords
import Subsurface.Proofs.Mesh.Locate
import Subsurface.Proofs.Geometry.Span
/-!
The grid's index is sound.

A cell's number reads its coordinates as digits in base `n`, so on a grid of
`n` cells per axis distinct cells have distinct numbers, all below `n^d`
(`flatIndex_injective`, `flatIndex_lt`). The odometer between two corners
`low ≤ high` visits the cells between them in the order of `box`, axis 0 the
fastest: from a cell it sweeps the first axis up to its bound and then steps
the rest as an odometer of one axis less (`odometer_sweep`, `odometer_cons`),
so by induction on the axes it visits every cell between the corners exactly
once (`odometer_eq_box`, `count_cellsInRange`).
-/

namespace Subsurface

namespace Grid

/-! ## Cell numbers -/

@[simp] theorem flatIndex_nil (n : ℕ) : flatIndex n [] = 0 := rfl

@[simp] theorem flatIndex_cons (n c : ℕ) (cell : List ℕ) :
    flatIndex n (c :: cell) = flatIndex n cell * n + c := by
  simp [flatIndex]

/-- The number of a cell of the grid is below the number of cells. -/
theorem flatIndex_lt {n : ℕ} : ∀ {cell : List ℕ}, (∀ x ∈ cell, x < n) → flatIndex n cell < n ^ cell.length
  | [], _ => by simp
  | c :: cell, h => by
    have ih := flatIndex_lt fun x hx => h x (List.mem_cons_of_mem _ hx)
    have hc := h c List.mem_cons_self
    rw [flatIndex_cons, List.length_cons, pow_succ]
    calc flatIndex n cell * n + c < (flatIndex n cell + 1) * n := by rw [add_one_mul]; omega
      _ ≤ n ^ cell.length * n := Nat.mul_le_mul_right _ ih

/-- Distinct cells of the grid have distinct numbers. -/
theorem flatIndex_injective {n : ℕ} : ∀ {cell cell' : List ℕ}, cell.length = cell'.length →
    (∀ x ∈ cell, x < n) → (∀ x ∈ cell', x < n) → flatIndex n cell = flatIndex n cell' → cell = cell'
  | [], [], _, _, _, _ => rfl
  | c :: cell, c' :: cell', hlen, h, h', heq => by
    have hc := h c List.mem_cons_self
    have hc' := h' c' List.mem_cons_self
    rw [flatIndex_cons, flatIndex_cons] at heq
    -- the first digit is the number modulo `n`, the rest its quotient by `n`
    have hmod : c = c' := by
      have := congrArg (· % n) heq
      simpa [Nat.add_mod, Nat.mod_eq_of_lt hc, Nat.mod_eq_of_lt hc'] using this
    subst hmod
    have hn : 0 < n := by omega
    have hrest : flatIndex n cell = flatIndex n cell' := Nat.eq_of_mul_eq_mul_right hn (by omega)
    rw [flatIndex_injective (by simpa using hlen) (fun x hx => h x (List.mem_cons_of_mem _ hx))
      (fun x hx => h' x (List.mem_cons_of_mem _ hx)) hrest]
  | [], _ :: _, hlen, _, _, _ => by simp at hlen
  | _ :: _, [], hlen, _, _, _ => by simp at hlen

/-! ## The odometer -/

/-- A cell between the corners `low` and `high`, axis by axis. -/
def Within : List ℕ → List ℕ → List ℕ → Prop
  | [], [], [] => True
  | l :: low, h :: high, c :: cell => l ≤ c ∧ c ≤ h ∧ Within low high cell
  | _, _, _ => False

/-- The cells between two corners, axis 0 the fastest. -/
def box : List ℕ → List ℕ → List (List ℕ)
  | [], [] => [[]]
  | l :: low, h :: high => (box low high).flatMap fun cell => (List.range' l (h + 1 - l)).map (· :: cell)
  | _, _ => []

theorem mem_box : ∀ {low high cell : List ℕ}, cell ∈ box low high ↔ Within low high cell
  | [], [], cell => by cases cell <;> simp [box, Within]
  | l :: low, h :: high, cell => by
    cases cell with
    | nil => simp [box, Within]
    | cons c cell =>
      simp only [box, List.mem_flatMap, List.mem_map, List.mem_range'_1, List.cons.injEq, mem_box,
        Within]
      constructor
      · rintro ⟨t, ht, c', ⟨hlc, hch⟩, rfl, rfl⟩
        exact ⟨hlc, by omega, ht⟩
      · rintro ⟨hlc, hch, ht⟩
        exact ⟨_, ht, _, ⟨hlc, by omega⟩, rfl, rfl⟩
  | [], _ :: _, cell => by cases cell <;> simp [box, Within]
  | _ :: _, [], cell => by cases cell <;> simp [box, Within]

theorem nodup_box : ∀ low high : List ℕ, (box low high).Nodup
  | [], [] => by simp [box]
  | l :: low, h :: high => by
    rw [box, List.nodup_flatMap]
    refine ⟨fun cell _ => (List.nodup_range' ..).map fun _ _ h => (List.cons.inj h).1, ?_⟩
    -- the cells of distinct tails are distinct
    refine (nodup_box low high).pairwise_of_forall_ne fun t _ t' _ hne => ?_
    simp only [Function.onFun, List.disjoint_left, List.mem_map]
    rintro _ ⟨c, _, rfl⟩ ⟨c', _, heq⟩
    exact hne (List.cons.inj heq).2.symm
  | [], _ :: _ => by simp [box]
  | _ :: _, [] => by simp [box]

theorem odometer_of_advance_none {low high cell : List ℕ} (h : advance low high cell = none) :
    odometer low high cell = [cell] := by
  rw [odometer]
  split
  · rfl
  · simp_all

theorem odometer_of_advance_some {low high cell next : List ℕ} (h : advance low high cell = some next) :
    odometer low high cell = cell :: odometer low high next := by
  rw [odometer]
  split
  · simp_all
  · simp_all

/-- From a cell, the odometer sweeps the first axis up to its bound, then
steps the other axes and starts the first one again from its lower bound. -/
theorem odometer_sweep {l h : ℕ} {low high t : List ℕ} {c : ℕ} (hc : c ≤ h) :
    odometer (l :: low) (h :: high) (c :: t) = (List.range' c (h + 1 - c)).map (· :: t) ++
      ((advance low high t).map fun t' => odometer (l :: low) (h :: high) (l :: t')).getD [] := by
  obtain ⟨k, rfl⟩ := Nat.exists_eq_add_of_le hc
  induction k generalizing c with
  | zero =>
    -- the first axis is at its bound: the rest steps
    have hadv : advance (l :: low) ((c + 0) :: high) (c :: t) = (advance low high t).map (l :: ·) := by
      rw [advance, if_neg (by omega)]
    cases hrest : advance low high t with
    | none =>
      rw [hrest, Option.map_none] at hadv
      rw [odometer_of_advance_none hadv]
      simp
    | some t' =>
      rw [hrest, Option.map_some] at hadv
      rw [odometer_of_advance_some hadv]
      simp
  | succ k ih =>
    -- the first axis steps up
    have hadv : advance (l :: low) ((c + (k + 1)) :: high) (c :: t) = some ((c + 1) :: t) := by
      rw [advance, if_pos (by omega)]
    rw [odometer_of_advance_some hadv, show c + (k + 1) = c + 1 + k by omega, ih (by omega),
      show c + 1 + k + 1 - (c + 1) = k + 1 by omega, show c + 1 + k + 1 - c = k + 1 + 1 by omega,
      List.range'_succ (s := c) (n := k + 1)]
    rfl

/-- The odometer over one more axis, started at that axis's lower bound, runs
the odometer of the other axes and sweeps the first axis at each of its cells. -/
theorem odometer_cons {l h : ℕ} (hlh : l ≤ h) (low high t : List ℕ) :
    odometer (l :: low) (h :: high) (l :: t) =
      (odometer low high t).flatMap fun t' => (List.range' l (h + 1 - l)).map (· :: t') := by
  induction t using odometer.induct low high with
  | case1 t ih =>
    rw [odometer_sweep hlh]
    cases hadv : advance low high t with
    | none =>
      rw [odometer_of_advance_none hadv]
      simp
    | some next =>
      rw [odometer_of_advance_some hadv, Option.map_some, Option.getD_some, ih next hadv]
      simp

/-- **The odometer visits the cells between the corners**, in the order of
`box`. -/
theorem odometer_eq_box : ∀ {low high : List ℕ}, List.Forall₂ (· ≤ ·) low high →
    odometer low high low = box low high
  | [], [], _ => odometer_of_advance_none rfl
  | l :: low, h :: high, hle => by
    rw [List.forall₂_cons] at hle
    rw [odometer_cons hle.1, odometer_eq_box hle.2, box]

/-- Every cell the odometer visits is between the corners, and every cell
between them is visited. -/
theorem mem_odometer {low high : List ℕ} (hle : List.Forall₂ (· ≤ ·) low high) {cell : List ℕ} :
    cell ∈ odometer low high low ↔ Within low high cell := by
  rw [odometer_eq_box hle, mem_box]

theorem nodup_odometer {low high : List ℕ} (hle : List.Forall₂ (· ≤ ·) low high) :
    (odometer low high low).Nodup := by
  rw [odometer_eq_box hle]
  exact nodup_box low high

theorem Within.length_eq {low high cell : List ℕ} (h : Within low high cell) :
    cell.length = high.length := by
  induction low generalizing high cell with
  | nil => cases high <;> cases cell <;> simp_all [Within]
  | cons l low ih =>
    cases high <;> cases cell <;> simp only [Within] at h
    simp [ih h.2.2]

theorem Within.lt {low high cell : List ℕ} (h : Within low high cell) {n : ℕ} (hn : ∀ x ∈ high, x < n) :
    ∀ x ∈ cell, x < n := by
  induction low generalizing high cell with
  | nil => cases high <;> cases cell <;> simp_all [Within]
  | cons l low ih =>
    cases high <;> cases cell <;> simp only [Within] at h
    intro x hx
    rcases List.mem_cons.1 hx with rfl | hx
    · exact lt_of_le_of_lt h.2.1 (hn _ List.mem_cons_self)
    · exact ih h.2.2 (fun y hy => hn y (List.mem_cons_of_mem _ hy)) x hx

theorem Within.forall₂ {low high cell : List ℕ} (h : Within low high cell) :
    List.Forall₂ (· ≤ ·) low high := by
  induction low generalizing high cell with
  | nil => cases high <;> cases cell <;> simp_all [Within]
  | cons l low ih =>
    cases high <;> cases cell <;> simp only [Within] at h
    exact List.Forall₂.cons (h.1.trans h.2.1) (ih h.2.2)

/-- Lists of one length, ordered at each index, are a cell between two
corners. -/
theorem within_of_getD {low high cell : List ℕ} (hl : low.length = cell.length)
    (hh : high.length = cell.length)
    (hi : ∀ i < cell.length, low.getD i 0 ≤ cell.getD i 0 ∧ cell.getD i 0 ≤ high.getD i 0) :
    Within low high cell := by
  induction cell generalizing low high with
  | nil =>
    rw [List.length_nil, List.length_eq_zero_iff] at hl hh
    subst hl hh
    trivial
  | cons c cell ih =>
    cases low with
    | nil => simp at hl
    | cons l low =>
      cases high with
      | nil => simp at hh
      | cons h high =>
        exact ⟨(hi 0 (by simp)).1, (hi 0 (by simp)).2, ih (by simpa using hl) (by simpa using hh)
          fun i hlt => by simpa using hi (i + 1) (by simpa using hlt)⟩

theorem mem_cellsInRange {n : ℕ} {low high : List ℕ} (hle : List.Forall₂ (· ≤ ·) low high) {i : ℕ} :
    i ∈ cellsInRange n low high ↔ ∃ cell, Within low high cell ∧ flatIndex n cell = i := by
  simp only [cellsInRange, List.mem_map, mem_odometer hle]

theorem nodup_cellsInRange {n : ℕ} {low high : List ℕ} (hle : List.Forall₂ (· ≤ ·) low high)
    (hn : ∀ x ∈ high, x < n) : (cellsInRange n low high).Nodup := by
  refine List.Nodup.map_on (fun c hc c' hc' heq => ?_) (nodup_odometer hle)
  rw [mem_odometer hle] at hc hc'
  exact flatIndex_injective (hc.length_eq.trans hc'.length_eq.symm) (hc.lt hn) (hc'.lt hn) heq

/-- **Each cell of a range once.** Between two corners `low ≤ high` of a grid
of `n` cells per axis, `cellsInRange` lists the number of every cell between
the corners exactly once. -/
theorem count_cellsInRange {n : ℕ} {low high cell : List ℕ} (hle : List.Forall₂ (· ≤ ·) low high)
    (hn : ∀ x ∈ high, x < n) (hc : Within low high cell) :
    (cellsInRange n low high).count (flatIndex n cell) = 1 :=
  List.count_eq_one_of_mem (nodup_cellsInRange hle hn) ((mem_cellsInRange hle).2 ⟨cell, hc, rfl⟩)

/-! ## The table -/

theorem cellCount_succ (n d : ℕ) : cellCount n (d + 1) = min (cellCount n d * n) (2 ^ 64 - 1) := by
  simp [cellCount, List.range_succ, List.foldl_append, Nat.pow_eq]

theorem cellCount_eq {n : ℕ} (hn : 1 ≤ n) : ∀ {d : ℕ}, n ^ d ≤ 2 ^ 64 - 1 → cellCount n d = n ^ d
  | 0, _ => rfl
  | d + 1, h => by
    have hle : n ^ d ≤ n ^ (d + 1) := Nat.pow_le_pow_right hn (Nat.le_succ d)
    rw [cellCount_succ, cellCount_eq hn (hle.trans h), ← pow_succ, min_eq_left h]

end Grid

namespace Locator

variable {K : Type} [Scalar K]

/-- Pushing an element into the buckets a list names appends it to each
bucket once per naming. -/
theorem foldl_push (e : ℕ) : ∀ (L : List ℕ) (cells : Array (List ℕ)),
    (L.foldl (fun cells i => cells.modify i (· ++ [e])) cells).size = cells.size ∧
      ∀ i, (L.foldl (fun cells i => cells.modify i (· ++ [e])) cells)[i]? =
        cells[i]?.map (· ++ List.replicate (L.count i) e)
  | [], cells => ⟨rfl, fun i => by simp⟩
  | j :: L, cells => by
    obtain ⟨hsize, hget⟩ := foldl_push e L (cells.modify j (· ++ [e]))
    refine ⟨by rw [List.foldl_cons, hsize, Array.size_modify], fun i => ?_⟩
    rw [List.foldl_cons, hget, Array.getElem?_modify, List.count_cons]
    by_cases hji : j = i
    · subst hji
      simp [List.replicate_succ, Function.comp_def]
    · simp [hji]

/-- The buckets after the first `m` elements: each holds, in order, every one
of them once per naming of its cell. -/
theorem foldl_elements (l : Locator K) (n : ℕ) (init : Array (List ℕ)) : ∀ m,
    ((List.range m).foldl
      (fun cells e => (l.elementCells n e).foldl (fun cells i => cells.modify i (· ++ [e])) cells)
      init).size = init.size ∧
    ∀ i, ((List.range m).foldl
      (fun cells e => (l.elementCells n e).foldl (fun cells i => cells.modify i (· ++ [e])) cells)
      init)[i]? = init[i]?.map
        (· ++ (List.range m).flatMap fun e => List.replicate ((l.elementCells n e).count i) e)
  | 0 => ⟨rfl, fun i => by simp⟩
  | m + 1 => by
    obtain ⟨hsize, hget⟩ := foldl_elements l n init m
    obtain ⟨hsize', hget'⟩ := foldl_push m (l.elementCells n m)
      ((List.range m).foldl
        (fun cells e => (l.elementCells n e).foldl (fun cells i => cells.modify i (· ++ [e])) cells) init)
    rw [List.range_succ, List.foldl_append, List.foldl_cons, List.foldl_nil]
    refine ⟨hsize'.trans hsize, fun i => ?_⟩
    rw [hget', hget, Option.map_map]
    simp [Function.comp_def]

theorem size_buckets (l : Locator K) (n : ℕ) : (l.buckets n).size = Grid.cellCount n l.dim := by
  rw [buckets, (foldl_elements l n _ _).1, Array.size_replicate]

/-- **What a bucket holds.** An element is in the bucket of a cell of the
table exactly when it is an element and the cell is one of its cells. -/
theorem mem_bucket (l : Locator K) (n : ℕ) {i e : ℕ} :
    (∃ bucket, (l.buckets n)[i]? = some bucket ∧ e ∈ bucket) ↔
      i < Grid.cellCount n l.dim ∧ e < l.elements.size ∧ i ∈ l.elementCells n e := by
  rw [buckets, (foldl_elements l n _ _).2, Array.getElem?_replicate]
  by_cases hi : i < Grid.cellCount n l.dim
  · simp [hi, List.mem_flatMap, List.mem_replicate, List.count_eq_zero]
  · simp [hi]

/-! ## Cell coordinates -/

theorem cellOf_le (l : Locator K) (n : ℕ) (p : Point K) : ∀ c ∈ l.cellOf n p, c ≤ n - 1 := by
  unfold cellOf
  split
  · simp
  · simp only [List.mem_map, List.mem_range, forall_exists_index, and_imp]
    rintro c axis - rfl
    split
    · exact Nat.zero_le _
    · exact min_le_right _ _

theorem lt_size_of_corners {l : Locator K} {e : ℕ} {cs : List (Point K)} {eb : Box K}
    (hc : l.corners e = some cs) (hb : Box.ofPoints cs = some eb) : e < l.elements.size := by
  by_contra h
  have hnil : l.corners e = some [] := corners_of_size_le (Nat.le_of_not_lt h)
  rw [hc, Option.some.injEq] at hnil
  subst hnil
  simp [Box.ofPoints] at hb

theorem elementCells_eq {l : Locator K} {n e : ℕ} {cs : List (Point K)} {eb : Box K}
    (hc : l.corners e = some cs) (hb : Box.ofPoints cs = some eb) :
    l.elementCells n e = Grid.cellsInRange n (l.cellOf n eb.min) (l.cellOf n eb.max) := by
  simp [elementCells, hc, hb]

end Locator

/-! ## The resolution -/

/-- The fold of `maxCellsPerAxis` keeps the last candidate it accepted: one
the grid can hold, and none larger below the bound is accepted. -/
theorem foldl_candidates (d : ℕ) : ∀ N,
    (0 < (List.range N).foldl (fun best n => if 0 < n ∧ Nat.pow n d ≤ maxGridCells then n else best) 1 ∧
      (List.range N).foldl (fun best n => if 0 < n ∧ Nat.pow n d ≤ maxGridCells then n else best) 1 ^ d ≤
        maxGridCells) ∧
    ∀ k, (List.range N).foldl (fun best n => if 0 < n ∧ Nat.pow n d ≤ maxGridCells then n else best) 1 < k →
      k < N → ¬(0 < k ∧ k ^ d ≤ maxGridCells)
  | 0 => ⟨⟨Nat.one_pos, by simp [maxGridCells]⟩, fun k _ hk => absurd hk (Nat.not_lt_zero k)⟩
  | N + 1 => by
    obtain ⟨hbest, hnone⟩ := foldl_candidates d N
    simp only [List.range_succ, List.foldl_append, List.foldl_cons, List.foldl_nil]
    split_ifs with hN
    · exact ⟨hN, fun k hk hk' => by omega⟩
    · refine ⟨hbest, fun k hk hk' => ?_⟩
      rcases Nat.lt_succ_iff_lt_or_eq.1 hk' with hk' | rfl
      · exact hnone k hk hk'
      · exact hN

/-- **The largest resolution.** From one axis on, `maxCellsPerAxis d` is the
largest `n` with `n^d ≤ 2^20`, and it is at least one. -/
theorem maxCellsPerAxis_spec {d : ℕ} (hd : 1 ≤ d) :
    0 < maxCellsPerAxis d ∧ maxCellsPerAxis d ^ d ≤ maxGridCells ∧
      ∀ m, m ^ d ≤ maxGridCells → m ≤ maxCellsPerAxis d := by
  rcases Nat.lt_or_ge d 2 with hd1 | hd2
  · -- one axis: the whole budget
    obtain rfl : d = 1 := by omega
    refine ⟨by decide, by simp [maxCellsPerAxis], fun m hm => ?_⟩
    simpa [maxCellsPerAxis] using hm
  · -- several axes: the fold's last accepted candidate; none above `1024` has room
    unfold maxCellsPerAxis
    rw [if_neg (by omega)]
    obtain ⟨⟨hpos, hpow⟩, hnone⟩ := foldl_candidates d 1025
    refine ⟨hpos, hpow, fun m hm => ?_⟩
    by_contra hlt
    have hm2 : m ^ 2 ≤ maxGridCells := (Nat.pow_le_pow_right (by omega) hd2).trans hm
    have hm1024 : m < 1025 := by
      by_contra h
      have h2 : 1025 ^ 2 ≤ m ^ 2 := Nat.pow_le_pow_left (by omega) 2
      have hcap : maxGridCells = 2 ^ 20 := rfl
      rw [hcap] at hm2
      omega
    exact hnone m (by omega) hm1024 ⟨by omega, hm⟩

/-- What the resolution of a grid in `d` dimensions satisfies: it is at least
one and the grid has at most `2^20` cells, `maxCellsPerAxis d` being the
largest resolution that has. -/
structure ResolutionSound (d n : ℕ) : Prop where
  one_le : 1 ≤ n
  pow_le : n ^ d ≤ maxGridCells
  max_pow_le : maxCellsPerAxis d ^ d ≤ maxGridCells
  le_max : ∀ m, m ^ d ≤ maxGridCells → m ≤ maxCellsPerAxis d

theorem resolutionSound_clamp {d : ℕ} (hd : 1 ≤ d) (r : ℕ) :
    ResolutionSound d (max 1 (min r (maxCellsPerAxis d))) := by
  obtain ⟨hpos, hpow, hmax⟩ := maxCellsPerAxis_spec hd
  have hle : max 1 (min r (maxCellsPerAxis d)) ≤ maxCellsPerAxis d := max_le hpos (min_le_right _ _)
  exact ⟨le_max_left _ _, (Nat.pow_le_pow_left hle d).trans hpow, hpow, hmax⟩

namespace Locator

variable {K : Type} [Scalar K]

theorem resolution_build {d r : ℕ} {points : Array (Point K)} {elements : Array (List ℕ)}
    {params : LocatorParams K} (hs : params.strategy = .grid r) :
    (build d points elements params).resolution = some (max 1 (min r (maxCellsPerAxis d))) := by
  simp [build, hs]

/-! ## Soundness of the index -/

/-- What the grid's index guarantees at resolution `n`. -/
structure IndexSound (l : Locator Float) (n : ℕ) : Prop where
  /-- Each point has one cell coordinate per axis, in the grid. -/
  coords_length : ∀ p, (l.cellOf n p).length = l.dim
  coords_le : ∀ p, ∀ c ∈ l.cellOf n p, c ≤ n - 1
  /-- Along each axis, the cell coordinate grows with the point's coordinate. -/
  coords_mono : ∀ p p' axis, axis < l.dim → p.coord axis ≤ p'.coord axis →
    (l.cellOf n p).getD axis 0 ≤ (l.cellOf n p').getD axis 0
  /-- Cells of the grid have distinct numbers, each naming a bucket. -/
  numbers_distinct : ∀ c c', c.length = l.dim → c'.length = l.dim → (∀ x ∈ c, x ≤ n - 1) →
    (∀ x ∈ c', x ≤ n - 1) → Grid.flatIndex n c = Grid.flatIndex n c' → c = c'
  numbers_lt : ∀ c, c.length = l.dim → (∀ x ∈ c, x ≤ n - 1) → Grid.flatIndex n c < n ^ l.dim
  buckets_size : (l.buckets n).size = n ^ l.dim
  /-- A range lists the number of each cell between its corners once, and no
  other number. -/
  range_once : ∀ low high c, List.Forall₂ (· ≤ ·) low high → (∀ x ∈ high, x ≤ n - 1) →
    Grid.Within low high c → (Grid.cellsInRange n low high).count (Grid.flatIndex n c) = 1
  range_only : ∀ low high i, List.Forall₂ (· ≤ ·) low high → i ∈ Grid.cellsInRange n low high →
    ∃ c, Grid.Within low high c ∧ Grid.flatIndex n c = i
  /-- An element is bucketed in the cell of every point of its corner box. -/
  bucketed : ∀ e cs eb q, l.corners e = some cs → Box.ofPoints cs = some eb →
    (∀ axis < l.dim, eb.min.coord axis ≤ q.coord axis ∧ q.coord axis ≤ eb.max.coord axis) →
    ∃ bucket, (l.buckets n)[Grid.flatIndex n (l.cellOf n q)]? = some bucket ∧ e ∈ bucket

section

variable (l : Locator Float) {n : ℕ}

theorem lt_of_le_pred (hn : 1 ≤ n) {c : List ℕ} (h : ∀ x ∈ c, x ≤ n - 1) : ∀ x ∈ c, x < n :=
  fun x hx => by have := h x hx; omega

theorem flatIndex_mem_elementCells (hn53 : 0 < l.dim → n < 2 ^ 53) {e : ℕ} {cs : List (Point Float)}
    {eb : Box Float} (hc : l.corners e = some cs) (hb : Box.ofPoints cs = some eb) {q : Point Float}
    (hq : ∀ axis < l.dim, eb.min.coord axis ≤ q.coord axis ∧ q.coord axis ≤ eb.max.coord axis) :
    Grid.flatIndex n (l.cellOf n q) ∈ l.elementCells n e := by
  -- the cell of `q` is between the cells of the box's corners, axis by axis
  have hw : Grid.Within (l.cellOf n eb.min) (l.cellOf n eb.max) (l.cellOf n q) := by
    refine Grid.within_of_getD (by rw [length_cellOf, length_cellOf])
      (by rw [length_cellOf, length_cellOf]) fun axis haxis => ?_
    rw [length_cellOf] at haxis
    exact ⟨cellOf_mono_of_le (hn53 (by omega)) haxis (hq axis haxis).1,
      cellOf_mono_of_le (hn53 (by omega)) haxis (hq axis haxis).2⟩
  rw [elementCells_eq hc hb, Grid.mem_cellsInRange hw.forall₂]
  exact ⟨_, hw, rfl⟩

/-- A grid with an axis and at most `2^20` cells has at most `2^20` cells on
that axis. -/
theorem lt_two_pow_of_pow_le (hn : 1 ≤ n) (hpow : n ^ l.dim ≤ maxGridCells) :
    0 < l.dim → n < 2 ^ 53 := fun hd =>
  calc n = n ^ 1 := (pow_one n).symm
    _ ≤ n ^ l.dim := Nat.pow_le_pow_right hn hd
    _ < 2 ^ 53 := by rw [show maxGridCells = 2 ^ 20 from rfl] at hpow; omega

/-- **The index is sound** at every resolution whose grid has at most `2^20`
cells. -/
theorem indexSound (hn : 1 ≤ n) (hpow : n ^ l.dim ≤ maxGridCells) : l.IndexSound n := by
  have hcap : maxGridCells = 2 ^ 20 := rfl
  have hsize : (l.buckets n).size = n ^ l.dim := by
    rw [size_buckets, Grid.cellCount_eq hn (by rw [hcap] at hpow; omega)]
  have hn53 := l.lt_two_pow_of_pow_le hn hpow
  refine ⟨length_cellOf l n, cellOf_le l n, fun p p' axis haxis h => ?_, fun c c' hc hc' hlt hlt' heq => ?_,
    fun c hc hlt => ?_, hsize, fun low high c hle hhigh hw => ?_, fun low high i hle hi => ?_,
    fun e cs eb q hc hb hq => ?_⟩
  · exact cellOf_mono_of_le (hn53 (by omega)) haxis h
  · exact Grid.flatIndex_injective (hc.trans hc'.symm) (lt_of_le_pred hn hlt) (lt_of_le_pred hn hlt') heq
  · exact hc ▸ Grid.flatIndex_lt (lt_of_le_pred hn hlt)
  · exact Grid.count_cellsInRange hle (lt_of_le_pred hn hhigh) hw
  · exact (Grid.mem_cellsInRange hle).1 hi
  · -- the cell of `q` is one of the element's cells, and a bucket of the table
    have hlt : Grid.flatIndex n (l.cellOf n q) < Grid.cellCount n l.dim := by
      rw [← size_buckets, hsize, ← length_cellOf l n q]
      exact Grid.flatIndex_lt (lt_of_le_pred hn (cellOf_le l n q))
    exact (mem_bucket l n).2 ⟨hlt, lt_size_of_corners hc hb, flatIndex_mem_elementCells l hn53 hc hb hq⟩

theorem cellOf_corners_le (hn53 : 0 < l.dim → n < 2 ^ 53) {cs : List (Point Float)} {eb : Box Float}
    (hb : Box.ofPoints cs = some eb) : List.Forall₂ (· ≤ ·) (l.cellOf n eb.min) (l.cellOf n eb.max) := by
  have hs := Box.spans_of_ofPoints hb
  have hw : Grid.Within (l.cellOf n eb.min) (l.cellOf n eb.max) (l.cellOf n eb.min) := by
    refine Grid.within_of_getD rfl (by rw [length_cellOf, length_cellOf]) fun axis haxis => ⟨le_rfl, ?_⟩
    rw [length_cellOf] at haxis
    by_cases hi : axis < eb.min.size
    · rcases hs.corners hi with ⟨hnan, -⟩ | hle
      · rw [cellOf_of_isNaN hnan]
        exact Nat.zero_le _
      · exact cellOf_mono_of_le (hn53 (by omega)) haxis hle
    · -- past the box's axes both corners read zero
      have hmax : ¬axis < eb.max.size := hs.size_max ▸ hi
      have hcoord : eb.min.coord axis = eb.max.coord axis := by
        simp [Point.coord, Array.getD, hi, hmax]
      have hnum : (eb.max.coord axis).isNaN = false := by
        simp only [Point.coord, Array.getD, hmax, dite_false]
        rfl
      exact cellOf_mono_of_le (hn53 (by omega)) haxis (by rw [hcoord]; exact Doubles.num_le_self hnum)
  exact hw.forall₂

/-- An element whose corners have a box covers exactly the cells between the
cells of the box's corners. -/
theorem covers_iff {e : ℕ} {cs : List (Point Float)} {eb : Box Float} (hcs : l.corners e = some cs)
    (hb : Box.ofPoints cs = some eb) {c : List ℕ} (hc : c.length = l.dim) :
    l.covers n e c = true ↔ Grid.Within (l.cellOf n eb.min) (l.cellOf n eb.max) c := by
  have hl : (l.cellOf n eb.min).length = c.length := (length_cellOf l n _).trans hc.symm
  have hh : (l.cellOf n eb.max).length = c.length := (length_cellOf l n _).trans hc.symm
  unfold covers
  simp only [hcs, hb]
  generalize l.cellOf n eb.min = low at hl ⊢
  generalize l.cellOf n eb.max = high at hh ⊢
  clear hc
  -- axis by axis, `covers` tests what `Within` states
  induction c generalizing low high with
  | nil =>
    rw [List.length_nil, List.length_eq_zero_iff] at hl hh
    subst hl hh
    simp [Grid.Within]
  | cons x c ih =>
    cases low with
    | nil => simp at hl
    | cons a low =>
      cases high with
      | nil => simp at hh
      | cons b high =>
        simp only [List.zip_cons_cons, List.all_cons, Bool.and_eq_true, decide_eq_true_eq,
          Grid.Within, ih low (by simpa using hl) high (by simpa using hh), and_assoc]

/-- The cells of an element name a cell of the grid once when the element's
box covers it, and not at all otherwise. -/
theorem count_elementCells (hn : 1 ≤ n) (hn53 : 0 < l.dim → n < 2 ^ 53) (e : ℕ) {c : List ℕ}
    (hc : c.length = l.dim) (hle : ∀ x ∈ c, x ≤ n - 1) :
    (l.elementCells n e).count (Grid.flatIndex n c) = if l.covers n e c then 1 else 0 := by
  cases hcs : l.corners e with
  | none => simp [elementCells, covers, hcs]
  | some cs =>
    cases hb : Box.ofPoints cs with
    | none => simp [elementCells, covers, hcs, hb]
    | some eb =>
      have hord := l.cellOf_corners_le hn53 hb
      have hhigh : ∀ x ∈ l.cellOf n eb.max, x < n := lt_of_le_pred hn (cellOf_le l n _)
      rw [elementCells_eq hcs hb]
      by_cases hw : Grid.Within (l.cellOf n eb.min) (l.cellOf n eb.max) c
      · rw [if_pos ((l.covers_iff hcs hb hc).2 hw), Grid.count_cellsInRange hord hhigh hw]
      · rw [if_neg fun hcov => hw ((l.covers_iff hcs hb hc).1 hcov), List.count_eq_zero]
        -- a number of the range is that of a cell between the corners, and
        -- cells of the grid have distinct numbers
        intro hm
        obtain ⟨c', hw', heq⟩ := (Grid.mem_cellsInRange hord).1 hm
        have hlen : c'.length = c.length := by rw [hw'.length_eq, length_cellOf, hc]
        exact hw (Grid.flatIndex_injective hlen (hw'.lt hhigh) (lt_of_le_pred hn hle) heq ▸ hw')

/-- **The bucket of a cell lists the elements whose box covers it.** On a
grid of at most `2^20` cells, the bucket of every cell of the grid lists, in
element order and once each, the elements whose corner box covers the cell.
So the bucket of the cell of a query, which the grid strategy scans, is the
list of elements that `locate` tries. -/
theorem bucket_eq_filter (hn : 1 ≤ n) (hpow : n ^ l.dim ≤ maxGridCells) {c : List ℕ}
    (hc : c.length = l.dim) (hle : ∀ x ∈ c, x ≤ n - 1) :
    (l.buckets n)[Grid.flatIndex n c]? = some ((List.range l.elements.size).filter (l.covers n · c)) := by
  have hsound := l.indexSound hn hpow
  have hlt : Grid.flatIndex n c < Grid.cellCount n l.dim := by
    rw [← size_buckets, hsound.buckets_size]
    exact hsound.numbers_lt c hc hle
  have hcount := l.count_elementCells hn (l.lt_two_pow_of_pow_le hn hpow)
  -- each element is listed as often as the cell is among its cells
  have hlist : ∀ L : List ℕ, (L.flatMap fun e =>
      List.replicate ((l.elementCells n e).count (Grid.flatIndex n c)) e) = L.filter (l.covers n · c) := by
    intro L
    induction L with
    | nil => rfl
    | cons e L ih =>
      rw [List.flatMap_cons, ih, hcount e hc hle, List.filter_cons]
      split <;> rfl
  rw [buckets, (foldl_elements l n _ _).2, Array.getElem?_replicate, if_pos hlt, Option.map_some,
    List.nil_append, hlist]

end

/-- **The grid's index is sound.** For a grid in `d ≥ 1` dimensions and any
requested resolution `r`, the resolution the locator is built with is `r`
clamped to one and to the largest resolution whose grid has at most `2^20`
cells; at it, the cell coordinates of every point are in the grid and grow
with its coordinates, distinct cells have distinct numbers naming buckets of
the table, a range of cells lists each cell between its corners once, and
every element is bucketed in the cell of every point of its box. -/
theorem grid_index_sound {d r : ℕ} (hd : 1 ≤ d) (points : Array (Point Float))
    (elements : Array (List ℕ)) {params : LocatorParams Float} (hs : params.strategy = .grid r) :
    (build d points elements params).resolution = some (max 1 (min r (maxCellsPerAxis d))) ∧
      ResolutionSound d (max 1 (min r (maxCellsPerAxis d))) ∧
      (build d points elements params).IndexSound (max 1 (min r (maxCellsPerAxis d))) := by
  have hres := resolutionSound_clamp hd r
  exact ⟨resolution_build hs, hres, indexSound _ hres.one_le hres.pow_le⟩

/-- **The grid strategy tries the bucket of the query's cell.** For a locator
built over `d ≥ 1` axes with the grid strategy, the bucket of the cell of any
query lists, in element order, the elements whose corner box covers that cell:
the elements `locate` tries for the query. -/
theorem bucket_of_query {d n : ℕ} (hd : 1 ≤ d) (points : Array (Point Float))
    (elements : Array (List ℕ)) {params : LocatorParams Float}
    (hres : (build d points elements params).resolution = some n) (q : Point Float) :
    ((build d points elements params).buckets n)[Grid.flatIndex n
        ((build d points elements params).cellOf n q)]? =
      some ((List.range elements.size).filter
        ((build d points elements params).covers n · ((build d points elements params).cellOf n q))) := by
  -- a grid locator's resolution is the requested one clamped
  obtain ⟨r, hs⟩ : ∃ r, params.strategy = .grid r := by
    cases h : params.strategy with
    | bruteForce => simp [build, h] at hres
    | grid r => exact ⟨r, rfl⟩
  have hn : max 1 (min r (maxCellsPerAxis d)) = n :=
    Option.some.inj ((resolution_build hs).symm.trans hres)
  have hsound := resolutionSound_clamp hd r
  rw [hn] at hsound
  exact bucket_eq_filter _ hsound.one_le hsound.pow_le (length_cellOf _ n q) (cellOf_le _ n q)

/-- The grid over two triangles of the unit square, at the default
resolution. -/
theorem unit_square_index_sound :
    1 ≤ 2 ∧ ({} : LocatorParams Float).strategy = .grid 16 ∧
      (build 2 #[#[0.0, 0.0], #[1.0, 0.0], #[0.0, 1.0], #[1.0, 1.0]] #[[0, 1, 2], [1, 3, 2]]
        ({} : LocatorParams Float)).resolution = some (max 1 (min 16 (maxCellsPerAxis 2))) ∧
      ResolutionSound 2 (max 1 (min 16 (maxCellsPerAxis 2))) ∧
      (build 2 #[#[0.0, 0.0], #[1.0, 0.0], #[0.0, 1.0], #[1.0, 1.0]] #[[0, 1, 2], [1, 3, 2]]
        ({} : LocatorParams Float)).IndexSound (max 1 (min 16 (maxCellsPerAxis 2))) :=
  ⟨by decide, rfl, grid_index_sound (by decide) _ _ rfl⟩

end Locator

end Subsurface
