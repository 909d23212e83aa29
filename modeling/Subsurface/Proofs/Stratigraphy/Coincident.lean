import Mathlib
import Subsurface.Proofs.Numeric.Encodings
import Subsurface.Proofs.Geometry.Hull
import Subsurface.Stratigraphy.ItemMesh
/-!
Matching vertices by position, read in exact arithmetic.

To find the parent vertices near a point, the parent vertices are sorted once
by the total order of the encodings of their first coordinate; a binary
search finds where the first coordinates reach the point's minus the
tolerance, the run from there up to the point's plus the tolerance is kept,
and its vertices within the tolerance are sorted by distance.

The binary search halves a range that brackets the end of the prefix where
its predicate holds (`Bracket`), so on a predicate that holds on a prefix it
returns the length of that prefix (`partitionPoint_eq`). On finite encodings
the total order is the order of values (`parentOrder_sorted`), so the run
holds exactly the parents whose first coordinate lies within the tolerance of
the point's (`mem_window_iff`). A distance bounds the difference of any two
coordinates, so every parent within the tolerance is in the run, and the
matches are the parents within the tolerance, each once, nearest first
(`coincidentVertices_sorts_near_parents`).
-/

namespace Subsurface

namespace Stratigraphy

/-! ## Binary search -/

/-- The halving loop brackets `P`: the range of `size` items from `base` lies
within the `n` items and holds the end `P` of the prefix. -/
structure Bracket (n P base size : ℕ) : Prop where
  pos : 0 < size
  lo : base ≤ P
  hi : P ≤ base + size
  fits : base + size ≤ n

section Search

variable {α : Type} [Inhabited α] {xs : Array α} {pred : α → Bool} {P : ℕ}
  (hpred : ∀ i < xs.size, pred (xs.getD i default) = decide (i < P))
include hpred

/-- One halving keeps `P` bracketed: the middle item tells on which side of
it `P` lies. -/
theorem Bracket.step {base size : ℕ} (h : Bracket xs.size P base size) (hs : 1 < size) :
    Bracket xs.size P (if pred (xs.getD (base + size / 2) default) then base + size / 2 else base)
      (size - size / 2) := by
  obtain ⟨hpos, hlo, hhi, hfits⟩ := h
  rw [hpred _ (by omega)]
  by_cases hP : base + size / 2 < P
  · rw [if_pos (decide_eq_true hP)]
    exact ⟨by omega, by omega, by omega, by omega⟩
  · rw [if_neg (by simpa using hP)]
    exact ⟨by omega, by omega, by omega, by omega⟩

/-- The halving loop, given fuel for its halvings, ends on a range of one
item that brackets `P`. -/
theorem bracket_halve : ∀ (fuel base size : ℕ), Bracket xs.size P base size → size ≤ fuel + 1 →
    Bracket xs.size P (halve xs pred fuel base size) 1
  | 0, base, size, h, hfuel => by
    obtain rfl : size = 1 := by have := h.pos; omega
    exact h
  | fuel + 1, base, size, h, hfuel => by
    unfold halve
    by_cases hs : size ≤ 1
    · rw [if_pos hs]
      obtain rfl : size = 1 := by have := h.pos; omega
      exact h
    · rw [if_neg hs]
      exact bracket_halve fuel _ _ (h.step hpred (by omega)) (by omega)

/-- On a predicate that holds on the first `P` items only, the binary search
returns `P`. -/
theorem partitionPoint_eq (hP : P ≤ xs.size) : partitionPoint xs pred = P := by
  unfold partitionPoint
  by_cases h0 : xs.size = 0
  · rw [if_pos h0]
    omega
  · rw [if_neg h0]
    obtain ⟨-, hlo, hhi, hfits⟩ := bracket_halve hpred xs.size 0 xs.size
      ⟨by omega, Nat.zero_le P, by omega, by omega⟩ (by omega)
    -- the one item left tells whether `P` lies past it
    dsimp only
    rw [hpred _ (by omega)]
    by_cases hlt : halve xs pred xs.size 0 xs.size < P
    · rw [if_pos (decide_eq_true hlt)]
      omega
    · rw [if_neg (by simpa using hlt)]
      omega

end Search

/-! ## Runs of a sorted list -/

section Runs

variable {α : Type} {p : α → Bool} {l : List α}

/-- On a list where `p` holding at an item makes it hold at every item
before, `p` holds exactly on the items `takeWhile` keeps. -/
theorem getElem_iff_lt_takeWhile (hmono : l.Pairwise fun a b => p b = true → p a = true) :
    ∀ (i : ℕ) (hi : i < l.length), p l[i] = true ↔ i < (l.takeWhile p).length := by
  induction l with
  | nil => intro i hi; simp at hi
  | cons a l ih =>
    intro i hi
    rw [List.pairwise_cons] at hmono
    cases ha : p a with
    | true =>
      rw [List.takeWhile_cons_of_pos ha, List.length_cons]
      cases i with
      | zero => simp [ha]
      | succ i =>
        rw [List.getElem_cons_succ, ih hmono.2 i (by simpa using hi)]
        omega
    | false =>
      rw [List.takeWhile_cons_of_neg (by simp [ha]), List.length_nil]
      cases i with
      | zero => simp [ha]
      | succ i =>
        -- `p` at a later item would make it hold at `a`
        rw [List.getElem_cons_succ]
        refine ⟨fun h => ?_, fun h => absurd h (Nat.not_lt_zero _)⟩
        rw [hmono.1 _ (List.getElem_mem _) h] at ha
        cases ha

theorem mem_dropWhile_iff (hmono : l.Pairwise fun a b => p b = true → p a = true) {x : α} :
    x ∈ l.dropWhile p ↔ x ∈ l ∧ p x = false := by
  induction l with
  | nil => simp
  | cons a l ih =>
    rw [List.pairwise_cons] at hmono
    cases ha : p a with
    | true =>
      rw [List.dropWhile_cons_of_pos ha, ih hmono.2, List.mem_cons]
      constructor
      · exact fun h => ⟨.inr h.1, h.2⟩
      · rintro ⟨rfl | hx, hpx⟩
        · rw [ha] at hpx
          cases hpx
        · exact ⟨hx, hpx⟩
    | false =>
      rw [List.dropWhile_cons_of_neg (by simp [ha])]
      refine ⟨fun hx => ⟨hx, ?_⟩, fun h => h.1⟩
      rcases List.mem_cons.1 hx with rfl | hx
      · exact ha
      · -- `p` at a later item would make it hold at `a`
        cases hpx : p x
        · rfl
        · rw [hmono.1 x hx hpx] at ha
          cases ha

theorem mem_takeWhile_iff (hmono : l.Pairwise fun a b => p b = true → p a = true) {x : α} :
    x ∈ l.takeWhile p ↔ x ∈ l ∧ p x = true := by
  induction l with
  | nil => simp
  | cons a l ih =>
    rw [List.pairwise_cons] at hmono
    cases ha : p a with
    | true =>
      rw [List.takeWhile_cons_of_pos ha, List.mem_cons, ih hmono.2, List.mem_cons]
      constructor
      · rintro (rfl | ⟨hx, hpx⟩)
        · exact ⟨.inl rfl, ha⟩
        · exact ⟨.inr hx, hpx⟩
      · rintro ⟨rfl | hx, hpx⟩
        · exact .inl rfl
        · exact .inr ⟨hx, hpx⟩
    | false =>
      rw [List.takeWhile_cons_of_neg (by simp [ha])]
      refine ⟨fun hx => absurd hx List.not_mem_nil, fun ⟨hx, hpx⟩ => ?_⟩
      rcases List.mem_cons.1 hx with rfl | hx
      · rw [ha] at hpx
        cases hpx
      · rw [hmono.1 x hx hpx] at ha
        cases ha

theorem drop_length_takeWhile : l.drop (l.takeWhile p).length = l.dropWhile p := by
  calc l.drop (l.takeWhile p).length
      = (l.takeWhile p ++ l.dropWhile p).drop (l.takeWhile p).length := by
        rw [List.takeWhile_append_dropWhile]
    _ = l.dropWhile p := List.drop_left

end Runs

/-! ## The window of a sorted list -/

section Window

variable {α : Type} [Inhabited α] {l : List α} {x : α → ℝ} {lo hi : ℝ} {below upTo : α → Bool}

/-- On a list sorted by `x`, the binary search for the first item not below
`lo`, followed by the run up to `hi`, keeps exactly the items whose `x` lies
in `[lo, hi]`. -/
theorem mem_window_iff (hsorted : l.Pairwise fun a b => x a ≤ x b)
    (hbelow : ∀ a, below a = true ↔ x a < lo) (hupTo : ∀ a, upTo a = true ↔ x a ≤ hi) {a : α} :
    a ∈ (l.drop (partitionPoint l.toArray below)).takeWhile upTo ↔ a ∈ l ∧ lo ≤ x a ∧ x a ≤ hi := by
  have hmono : l.Pairwise fun a b => below b = true → below a = true :=
    hsorted.imp fun hab hb => (hbelow _).2 (lt_of_le_of_lt hab ((hbelow _).1 hb))
  -- the search stops where the items below `lo` end
  have hstart : partitionPoint l.toArray below = (l.takeWhile below).length := by
    refine partitionPoint_eq (fun i hi => ?_) (by simpa using (List.takeWhile_sublist below).length_le)
    rw [List.size_toArray] at hi
    rw [Array.getD_eq_getD_getElem?, List.getElem?_toArray, List.getElem?_eq_getElem hi,
      Option.getD_some]
    exact Bool.eq_iff_iff.2 ((getElem_iff_lt_takeWhile hmono i hi).trans decide_eq_true_iff.symm)
  have hrest : (l.dropWhile below).Pairwise fun a b => upTo b = true → upTo a = true :=
    (hsorted.sublist (List.dropWhile_sublist below)).imp fun hab hb =>
      (hupTo _).2 (hab.trans ((hupTo _).1 hb))
  rw [hstart, drop_length_takeWhile, mem_takeWhile_iff hrest, mem_dropWhile_iff hmono, hupTo,
    Bool.eq_false_iff, ne_eq, hbelow, not_lt, and_assoc]

end Window

/-! ## Parents in the order of their first coordinate -/

/-- The first stored coordinate of a parent vertex, zero for a vertex without
one. -/
def firstStored (parents : Array (Array Binary64)) (p : ℕ) : Binary64 :=
  (parents.getD p #[]).getD 0 .zero

/-- The parent vertices in the total order of their first coordinates. -/
def parentOrder (parents : Array (Array Binary64)) : List ℕ :=
  (List.range parents.size).mergeSort fun a b => totalLe (firstStored parents a) (firstStored parents b)

theorem mem_parentOrder {parents : Array (Array Binary64)} {p : ℕ} :
    p ∈ parentOrder parents ↔ p < parents.size := by
  rw [parentOrder, List.mem_mergeSort, List.mem_range]

theorem nodup_parentOrder (parents : Array (Array Binary64)) : (parentOrder parents).Nodup :=
  (List.mergeSort_perm _ _).nodup_iff.2 List.nodup_range

theorem totalKey_toNat (x : Binary64) : (totalKey x).toNat =
    if x.bits.toNat < 2 ^ 63 then 2 ^ 63 + x.magnitude else 2 ^ 63 - 1 - x.magnitude := by
  have hlt := x.bits.toNat_lt
  unfold totalKey Binary64.magnitude
  by_cases hs : x.bits.toNat < 2 ^ 63
  · have hsign : (x.bits >>> 63 == 1) = false := by
      rw [beq_eq_false_iff_ne, ne_eq, Binary64.sign_eq_one_iff]
      omega
    rw [if_neg (by rw [hsign]; exact Bool.false_ne_true), if_pos hs, UInt64.toNat_or,
      show ((1 : UInt64) <<< 63).toNat = 2 ^ 63 * 1 from rfl, Nat.or_comm,
      ← Nat.two_pow_add_eq_or_of_lt hs, Nat.mod_eq_of_lt hs]
    omega
  · have hsign : (x.bits >>> 63 == 1) = true := by
      rw [beq_iff_eq, Binary64.sign_eq_one_iff]
      omega
    rw [if_pos hsign, if_neg hs, UInt64.toNat_not]
    simp only [UInt64.size] at hlt ⊢
    omega

theorem rank_le_of_totalLe {a b : Binary64} (h : totalLe a b = true) : a.rank ≤ b.rank := by
  unfold totalLe at h
  rw [decide_eq_true_eq, UInt64.le_iff_toNat_le, totalKey_toNat, totalKey_toNat] at h
  have ha := a.magnitude_lt
  have hb := b.magnitude_lt
  rw [Binary64.rank_eq, Binary64.rank_eq]
  split_ifs at h ⊢ <;> omega

/-- When every first coordinate is finite, the total order of encodings sorts
the parents by the value of their first coordinate. -/
theorem parentOrder_sorted {parents : Array (Array Binary64)}
    (hfin : ∀ p < parents.size, (firstStored parents p).IsFinite) :
    (parentOrder parents).Pairwise fun a b => (firstStored parents a).toReal ≤ (firstStored parents b).toReal := by
  have hsorted := List.pairwise_mergeSort
    (fun a b c (hab : totalLe (firstStored parents a) (firstStored parents b) = true) hbc => by
      unfold totalLe at hab hbc ⊢
      rw [decide_eq_true_eq] at hab hbc ⊢
      exact UInt64.le_trans hab hbc)
    (fun a b => by
      unfold totalLe
      rw [Bool.or_eq_true, decide_eq_true_eq, decide_eq_true_eq]
      exact UInt64.le_total _ _)
    (List.range parents.size)
  refine hsorted.imp_of_mem fun ha hb hab => ?_
  rw [mem_parentOrder] at ha hb
  exact Binary64.toReal_le_of_rank_le (hfin _ ha) (hfin _ hb) (rank_le_of_totalLe hab)

/-! ## Distances -/

/-- The coordinates of an encoded point are the values of its encodings,
zero past the last. -/
theorem coord_ofEncoded (c : Array Binary64) (i : ℕ) :
    (Point.ofEncoded c : Point ℝ).coord i = (c.getD i .zero).toReal := by
  unfold Point.coord Point.ofEncoded
  by_cases hi : i < c.size
  · simp [Array.getD, hi]
  · simp [Array.getD, hi, Binary64.zero, Binary64.toReal]

/-- The distance of two points bounds the difference of their coordinates
along every axis they share. -/
theorem abs_coord_sub_le_distance {a b : Point ℝ} {i : ℕ} (ha : i < a.size) (hb : i < b.size) :
    |a.coord i - b.coord i| ≤ Point.distance a b := by
  rw [Point.distance, Point.norm, Exact.sqrt_eq, Point.normSq_eq_sum, ← Real.sqrt_sq_eq_abs,
    ← Point.coord_sub a b i ha hb]
  apply Real.sqrt_le_sqrt
  refine Finset.single_le_sum (fun j _ => sq_nonneg ((Point.sub a b).coord j)) ?_
  rw [Finset.mem_range, Point.size_sub]
  omega

/-- Sorting candidates `(distance, vertex)` by distance and keeping the
vertices sorts the vertices by distance. -/
theorem map_snd_mergeSort {F : List (ℝ × ℕ)} {le : ℝ × ℕ → ℝ × ℕ → Bool} {d : ℕ → ℝ}
    (hle : ∀ a b, le a b = true ↔ a.1 ≤ b.1) (hF : ∀ e ∈ F, e.1 = d e.2) :
    ((F.mergeSort le).map (·.2)).Perm (F.map (·.2)) ∧
      ((F.mergeSort le).map (·.2)).Pairwise fun p p' => d p ≤ d p' := by
  refine ⟨(List.mergeSort_perm F le).map _, ?_⟩
  have hsorted := List.pairwise_mergeSort
    (fun a b c hab hbc => (hle a c).2 (((hle a b).1 hab).trans ((hle b c).1 hbc)))
    (fun a b => by
      rw [Bool.or_eq_true, hle, hle]
      exact le_total _ _)
    F
  rw [List.pairwise_map]
  refine hsorted.imp_of_mem fun ha hb hab => ?_
  rw [List.mem_mergeSort] at ha hb
  rw [← hF _ ha, ← hF _ hb]
  exact (hle _ _).1 hab

/-- The candidates of a window, kept within the tolerance and sorted by
distance: when the window is taken from a list without repeats sorted by
first coordinate, and a distance bounds the difference of first coordinates,
they are the vertices of the list within the tolerance, each once, sorted by
distance. -/
theorem sorted_near_of_window {l : List ℕ} {x d : ℕ → ℝ} {c t : ℝ} {below upTo : ℕ → Bool}
    {keep : ℝ × ℕ → Bool} {le : ℝ × ℕ → ℝ × ℕ → Bool} {near : List ℕ}
    (hsorted : l.Pairwise fun a b => x a ≤ x b) (hnodup : l.Nodup)
    (hbelow : ∀ a, below a = true ↔ x a < c - t) (hupTo : ∀ a, upTo a = true ↔ x a ≤ c + t)
    (hkeep : ∀ e, keep e = true ↔ e.1 ≤ t) (hle : ∀ a b, le a b = true ↔ a.1 ≤ b.1)
    (hnear : near.Nodup) (hmem : ∀ p, p ∈ near ↔ p ∈ l ∧ d p ≤ t)
    (hbound : ∀ p ∈ l, |c - x p| ≤ d p) :
    (((((l.drop (partitionPoint l.toArray below)).takeWhile upTo).map fun p => (d p, p)).filter
        keep).mergeSort le |>.map (·.2)).Perm near ∧
      (((((l.drop (partitionPoint l.toArray below)).takeWhile upTo).map fun p => (d p, p)).filter
        keep).mergeSort le |>.map (·.2)).Pairwise fun p p' => d p ≤ d p' := by
  set W := (l.drop (partitionPoint l.toArray below)).takeWhile upTo with hW
  have hwin : ∀ p, p ∈ W ↔ p ∈ l ∧ c - t ≤ x p ∧ x p ≤ c + t := fun p =>
    mem_window_iff hsorted hbelow hupTo
  have hWnodup : W.Nodup :=
    ((List.takeWhile_sublist upTo).trans (List.drop_sublist _ l)).nodup hnodup
  obtain ⟨hperm, hpair⟩ := map_snd_mergeSort (d := d) hle (F := (W.map fun p => (d p, p)).filter keep)
    fun e he => by
      obtain ⟨p, -, rfl⟩ := List.mem_map.1 (List.mem_filter.1 he).1
      rfl
  refine ⟨hperm.trans ?_, hpair⟩
  -- the kept vertices are the window's within the tolerance, all of the list's within it
  rw [List.filter_map, List.map_map]
  have hid : ((·.2) ∘ fun p => (d p, p)) = id := rfl
  rw [hid, List.map_id]
  refine (List.perm_ext_iff_of_nodup (hWnodup.filter _) hnear).2 fun p => ?_
  rw [List.mem_filter, hmem, hwin, Function.comp_apply, hkeep]
  constructor
  · exact fun ⟨⟨hp, _⟩, hd⟩ => ⟨hp, hd⟩
  · rintro ⟨hp, hd⟩
    have habs := (hbound p hp).trans hd
    rw [abs_sub_le_iff] at habs
    exact ⟨⟨hp, by linarith, by linarith⟩, hd⟩

/-- For each item point with a coordinate, among parent vertices each with a
first coordinate that is a finite encoding, the matches read in exact
arithmetic are the parent vertices within the tolerance of the point, each
once, as a filter over all parents finds them, sorted by distance. -/
theorem coincidentVertices_sorts_near_parents {items : Array (Point ℝ)}
    {parents : Array (Array Binary64)} (t : ℝ)
    (hparents : ∀ c ∈ parents, 0 < c.size ∧ (c.getD 0 .zero).IsFinite)
    {i : ℕ} {q : Point ℝ} (hq : items[i]? = some q) (hsize : 0 < q.size) :
    ((coincidentVertices items parents t).getD i []).Perm
        ((List.range parents.size).filter fun p =>
          decide (Point.distance q (Point.ofEncoded (parents.getD p #[])) ≤ t)) ∧
      ((coincidentVertices items parents t).getD i []).Pairwise fun p p' =>
        Point.distance q (Point.ofEncoded (parents.getD p #[])) ≤
          Point.distance q (Point.ofEncoded (parents.getD p' #[])) := by
  have hparent : ∀ p < parents.size,
      0 < (parents.getD p #[]).size ∧ (firstStored parents p).IsFinite := by
    intro p hp
    rw [firstStored, Array.getD_eq_getD_getElem?, Array.getElem?_eq_getElem hp, Option.getD_some]
    exact hparents _ (Array.getElem_mem hp)
  unfold coincidentVertices
  rw [Array.getD_eq_getD_getElem?, Array.getElem?_map, hq, Option.map_some, Option.getD_some]
  refine sorted_near_of_window (parentOrder_sorted fun p hp => (hparent p hp).2)
    (nodup_parentOrder parents) (fun _ => decide_eq_true_iff) (fun _ => decide_eq_true_iff)
    (fun e => ?_) (fun _ _ => decide_eq_true_iff) (List.nodup_range.filter _) (fun p => ?_)
    (fun p hp => ?_)
  · rcases e with ⟨dist, p⟩
    exact decide_eq_true_iff
  · rw [List.mem_filter, List.mem_range, List.mem_mergeSort, List.mem_range, decide_eq_true_iff]
  · -- a distance bounds the difference of first coordinates
    have hpn := mem_parentOrder.1 hp
    rw [firstStored, ← coord_ofEncoded]
    have hsize' : 0 < (Point.ofEncoded (parents.getD p #[]) : Point ℝ).size := by
      simpa [Point.ofEncoded] using (hparent p hpn).1
    exact abs_coord_sub_le_distance hsize hsize'

/-- At the origin with tolerance 2, among parent vertices at 1 and at 0. -/
theorem origin_matches_sorted :
    ((coincidentVertices (#[#[0]] : Array (Point ℝ)) #[#[⟨0x3FF0000000000000⟩], #[.zero]] 2).getD 0 []).Perm
        ((List.range 2).filter fun p => decide (Point.distance (#[0] : Point ℝ)
          (Point.ofEncoded ((#[#[⟨0x3FF0000000000000⟩], #[.zero]] : Array (Array Binary64)).getD p #[])) ≤ 2)) ∧
      ((coincidentVertices (#[#[0]] : Array (Point ℝ)) #[#[⟨0x3FF0000000000000⟩], #[.zero]] 2).getD 0 []).Pairwise
        fun p p' => Point.distance (#[0] : Point ℝ)
            (Point.ofEncoded ((#[#[⟨0x3FF0000000000000⟩], #[.zero]] : Array (Array Binary64)).getD p #[])) ≤
          Point.distance (#[0] : Point ℝ)
            (Point.ofEncoded ((#[#[⟨0x3FF0000000000000⟩], #[.zero]] : Array (Array Binary64)).getD p' #[])) := by
  refine coincidentVertices_sorts_near_parents 2 (fun c hc => ?_) rfl (by decide)
  simp only [List.mem_toArray, List.mem_cons, List.not_mem_nil, or_false] at hc
  rcases hc with rfl | rfl
  · exact ⟨by decide, by decide⟩
  · exact ⟨by decide, by decide⟩

end Stratigraphy

end Subsurface
