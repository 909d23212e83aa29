import Subsurface.Proofs.Numeric.Doubles
import Subsurface.Geometry.Box
/-!
Boxes of doubles.

A box grows axis by axis through `minNum` and `maxNum`, each of which returns
one of its two arguments: the new coordinate, unless it is NaN or the old one
lies strictly further out. So along each axis the minimum of a box is a least
number among the coordinates of the points fed to it, one of them, and NaN
only when all of them are (`Extreme`), the maximum likewise, and the box has
as many axes as the shortest point (`Spans`). This holds whatever the calls
that built the box, in any order and grouping (`Build.spans`); the corners of
an added box stand for the points that built it (`Extreme.replace`).

What a box spans depends only on which points were fed, so two boxes built
from the same points agree axis by axis, a zero of either sign standing for
both (`Spans.agree`), and every point fed whose coordinates are numbers lies
in the box without tolerance (`Spans.contains`).
-/

namespace Subsurface

namespace Point

theorem coord_zipWith {K : Type} [Scalar K] (f : K → K → K) {a b : Point K} {i : ℕ}
    (ha : i < a.size) (hb : i < b.size) :
    coord (Array.zipWith f a b) i = f (a.coord i) (b.coord i) := by
  simp [coord, Array.getD, ha, hb]

end Point

namespace Box

open Doubles

/-! ## Extremes of a list of doubles -/

/-- `x` is an extreme of the doubles `xs` for the order `le`: NaN exactly
when all of them are, and otherwise one of them that is `le` each of them
that is a number. -/
def Extreme (le : Float → Float → Prop) (x : Float) (xs : List Float) : Prop :=
  (x.isNaN = true ↔ ∀ y ∈ xs, y.isNaN = true) ∧
    (x.isNaN = false → x ∈ xs ∧ ∀ y ∈ xs, y.isNaN = false → le x y)

/-- The laws of an order on the numbers among doubles. -/
structure NumOrder (le : Float → Float → Prop) : Prop where
  refl : ∀ x, x.isNaN = false → le x x
  trans : ∀ x y z, x.isNaN = false → y.isNaN = false → z.isNaN = false → le x y → le y z → le x z

section Extreme

variable {le : Float → Float → Prop} (ord : NumOrder le)

theorem Extreme.congr {x : Float} {xs ys : List Float} (h : ∀ y, y ∈ xs ↔ y ∈ ys)
    (hx : Extreme le x xs) : Extreme le x ys :=
  ⟨hx.1.trans (forall_congr' fun y => imp_congr_left (h y)),
    fun hn => ⟨(h x).1 (hx.2 hn).1, fun y hy => (hx.2 hn).2 y ((h y).2 hy)⟩⟩

include ord in
theorem extreme_singleton (x : Float) : Extreme le x [x] := by
  refine ⟨by simp, fun hx => ⟨List.mem_singleton_self x, fun y hy _ => ?_⟩⟩
  rw [List.mem_singleton.1 hy]
  exact ord.refl x hx

theorem Extreme.isNaN_eq_false {x y : Float} {xs : List Float} (hx : Extreme le x xs) (hy : y ∈ xs)
    (hyn : y.isNaN = false) : x.isNaN = false := by
  cases h : x.isNaN
  · rfl
  · rw [hx.1.1 h y hy] at hyn
    cases hyn

include ord in
/-- One step of a box along an axis: the extreme `b` so far is kept when the
new value `p` is NaN or when `b` is a number `le` it; otherwise `p` is taken,
and then it is `le` `b` if `b` is a number. -/
theorem Extreme.cons {p b r : Float} {xs : List Float} (hb : Extreme le b xs)
    (hr : (p.isNaN = true ∧ r = b) ∨ (p.isNaN = false ∧ b.isNaN = false ∧ le b p ∧ r = b) ∨
      (p.isNaN = false ∧ (b.isNaN = false → le p b) ∧ r = p)) :
    Extreme le r (p :: xs) := by
  rcases hr with ⟨hp, rfl⟩ | ⟨hp, hbn, hle, rfl⟩ | ⟨hp, hle, rfl⟩
  · -- a NaN value leaves the extreme as it was
    refine ⟨?_, fun hrn => ⟨List.mem_cons_of_mem p (hb.2 hrn).1, fun y hy hyn => ?_⟩⟩
    · simp only [List.mem_cons, forall_eq_or_imp, hp, true_and]
      exact hb.1
    · rcases List.mem_cons.1 hy with rfl | hy
      · rw [hp] at hyn
        cases hyn
      · exact (hb.2 hrn).2 y hy hyn
  · refine ⟨⟨fun h => (by rw [hbn] at h; cases h), fun h => ?_⟩, fun _ => ⟨?_, fun y hy hyn => ?_⟩⟩
    · rw [h p List.mem_cons_self] at hp
      cases hp
    · exact List.mem_cons_of_mem p (hb.2 hbn).1
    · rcases List.mem_cons.1 hy with rfl | hy
      · exact hle
      · exact (hb.2 hbn).2 y hy hyn
  · refine ⟨⟨fun h => (by rw [hp] at h; cases h), fun h => ?_⟩,
      fun _ => ⟨List.mem_cons_self, fun y hy hyn => ?_⟩⟩
    · rw [h r List.mem_cons_self] at hp
      cases hp
    · rcases List.mem_cons.1 hy with rfl | hy
      · exact ord.refl y hyn
      · -- a number among the values before makes `b` a number, `le` it
        have hbn := hb.isNaN_eq_false hy hyn
        exact ord.trans r b y hp hbn hyn (hle hbn) ((hb.2 hbn).2 y hy hyn)

include ord in
/-- The values `S` may stand in for the values `Q` in an extreme: when every
number of `S` is among `Q`, `S` is all NaN exactly when `Q` is, and every
number of `Q` has a number of `S` `le` it. The corners of a box stand so for
the points that built it. -/
theorem Extreme.replace {x : Float} {S Q P : List Float} (hx : Extreme le x (S ++ P))
    (hmem : ∀ s ∈ S, s.isNaN = false → s ∈ Q)
    (hnan : (∀ s ∈ S, s.isNaN = true) ↔ ∀ q ∈ Q, q.isNaN = true)
    (hcover : ∀ q ∈ Q, q.isNaN = false → ∃ s ∈ S, s.isNaN = false ∧ le s q) :
    Extreme le x (P ++ Q) := by
  refine ⟨?_, fun hxn => ⟨?_, fun y hy hyn => ?_⟩⟩
  · rw [hx.1]
    simp only [List.mem_append, or_imp, forall_and]
    rw [hnan, and_comm]
  · rcases List.mem_append.1 (hx.2 hxn).1 with hs | hp
    · exact List.mem_append_right P (hmem x hs hxn)
    · exact List.mem_append_left Q hp
  · rcases List.mem_append.1 hy with hp | hq
    · exact (hx.2 hxn).2 y (List.mem_append_right S hp) hyn
    · obtain ⟨s, hs, hsn, hsy⟩ := hcover y hq hyn
      exact ord.trans x s y hxn hsn hyn ((hx.2 hxn).2 s (List.mem_append_left P hs) hsn) hsy

/-- Two extremes of the same values are both NaN, or numbers each `le` the
other. -/
theorem Extreme.both {x y : Float} {xs : List Float} (hx : Extreme le x xs) (hy : Extreme le y xs) :
    (x.isNaN = true ∧ y.isNaN = true) ∨
      (x.isNaN = false ∧ y.isNaN = false ∧ le x y ∧ le y x) := by
  cases hxn : x.isNaN
  · have hyn := hy.isNaN_eq_false (hx.2 hxn).1 hxn
    exact .inr ⟨rfl, hyn, (hx.2 hxn).2 y (hy.2 hyn).1 hyn, (hy.2 hyn).2 x (hx.2 hxn).1 hxn⟩
  · exact .inl ⟨rfl, hy.1.2 (hx.1.1 hxn)⟩

include ord in
/-- The corners `s` and `t` of a box spanning `Q` stand in for `Q` among the
values of an extreme, `s` being the extreme of `Q` for the same order. -/
theorem Extreme.absorb {le' : Float → Float → Prop} {x s t : Float} {P Q : List Float}
    (hx : Extreme le x (s :: t :: P)) (hs : Extreme le s Q) (ht : Extreme le' t Q) :
    Extreme le x (P ++ Q) := by
  have hx' : Extreme le x ([s, t] ++ P) := hx
  refine hx'.replace ord ?_ ?_ ?_
  · intro y hy hyn
    obtain rfl | rfl : y = s ∨ y = t := by simpa using hy
    · exact (hs.2 hyn).1
    · exact (ht.2 hyn).1
  · constructor
    · intro h
      exact hs.1.1 (h s (by simp))
    · intro h y hy
      obtain rfl | rfl : y = s ∨ y = t := by simpa using hy
      · exact hs.1.2 h
      · exact ht.1.2 h
  · intro q hq hqn
    have hsn := hs.isNaN_eq_false hq hqn
    exact ⟨s, by simp, hsn, (hs.2 hsn).2 q hq hqn⟩

end Extreme

/-- A least number. -/
abbrev Least : Float → List Float → Prop := Extreme fun x y => x ≤ y

/-- A greatest number. -/
abbrev Greatest : Float → List Float → Prop := Extreme fun x y => y ≤ x

theorem least_order : NumOrder fun x y => x ≤ y where
  refl _ hx := num_le_self hx
  trans _ _ _ hx hy hz hxy hyz := num_le_trans hx hy hz hxy hyz

theorem greatest_order : NumOrder fun x y => y ≤ x where
  refl _ hx := num_le_self hx
  trans _ _ _ hx hy hz hxy hyz := num_le_trans hz hy hx hyz hxy

theorem scalar_isNaN (x : Float) : Scalar.isNaN x = x.isNaN := rfl

theorem sub_zero_le {x y : Float} (hx : x.isNaN = false) (hy : y.isNaN = false) (h : x ≤ y) :
    x - 0 ≤ y := by
  rw [le_iff (by rw [isNaN_sub_zero]; exact hx) hy, place_sub_zero]
  exact (le_iff hx hy).1 h

theorem le_add_zero {x y : Float} (hx : x.isNaN = false) (hy : y.isNaN = false) (h : x ≤ y) :
    x ≤ y + 0 := by
  obtain ⟨hn, hp⟩ := place_add_zero y
  rw [le_iff hx (by rw [hn]; exact hy), hp]
  exact (le_iff hx hy).1 h

/-- Two doubles alike: both NaN, or equal numbers, a zero of either sign
standing for both. -/
def Alike (x y : Float) : Prop := (x.isNaN = true ∧ y.isNaN = true) ∨ (x == y) = true

/-- Two boxes alike axis by axis. -/
structure Agree (b c : Box Float) : Prop where
  size_min : b.min.size = c.min.size
  size_max : b.max.size = c.max.size
  min : ∀ i < b.min.size, Alike (b.min.coord i) (c.min.coord i)
  max : ∀ i < b.min.size, Alike (b.max.coord i) (c.max.coord i)

/-- The smaller of a new value `p` and a least value `b` so far is a least
value with `p`. -/
theorem Least.minNum {p b : Float} {xs : List Float} (hb : Least b xs) : Least (minNum p b) (p :: xs) := by
  apply hb.cons least_order
  unfold Subsurface.minNum
  rw [scalar_isNaN]
  cases hp : p.isNaN
  · by_cases hlt : b < p
    · have hbn : b.isNaN = false := by
        cases h : b.isNaN
        · rfl
        · exact absurd hlt (not_lt_of_isNaN_left h)
      exact .inr (.inl ⟨rfl, hbn, num_le_of_lt hbn hp hlt, if_neg Bool.false_ne_true ▸ if_pos hlt⟩)
    · exact .inr (.inr ⟨rfl, fun hbn => num_le_of_not_lt hbn hp hlt,
        if_neg Bool.false_ne_true ▸ if_neg hlt⟩)
  · exact .inl ⟨rfl, if_pos rfl⟩

/-- The larger of a new value `p` and a greatest value `b` so far is a
greatest value with `p`. -/
theorem Greatest.maxNum {p b : Float} {xs : List Float} (hb : Greatest b xs) :
    Greatest (maxNum p b) (p :: xs) := by
  apply hb.cons greatest_order
  unfold Subsurface.maxNum
  rw [scalar_isNaN]
  cases hp : p.isNaN
  · by_cases hlt : p < b
    · have hbn : b.isNaN = false := by
        cases h : b.isNaN
        · rfl
        · exact absurd hlt (not_lt_of_isNaN_right h)
      exact .inr (.inl ⟨rfl, hbn, num_le_of_lt hp hbn hlt, if_neg Bool.false_ne_true ▸ if_pos hlt⟩)
    · exact .inr (.inr ⟨rfl, fun hbn => num_le_of_not_lt hp hbn hlt,
        if_neg Bool.false_ne_true ▸ if_neg hlt⟩)
  · exact .inl ⟨rfl, if_pos rfl⟩

theorem Least.alike {x y : Float} {xs : List Float} (hx : Least x xs) (hy : Least y xs) :
    Alike x y := by
  rcases hx.both hy with h | ⟨hxn, hyn, hxy, hyx⟩
  · exact .inl h
  · exact .inr (num_beq_of_le_of_le hxn hyn hxy hyx)

theorem Greatest.alike {x y : Float} {xs : List Float} (hx : Greatest x xs) (hy : Greatest y xs) :
    Alike x y := by
  rcases hx.both hy with h | ⟨hxn, hyn, hxy, hyx⟩
  · exact .inl h
  · exact .inr (num_beq_of_le_of_le hxn hyn hyx hxy)

/-! ## Boxes spanning points -/

/-- The coordinates of the points `pts` along `axis`. -/
def along (axis : ℕ) (pts : List (Point Float)) : List Float := pts.map fun p => p.coord axis

theorem mem_along {P Q : List (Point Float)} (h : ∀ p, p ∈ P ↔ p ∈ Q) (axis : ℕ) (y : Float) :
    y ∈ along axis P ↔ y ∈ along axis Q := by
  simp only [along, List.mem_map, h]

/-- The box `b` spans the points `pts`: it has as many axes as the shortest
of them, and along each of its axes its corners are a least and a greatest
coordinate of the points. -/
structure Spans (b : Box Float) (pts : List (Point Float)) : Prop where
  size_max : b.max.size = b.min.size
  size_le : ∀ p ∈ pts, b.min.size ≤ p.size
  size_eq : ∃ p ∈ pts, p.size = b.min.size
  least : ∀ i < b.min.size, Least (b.min.coord i) (along i pts)
  greatest : ∀ i < b.min.size, Greatest (b.max.coord i) (along i pts)

variable {b c : Box Float} {P Q : List (Point Float)}

theorem spans_ofPoint (p : Point Float) : Spans (ofPoint p) [p] where
  size_max := rfl
  size_le q hq := by rw [List.mem_singleton.1 hq]; rfl
  size_eq := ⟨p, List.mem_singleton_self p, rfl⟩
  least i _ := extreme_singleton least_order (p.coord i)
  greatest i _ := extreme_singleton greatest_order (p.coord i)

theorem Spans.congr (h : Spans b P) (hPQ : ∀ p, p ∈ P ↔ p ∈ Q) : Spans b Q where
  size_max := h.size_max
  size_le p hp := h.size_le p ((hPQ p).2 hp)
  size_eq := by
    obtain ⟨p, hp, hps⟩ := h.size_eq
    exact ⟨p, (hPQ p).1 hp, hps⟩
  least i hi := (h.least i hi).congr (mem_along hPQ i)
  greatest i hi := (h.greatest i hi).congr (mem_along hPQ i)

theorem Spans.addPoint (h : Spans b P) (p : Point Float) : Spans (b.addPoint p) (p :: P) := by
  have hmin : (b.addPoint p).min.size = Min.min p.size b.min.size := Array.size_zipWith
  have hmax : (b.addPoint p).max.size = Min.min p.size b.min.size := by
    rw [← h.size_max]
    exact Array.size_zipWith
  constructor
  · rw [hmin, hmax]
  · intro q hq
    rcases List.mem_cons.1 hq with rfl | hq
    · omega
    · have := h.size_le q hq
      omega
  · by_cases hle : p.size ≤ b.min.size
    · exact ⟨p, List.mem_cons_self, by omega⟩
    · obtain ⟨q, hq, hqs⟩ := h.size_eq
      exact ⟨q, List.mem_cons_of_mem p hq, by omega⟩
  · intro i hi
    rw [hmin] at hi
    simp only [Box.addPoint]
    rw [Point.coord_zipWith minNum (by omega) (by omega)]
    exact (h.least i (by omega)).minNum
  · intro i hi
    rw [hmin] at hi
    simp only [Box.addPoint]
    rw [Point.coord_zipWith maxNum (by omega) (by rw [h.size_max]; omega)]
    exact (h.greatest i (by omega)).maxNum

theorem Spans.absorb (h : Spans b (c.max :: c.min :: P)) (hc : Spans c Q) : Spans b (P ++ Q) := by
  have hcmin : b.min.size ≤ c.min.size := h.size_le c.min (by simp)
  constructor
  · exact h.size_max
  · intro p hp
    rcases List.mem_append.1 hp with hp | hp
    · exact h.size_le p (by simp [hp])
    · exact le_trans hcmin (hc.size_le p hp)
  · obtain ⟨p, hp, hps⟩ := h.size_eq
    obtain ⟨q, hq, hqs⟩ := hc.size_eq
    rcases List.mem_cons.1 hp with rfl | hp
    · exact ⟨q, List.mem_append_right P hq, by rw [hqs, ← hc.size_max, hps]⟩
    rcases List.mem_cons.1 hp with rfl | hp
    · exact ⟨q, List.mem_append_right P hq, by rw [hqs, hps]⟩
    · exact ⟨p, List.mem_append_left Q hp, hps⟩
  · intro i hi
    have hci : i < c.min.size := lt_of_lt_of_le hi hcmin
    rw [along, List.map_append]
    -- the corner of the same side is the one that stands for the points
    have hswap := (h.least i hi).congr fun _ => (List.Perm.swap _ _ _).mem_iff
    exact hswap.absorb least_order (hc.least i hci) (hc.greatest i hci)
  · intro i hi
    have hci : i < c.min.size := lt_of_lt_of_le hi hcmin
    rw [along, List.map_append]
    exact (h.greatest i hi).absorb greatest_order (hc.greatest i hci) (hc.least i hci)

theorem Spans.addBox (hb : Spans b P) (hc : Spans c Q) : Spans (b.addBox c) (P ++ Q) :=
  ((hb.addPoint c.min).addPoint c.max).absorb hc

theorem Spans.foldl_addPoint (h : Spans b P) (ps : List (Point Float)) :
    Spans (ps.foldl Box.addPoint b) (ps.reverse ++ P) := by
  induction ps generalizing b P with
  | nil => exact h
  | cons q ps ih => simpa using ih (h.addPoint q)

theorem ofPoints_spans (p : Point Float) (ps : List (Point Float)) :
    ∃ b, ofPoints (p :: ps) = some b ∧ Spans b (p :: ps) :=
  ⟨_, rfl, ((spans_ofPoint p).foldl_addPoint ps).congr fun q => by simp [or_comm]⟩

theorem spans_of_ofPoints {P : List (Point Float)} (h : ofPoints P = some b) : Spans b P := by
  cases P with
  | nil => cases h
  | cons p ps =>
    obtain ⟨b', hb', hs⟩ := ofPoints_spans p ps
    rw [h, Option.some.injEq] at hb'
    exact hb' ▸ hs

/-- Along each of its axes a box's corners are both NaN, or numbers in
order. -/
theorem Spans.corners (hb : Spans b P) {i : ℕ} (hi : i < b.min.size) :
    ((b.min.coord i).isNaN = true ∧ (b.max.coord i).isNaN = true) ∨ b.min.coord i ≤ b.max.coord i := by
  have hlo := hb.least i hi
  have hhi := hb.greatest i hi
  cases hn : (b.min.coord i).isNaN
  · obtain ⟨hmem, -⟩ := hlo.2 hn
    exact .inr ((hhi.2 (hhi.isNaN_eq_false hmem hn)).2 _ hmem hn)
  · exact .inl ⟨rfl, hhi.1.2 (hlo.1.1 hn)⟩

/-- Two boxes spanning the same points agree axis by axis. -/
theorem Spans.agree (hb : Spans b P) (hc : Spans c Q) (hPQ : ∀ p, p ∈ P ↔ p ∈ Q) : Agree b c := by
  have hsize : b.min.size = c.min.size := by
    obtain ⟨p, hp, hps⟩ := hb.size_eq
    obtain ⟨q, hq, hqs⟩ := hc.size_eq
    have := hc.size_le p ((hPQ p).1 hp)
    have := hb.size_le q ((hPQ q).2 hq)
    omega
  refine ⟨hsize, by rw [hb.size_max, hc.size_max, hsize], fun i hi => ?_, fun i hi => ?_⟩
  · exact (hb.least i hi).alike ((hc.least i (hsize ▸ hi)).congr fun y => (mem_along hPQ i y).symm)
  · exact (hb.greatest i hi).alike ((hc.greatest i (hsize ▸ hi)).congr fun y => (mem_along hPQ i y).symm)

/-- A point fed to a box whose coordinates are numbers lies in the box,
without tolerance. -/
theorem Spans.contains (hb : Spans b P) {p : Point Float} (hp : p ∈ P)
    (hnum : ∀ i < p.size, (p.coord i).isNaN = false) : b.contains p 0 = true := by
  simp only [Box.contains, List.all_eq_true, List.mem_range, Bool.and_eq_true, decide_eq_true_eq]
  intro i hi
  have hx := hnum i (lt_of_lt_of_le hi (hb.size_le p hp))
  have hmem : p.coord i ∈ along i P := List.mem_map_of_mem hp
  have hlo := hb.least i hi
  have hhi := hb.greatest i hi
  have hlon := hlo.isNaN_eq_false hmem hx
  have hhin := hhi.isNaN_eq_false hmem hx
  exact ⟨sub_zero_le hlon hx ((hlo.2 hlon).2 _ hmem hx), le_add_zero hx hhin ((hhi.2 hhin).2 _ hmem hx)⟩

/-! ## Building boxes -/

/-- A sequence of calls building a box of doubles, in any order and grouping:
the box of a point, of a non-empty list of points, a box grown by a point,
and a box grown by another box. -/
inductive Build
  | point (p : Point Float)
  | points (p : Point Float) (ps : List (Point Float))
  | addPoint (b : Build) (p : Point Float)
  | addBox (b c : Build)

namespace Build

/-- The box the calls build. -/
def box : Build → Option (Box Float)
  | point p => some (ofPoint p)
  | points p ps => ofPoints (p :: ps)
  | addPoint b p => b.box.map fun x => x.addPoint p
  | addBox b c => b.box.bind fun x => c.box.map x.addBox

/-- The points fed to the box, in order, with those of the added boxes. -/
def fed : Build → List (Point Float)
  | point p => [p]
  | points p ps => p :: ps
  | addPoint b p => b.fed ++ [p]
  | addBox b c => b.fed ++ c.fed

theorem spans (e : Build) : ∃ b, e.box = some b ∧ Spans b e.fed := by
  induction e with
  | point p => exact ⟨_, rfl, spans_ofPoint p⟩
  | points p ps => exact ofPoints_spans p ps
  | addPoint e p ih =>
    obtain ⟨b, hb, hs⟩ := ih
    exact ⟨_, by simp [box, hb], (hs.addPoint p).congr fun q => by simp [fed, or_comm]⟩
  | addBox e f ihe ihf =>
    obtain ⟨b, hb, hbs⟩ := ihe
    obtain ⟨c, hc, hcs⟩ := ihf
    exact ⟨_, by simp [box, hb, hc], hbs.addBox hcs⟩

end Build

end Box

end Subsurface
