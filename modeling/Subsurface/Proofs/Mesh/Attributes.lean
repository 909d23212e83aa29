import Mathlib.Algebra.Group.Nat.Defs
import Mathlib.Data.List.Forall2
import Mathlib.Tactic.SplitIfs
import Subsurface.Mesh.Simplex
import Subsurface.Proofs.Catalog
/-!
The attribute store keeps one slot for every vertex.

An attribute of dimension `d` over `n` vertices holds `n` assigned flags and
`d · n` values, the product counted in 64-bit sizes (`Attribute.Sized`). A
store whose attributes are all so sized, and kept sorted by name, is
`VertexAttributes.Sized`; every store built from a new one by declaring,
setting, unsetting and removing attributes is sized
(`VertexAttributes.Reachable.sized`), and so is every store resized to a new
vertex count.

A sized store obeys the laws a caller reads from its operations
(`VertexAttributes.Laws`): setting a value fails exactly on a vertex out of
range, on an attribute of another dimension, or on a new attribute whose
storage overflows; a value set reads back and no other value changes;
unsetting clears one value and no other; reading and updating stay within
the stored values. Values are read as the encodings the store keeps. The laws
about values hold of an attribute whose `d · n` fits in 64 bits: a dimension
whose product wraps around holds fewer values than its vertices need.
-/

namespace Subsurface

namespace Attribute

/-- An attribute sized for `n` vertices: a flag for every vertex, the values
of every vertex counted in 64-bit sizes, and a dimension that a 64-bit size
holds. -/
structure Sized (a : Attribute) (n : Nat) : Prop where
  flags : a.assigned.size = n
  values : a.values.size = slotCount a.dimension n
  dimension : a.dimension < 2 ^ 64

variable {a a' : Attribute} {d n n' v v' : Nat}

/-! ### Counting the values -/

theorem slotCount_of_lt (h : d * n < 2 ^ 64) : slotCount d n = d * n :=
  Nat.mod_eq_of_lt (by simpa using h)

theorem slotCount_le : slotCount d n ≤ d * n := Nat.mod_le _ _

theorem range_le (hv : v < n) : v * d + d ≤ d * n :=
  calc v * d + d = (v + 1) * d := (Nat.succ_mul v d).symm
    _ ≤ n * d := Nat.mul_le_mul_right d hv
    _ = d * n := Nat.mul_comm n d

theorem range_disjoint (hne : v' ≠ v) {i : Nat} (hi : i < d) :
    v' * d + i < v * d ∨ v * d + d ≤ v' * d + i := by
  rcases Nat.lt_or_gt_of_ne hne with hlt | hlt
  · have := range_le (d := d) hlt
    rw [Nat.mul_comm d v] at this
    exact .inl (by omega)
  · have := range_le (d := d) hlt
    rw [Nat.mul_comm d v'] at this
    exact .inr (by omega)

/-! ### Reading a value -/

theorem encoded?_of_flag_false (h : a.assigned.getD v false = false) : a.encoded? v = none := by
  simp [encoded?, h]

theorem encoded?_of_le (h : a.assigned.size ≤ v) : a.encoded? v = none :=
  encoded?_of_flag_false (by simp [Array.getD_eq_getD_getElem?, Array.getElem?_eq_none h])

/-- When the values of `v` do not wrap around, the value of `v` is read from
position `v · d`. -/
theorem encoded?_eq (h : v * a.dimension + a.dimension < 2 ^ 64) :
    a.encoded? v = if a.assigned.getD v false = true ∧ v * a.dimension + a.dimension ≤ a.values.size
      then some (a.values.extract (v * a.dimension) (v * a.dimension + a.dimension)).toList
      else none := by
  have h1 : v * a.dimension % Nat.pow 2 64 = v * a.dimension := Nat.mod_eq_of_lt (by simp; omega)
  have h2 : (v * a.dimension + a.dimension) % Nat.pow 2 64 = v * a.dimension + a.dimension :=
    Nat.mod_eq_of_lt (by simpa using h)
  unfold encoded?
  dsimp only
  rw [h1, h2]
  by_cases hf : a.assigned.getD v false = true <;> simp [hf]

theorem encoded?_of_sized (hs : a.Sized n) (hfit : a.dimension * n < 2 ^ 64) (hv : v < n) :
    a.encoded? v = if a.assigned.getD v false = true
      then some (a.values.extract (v * a.dimension) (v * a.dimension + a.dimension)).toList
      else none := by
  have hle := range_le (d := a.dimension) hv
  rw [encoded?_eq (by omega), hs.values, slotCount_of_lt hfit]
  simp [hle]

theorem extract_congr {xs ys : Array Binary64} {s : Nat} (hx : s + d ≤ xs.size) (hy : s + d ≤ ys.size)
    (h : ∀ i < d, xs[s + i]? = ys[s + i]?) : (xs.extract s (s + d)).toList = (ys.extract s (s + d)).toList := by
  apply List.ext_getElem?
  intro i
  rw [Array.getElem?_toList, Array.getElem?_toList, Array.getElem?_extract, Array.getElem?_extract,
    Nat.min_eq_left hx, Nat.min_eq_left hy]
  by_cases hi : i < s + d - s
  · rw [if_pos hi, if_pos hi]
    exact h i (by omega)
  · rw [if_neg hi, if_neg hi]

theorem length_extract {xs : Array Binary64} {s : Nat} (hx : s + d ≤ xs.size) :
    (xs.extract s (s + d)).toList.length = d := by
  simp only [Array.length_toList, Array.size_extract]
  omega

/-! ### Writing a value -/

theorem write_values (a : Attribute) (v : Nat) (x : List Binary64) :
    (a.write v x).values = x.zipIdx.foldl (fun vs p => vs.set! (v * a.dimension + p.2) p.1) a.values :=
  rfl

@[simp] theorem dimension_write (x : List Binary64) : (a.write v x).dimension = a.dimension := rfl

@[simp] theorem assigned_write (x : List Binary64) : (a.write v x).assigned = a.assigned.set! v true :=
  rfl

/-- Setting consecutive positions from `off + s` on: each position of the
stretch takes its entry, when the array holds it, and the others keep theirs. -/
theorem getElem?_foldl_set (off k : Nat) : ∀ (xs : List Binary64) (s : Nat) (vs : Array Binary64),
    ((xs.zipIdx s).foldl (fun vs p => vs.set! (off + p.2) p.1) vs)[k]? =
      if off + s ≤ k ∧ k < off + s + xs.length ∧ k < vs.size then xs[k - (off + s)]? else vs[k]?
  | [], s, vs => by simp; omega
  | y :: ys, s, vs => by
    rw [List.zipIdx_cons, List.foldl_cons, getElem?_foldl_set off k ys (s + 1)]
    simp only [Array.set!_eq_setIfInBounds, Array.getElem?_setIfInBounds, Array.size_setIfInBounds,
      List.length_cons]
    by_cases hk : k = off + s
    · subst hk
      rw [if_neg (by omega), if_pos rfl, Nat.sub_self, List.getElem?_cons_zero]
      by_cases hin : off + s < vs.size
      · rw [if_pos hin, if_pos ⟨Nat.le_refl _, by omega, hin⟩]
      · rw [if_neg hin, if_neg fun h => hin h.2.2, Array.getElem?_eq_none (Nat.le_of_not_lt hin)]
    · have hne : off + s ≠ k := Ne.symm hk
      by_cases hlo : off + s ≤ k
      · have hk' : k - (off + s) = k - (off + (s + 1)) + 1 := by omega
        rw [hk', List.getElem?_cons_succ, if_neg hne]
        grind
      · grind

theorem size_foldl_set (off : Nat) : ∀ (xs : List (Binary64 × Nat)) (vs : Array Binary64),
    (xs.foldl (fun vs p => vs.set! (off + p.2) p.1) vs).size = vs.size
  | [], _ => rfl
  | _ :: xs, vs => by
    rw [List.foldl_cons, size_foldl_set off xs, Array.set!_eq_setIfInBounds, Array.size_setIfInBounds]

theorem getElem?_write_values (x : List Binary64) (k : Nat) :
    (a.write v x).values[k]? =
      if v * a.dimension ≤ k ∧ k < v * a.dimension + x.length ∧ k < a.values.size
      then x[k - v * a.dimension]? else a.values[k]? := by
  rw [write_values, getElem?_foldl_set, Nat.add_zero]

theorem Sized.write (hs : a.Sized n) (x : List Binary64) : (a.write v x).Sized n where
  flags := by simp [Array.set!_eq_setIfInBounds, hs.flags]
  values := by rw [write_values, size_foldl_set, dimension_write, hs.values]
  dimension := hs.dimension

theorem encoded?_write_self (hs : a.Sized n) (hfit : a.dimension * n < 2 ^ 64) (hv : v < n)
    {x : List Binary64} (hx : x.length = a.dimension) : (a.write v x).encoded? v = some x := by
  have hflag : (a.write v x).assigned.getD v false = true := by
    simp [Array.getD_eq_getD_getElem?, Array.set!_eq_setIfInBounds, hs.flags, hv]
  have hin : v * a.dimension + a.dimension ≤ a.values.size := by
    rw [hs.values, slotCount_of_lt hfit]
    exact range_le hv
  rw [encoded?_of_sized (hs.write x) hfit hv, if_pos hflag]
  congr 1
  apply List.ext_getElem?
  intro i
  simp only [dimension_write, Array.getElem?_toList, Array.getElem?_extract, write_values, size_foldl_set]
  rw [getElem?_foldl_set, Nat.min_eq_left hin, Nat.add_zero]
  by_cases hi : i < a.dimension
  · rw [if_pos (by omega), if_pos (by omega), Nat.add_sub_cancel_left]
  · rw [if_neg (by omega), List.getElem?_eq_none (by omega)]

theorem encoded?_write_of_ne (hs : a.Sized n) (hfit : a.dimension * n < 2 ^ 64)
    {x : List Binary64} (hx : x.length = a.dimension) (hne : v' ≠ v) :
    (a.write v x).encoded? v' = a.encoded? v' := by
  by_cases hv' : v' < n
  · have hin : v' * a.dimension + a.dimension ≤ a.values.size := by
      rw [hs.values, slotCount_of_lt hfit]
      exact range_le hv'
    have hflag : (a.write v x).assigned.getD v' false = a.assigned.getD v' false := by
      simp [Array.getD_eq_getD_getElem?, Array.set!_eq_setIfInBounds, Ne.symm hne]
    rw [encoded?_of_sized (hs.write x) hfit hv', encoded?_of_sized hs hfit hv', hflag, dimension_write,
      extract_congr (by rw [write_values, size_foldl_set]; exact hin) hin fun i hi => ?_]
    rw [getElem?_write_values, if_neg]
    have := range_disjoint hne hi (d := a.dimension)
    omega
  · rw [encoded?_of_le (by simp [Array.set!_eq_setIfInBounds, hs.flags]; omega),
      encoded?_of_le (by rw [hs.flags]; omega)]

/-! ### Unsetting a value -/

theorem encoded?_unset_self : ({ a with assigned := a.assigned.set! v false } : Attribute).encoded? v = none :=
  encoded?_of_flag_false (by
    simp [Array.getD_eq_getD_getElem?, Array.set!_eq_setIfInBounds, Array.getElem?_setIfInBounds]
    split <;> simp_all)

theorem encoded?_unset_of_ne (hne : v' ≠ v) :
    ({ a with assigned := a.assigned.set! v false } : Attribute).encoded? v' = a.encoded? v' := by
  simp [encoded?, Array.getD_eq_getD_getElem?, Array.set!_eq_setIfInBounds, Ne.symm hne]

theorem Sized.unset (hs : a.Sized n) : ({ a with assigned := a.assigned.set! v false } : Attribute).Sized n where
  flags := by simp [Array.set!_eq_setIfInBounds, hs.flags]
  values := hs.values
  dimension := hs.dimension

/-! ### A new attribute -/

theorem empty_eq_ok : Attribute.empty d n = .ok a ↔
    slotCount d n < maxSlots ∧ n < maxFlags ∧
      a = ⟨d, Array.replicate (slotCount d n) .zero, Array.replicate n false⟩ := by
  unfold Attribute.empty
  by_cases h : maxSlots ≤ slotCount d n ∨ maxFlags ≤ n
  · rw [if_pos h]
    simp only [reduceCtorEq, false_iff]
    omega
  · rw [if_neg h, Except.ok.injEq]
    constructor
    · rintro rfl
      exact ⟨by omega, by omega, rfl⟩
    · rintro ⟨-, -, rfl⟩
      rfl

theorem Sized.empty (h : Attribute.empty d n = .ok a) (hd : d < 2 ^ 64) : a.Sized n := by
  obtain ⟨-, -, rfl⟩ := empty_eq_ok.1 h
  exact ⟨Array.size_replicate, Array.size_replicate, hd⟩

theorem encoded?_empty (h : Attribute.empty d n = .ok a) : a.encoded? v = none := by
  obtain ⟨-, -, rfl⟩ := empty_eq_ok.1 h
  refine encoded?_of_flag_false ?_
  simp only [Array.getD_eq_getD_getElem?, Array.getElem?_replicate]
  split <;> rfl

/-! ### Resizing -/

theorem resize_eq_ok : a.resize n' = .ok a' ↔
    ¬((a.values.size < slotCount a.dimension n' ∧ maxSlots ≤ slotCount a.dimension n') ∨
      (a.assigned.size < n' ∧ maxFlags ≤ n')) ∧
    a' = ⟨a.dimension,
      if slotCount a.dimension n' ≤ a.values.size then a.values.extract 0 (slotCount a.dimension n')
      else a.values ++ Array.replicate (slotCount a.dimension n' - a.values.size) .zero,
      if n' ≤ a.assigned.size then a.assigned.extract 0 n'
      else a.assigned ++ Array.replicate (n' - a.assigned.size) false⟩ := by
  unfold Attribute.resize
  dsimp only
  by_cases hg : (a.values.size < slotCount a.dimension n' ∧ maxSlots ≤ slotCount a.dimension n') ∨
      (a.assigned.size < n' ∧ maxFlags ≤ n')
  · rw [if_pos hg]
    simp [hg]
  · rw [if_neg hg, Except.ok.injEq]
    exact ⟨fun h => ⟨hg, h.symm⟩, fun h => h.2.symm⟩

theorem resize_error {e : Error} (h : a.resize n' = .error e) : e = .capacityOverflow := by
  unfold Attribute.resize at h
  dsimp only at h
  split at h
  · exact (Except.error.inj h).symm
  · cases h

theorem resize_ok (hd : a.dimension * n' < maxSlots) (hn : n' < maxFlags) : ∃ a', a.resize n' = .ok a' :=
  ⟨_, resize_eq_ok.2 ⟨by have := slotCount_le (d := a.dimension) (n := n'); omega, rfl⟩⟩

theorem Sized.resize (hs : a.Sized n) (h : a.resize n' = .ok a') : a'.Sized n' := by
  obtain ⟨-, rfl⟩ := resize_eq_ok.1 h
  refine ⟨?_, ?_, hs.dimension⟩
  · dsimp only
    split <;> simp [Array.size_extract] <;> omega
  · dsimp only
    split <;> simp [Array.size_extract] <;> omega

/-- Growing an attribute keeps the value of every vertex it had, when the
values of the new count do not wrap around. -/
theorem encoded?_resize_of_lt (hs : a.Sized n) (hle : n ≤ n') (hfit : a.dimension * n' < 2 ^ 64)
    (h : a.resize n' = .ok a') (hv : v < n) : a'.encoded? v = a.encoded? v := by
  have hs' := hs.resize h
  have hfit' : a.dimension * n < 2 ^ 64 := Nat.lt_of_le_of_lt (Nat.mul_le_mul_left _ hle) hfit
  have hin : v * a.dimension + a.dimension ≤ a.values.size := by
    rw [hs.values, slotCount_of_lt hfit']
    exact range_le hv
  -- the dimension, the flags and the values below the old counts are the old ones
  have hdim : a'.dimension = a.dimension := by
    obtain ⟨-, rfl⟩ := resize_eq_ok.1 h
    rfl
  have hflag : a'.assigned.getD v false = a.assigned.getD v false := by
    have hva : v < a.assigned.size := hs.flags ▸ hv
    obtain ⟨-, rfl⟩ := resize_eq_ok.1 h
    rw [Array.getD_eq_getD_getElem?, Array.getD_eq_getD_getElem?]
    dsimp only
    split
    · rw [Array.getElem?_extract, if_pos (by omega), Nat.zero_add]
    · rw [Array.getElem?_append_left hva]
  have hslots : a.values.size ≤ slotCount a.dimension n' := by
    rw [hs.values, slotCount_of_lt hfit', slotCount_of_lt hfit]
    exact Nat.mul_le_mul_left _ hle
  have hvals : ∀ k < a.values.size, a'.values[k]? = a.values[k]? := by
    intro k hk
    obtain ⟨-, rfl⟩ := resize_eq_ok.1 h
    dsimp only
    split
    · rw [Array.getElem?_extract, if_pos (by omega), Nat.zero_add]
    · exact Array.getElem?_append_left hk
  have hgrow : a.values.size ≤ a'.values.size := by
    rw [hs'.values, hdim]
    exact hslots
  rw [encoded?_of_sized hs' (hdim ▸ hfit) (Nat.lt_of_lt_of_le hv hle), encoded?_of_sized hs hfit' hv,
    hflag, hdim]
  split
  · rw [extract_congr (Nat.le_trans hin hgrow) hin fun i hi => hvals _ (by omega)]
  · rfl

theorem encoded?_resize_of_le (hs : a.Sized n) (h : a.resize n' = .ok a') (hv : n ≤ v) :
    a'.encoded? v = none := by
  obtain ⟨-, rfl⟩ := resize_eq_ok.1 h
  refine encoded?_of_flag_false ?_
  have hva : a.assigned.size ≤ v := hs.flags ▸ hv
  dsimp only
  rw [Array.getD_eq_getD_getElem?]
  split
  · rw [Array.getElem?_extract, if_neg (by omega)]
    rfl
  · rw [Array.getElem?_append, if_neg (by omega), Array.getElem?_replicate]
    split <;> rfl

/-! ### Updating every value -/

theorem size_foldl_update (f : Binary64 → Binary64) : ∀ (ks : List Nat) (vs : Array Binary64),
    (ks.foldl (fun vs k => vs.set! k (f (vs.getD k .zero))) vs).size = vs.size
  | [], _ => rfl
  | _ :: ks, vs => by
    rw [List.foldl_cons, size_foldl_update f ks, Array.set!_eq_setIfInBounds, Array.size_setIfInBounds]

/-- Updating the values of a sized attribute that does not wrap around never
leaves its values. -/
theorem mapAssigned_ok (hs : a.Sized n) (hfit : a.dimension * n < 2 ^ 64) (f : Binary64 → Binary64) :
    ∃ a', a.mapAssigned f = .ok a' := by
  -- the loop over the vertices keeps the number of values, so every range stays inside
  have hloop : ∀ (vs' : List Nat) (vs : Array Binary64), (∀ u ∈ vs', u < n) → vs.size = a.dimension * n →
      ∃ r, vs'.foldlM (fun vs v =>
        if a.assigned.getD v false then
          let start := v * a.dimension % Nat.pow 2 64
          let stop := (v + 1) * a.dimension % Nat.pow 2 64
          if start ≤ stop ∧ stop ≤ vs.size then
            pure ((List.range' start (stop - start)).foldl (fun vs k => vs.set! k (f (vs.getD k .zero))) vs)
          else throw (Error.outOfRange ⟨start, stop, vs.size⟩)
        else pure vs) vs = (Except.ok r : Except Error (Array Binary64)) := by
    intro vs'
    induction vs' with
    | nil => exact fun vs _ _ => ⟨vs, rfl⟩
    | cons u us ih =>
      intro vs hus hsize
      have hu := hus u List.mem_cons_self
      have hend := range_le (d := a.dimension) hu
      have h1 : u * a.dimension % Nat.pow 2 64 = u * a.dimension := Nat.mod_eq_of_lt (by simp; omega)
      have h2 : (u + 1) * a.dimension % Nat.pow 2 64 = u * a.dimension + a.dimension :=
        by rw [Nat.succ_mul]; exact Nat.mod_eq_of_lt (by simp; omega)
      rw [List.foldlM_cons]
      by_cases hf : a.assigned.getD u false = true
      · simp only [hf, if_true, h1, h2]
        rw [if_pos ⟨by omega, by omega⟩]
        exact ih _ (fun w hw => hus w (List.mem_cons_of_mem _ hw)) (by rw [size_foldl_update, hsize])
      · simp only [hf]
        exact ih _ (fun w hw => hus w (List.mem_cons_of_mem _ hw)) hsize
  obtain ⟨r, hr⟩ := hloop (List.range a.assigned.size) a.values
    (fun u hu => hs.flags ▸ List.mem_range.1 hu) (by rw [hs.values, slotCount_of_lt hfit])
  exact ⟨_, by simp only [mapAssigned, hr]; rfl⟩

/-- A vertex of an attribute that does not wrap around has a value, of the
attribute's dimension, exactly when it is assigned. -/
theorem exists_encoded?_iff (hs : a.Sized n) (hfit : a.dimension * n < 2 ^ 64) :
    (∃ x, a.encoded? v = some x ∧ x.length = a.dimension) ↔ a.assigned.getD v false = true := by
  by_cases hv : v < n
  · have hin : v * a.dimension + a.dimension ≤ a.values.size := by
      rw [hs.values, slotCount_of_lt hfit]
      exact range_le hv
    rw [encoded?_of_sized hs hfit hv]
    split
    · rename_i hf
      simp only [hf, iff_true]
      exact ⟨_, rfl, length_extract hin⟩
    · rename_i hf
      simpa using hf
  · have hflag : a.assigned.getD v false = false := by
      simp [Array.getD_eq_getD_getElem?, Array.getElem?_eq_none (hs.flags ▸ Nat.le_of_not_lt hv)]
    rw [encoded?_of_flag_false hflag, hflag]
    simp

end Attribute

namespace VertexAttributes

variable {va va' : VertexAttributes} {E : List (String × Attribute)} {name name' : String}
  {a : Attribute} {v v' : Nat}

/-! ## Entries sorted by name -/

theorem mem_putEntry {p : String × Attribute} : p ∈ putEntry E name a → p = (name, a) ∨ p ∈ E := by
  induction E with
  | nil => simp [putEntry]
  | cons q E ih =>
    obtain ⟨k, b⟩ := q
    rw [putEntry]
    split_ifs
    · intro hp
      rcases List.mem_cons.1 hp with rfl | hp
      · exact .inl rfl
      · exact .inr (List.mem_cons_of_mem _ hp)
    · intro hp
      rcases List.mem_cons.1 hp with rfl | hp
      · exact .inl rfl
      · exact .inr hp
    · intro hp
      rcases List.mem_cons.1 hp with rfl | hp
      · exact .inr List.mem_cons_self
      · rcases ih hp with h | h
        · exact .inl h
        · exact .inr (List.mem_cons_of_mem _ h)

theorem lookup_putEntry_self : (putEntry E name a).lookup name = some a := by
  induction E with
  | nil => simp [putEntry]
  | cons q E ih =>
    obtain ⟨k, b⟩ := q
    rw [putEntry]
    split_ifs with h1 h2
    · simp
    · simp
    · rw [List.lookup_cons, beq_eq_false_iff_ne.2 h1]
      exact ih

theorem lookup_putEntry_of_ne (hne : name' ≠ name) : (putEntry E name a).lookup name' = E.lookup name' := by
  have hb : (name' == name) = false := beq_eq_false_iff_ne.2 hne
  induction E with
  | nil => simp [putEntry, List.lookup_cons, hb]
  | cons q E ih =>
    obtain ⟨k, b⟩ := q
    rw [putEntry]
    split_ifs with h1 h2
    · subst h1
      simp [List.lookup_cons, hb]
    · simp [List.lookup_cons, hb]
    · simp [List.lookup_cons, ih]

theorem pairwise_putEntry (h : (E.map (·.1)).Pairwise (· < ·)) :
    ((putEntry E name a).map (·.1)).Pairwise (· < ·) := by
  induction E with
  | nil => simp [putEntry]
  | cons q E ih =>
    obtain ⟨k, b⟩ := q
    rw [List.map_cons, List.pairwise_cons] at h
    rw [putEntry]
    split_ifs with h1 h2
    · subst h1
      simpa using h
    · simp only [List.map_cons, List.pairwise_cons, List.mem_cons]
      refine ⟨?_, h.1, h.2⟩
      rintro x (rfl | hx)
      · exact h2
      · exact String.lt_trans h2 (h.1 x hx)
    · have hk : k < name := by grind
      simp only [List.map_cons, List.pairwise_cons]
      refine ⟨fun x hx => ?_, ih h.2⟩
      obtain ⟨p, hp, rfl⟩ := List.mem_map.1 hx
      rcases mem_putEntry hp with rfl | hp
      · exact hk
      · exact h.1 _ (List.mem_map_of_mem hp)

theorem mem_of_lookup_eq_some (h : E.lookup name = some a) : (name, a) ∈ E := by
  obtain ⟨l₁, l₂, rfl, -⟩ := List.lookup_eq_some_iff.1 h
  simp

@[simp] theorem attribute?_putEntry_self :
    ({ va with entries := putEntry va.entries name a } : VertexAttributes).attribute? name = some a :=
  lookup_putEntry_self

theorem attribute?_putEntry_of_ne (hne : name' ≠ name) :
    ({ va with entries := putEntry va.entries name a } : VertexAttributes).attribute? name' =
      va.attribute? name' :=
  lookup_putEntry_of_ne hne

theorem encoded?_eq_bind : va.encoded? name v = (va.attribute? name).bind (·.encoded? v) := rfl

/-! ## Sized stores -/

/-- A store sized for its vertex count: attributes sorted by name, each sized
for the store's vertices. -/
structure Sized (va : VertexAttributes) : Prop where
  names : (va.entries.map (·.1)).Pairwise (· < ·)
  attributes : ∀ p ∈ va.entries, p.2.Sized va.nbVertices

theorem Sized.attribute? (hs : va.Sized) (h : va.attribute? name = some a) : a.Sized va.nbVertices :=
  hs.attributes _ (mem_of_lookup_eq_some h)

theorem Sized.putEntry (hs : va.Sized) (ha : a.Sized va.nbVertices) :
    ({ va with entries := putEntry va.entries name a } : VertexAttributes).Sized where
  names := pairwise_putEntry hs.names
  attributes p hp := by
    rcases mem_putEntry hp with rfl | hp
    · exact ha
    · exact hs.attributes p hp

theorem sized_new (n : Nat) : (VertexAttributes.new n).Sized :=
  ⟨List.Pairwise.nil, fun _ hp => absurd hp List.not_mem_nil⟩

/-! ## Declaring -/

/-- What declaring does: nothing to an attribute of the same dimension, a new
attribute for a new name, and a failure for another dimension. -/
theorem declare_eq_ok {d : Nat} : va.declare name d = .ok va' ↔
    (∃ a, va.attribute? name = some a ∧ a.dimension = d ∧ va' = va) ∨
    (va.attribute? name = none ∧
      ∃ a, Attribute.empty d va.nbVertices = .ok a ∧ va' = { va with entries := putEntry va.entries name a }) := by
  unfold declare
  cases h : va.attribute? name with
  | some a =>
    simp only [reduceCtorEq, false_and, or_false, Option.some.injEq, exists_eq_left']
    by_cases hd : a.dimension = d
    · simp [hd, eq_comm]
    · simp [hd]
  | none =>
    simp only [reduceCtorEq, false_and, exists_false, false_or, true_and]
    cases he : Attribute.empty d va.nbVertices with
    | error e => simp [bind, Except.bind]
    | ok a => simp [bind, Except.bind, pure, Except.pure, eq_comm]

theorem nbVertices_declare {d : Nat} (h : va.declare name d = .ok va') : va'.nbVertices = va.nbVertices := by
  rcases declare_eq_ok.1 h with ⟨-, -, -, rfl⟩ | ⟨-, -, -, rfl⟩ <;> rfl

theorem attribute?_declare_of_ne {d : Nat} (h : va.declare name d = .ok va') (hne : name' ≠ name) :
    va'.attribute? name' = va.attribute? name' := by
  rcases declare_eq_ok.1 h with ⟨-, -, -, rfl⟩ | ⟨-, -, -, rfl⟩
  · rfl
  · exact attribute?_putEntry_of_ne hne

/-- After declaring, the attribute is there with the dimension asked for:
the one already there, or a new one. -/
theorem attribute?_declare {d : Nat} (h : va.declare name d = .ok va') :
    ∃ a, va'.attribute? name = some a ∧ a.dimension = d ∧
      (va.attribute? name = some a ∨ (va.attribute? name = none ∧ Attribute.empty d va.nbVertices = .ok a)) := by
  rcases declare_eq_ok.1 h with ⟨a, ha, hd, rfl⟩ | ⟨hn, a, he, rfl⟩
  · exact ⟨a, ha, hd, .inl ha⟩
  · obtain ⟨-, -, rfl⟩ := Attribute.empty_eq_ok.1 he
    exact ⟨_, attribute?_putEntry_self, rfl, .inr ⟨hn, he⟩⟩

theorem declare_ok_iff {d : Nat} : (∃ va', va.declare name d = .ok va') ↔
    (∀ a, va.attribute? name = some a → a.dimension = d) ∧
      (va.attribute? name = none → Attribute.slotCount d va.nbVertices < Attribute.maxSlots ∧
        va.nbVertices < Attribute.maxFlags) := by
  simp only [declare_eq_ok]
  cases h : va.attribute? name with
  | some a => simp
  | none => simp [Attribute.empty_eq_ok]

theorem Sized.declare {d : Nat} (hs : va.Sized) (hd : d < 2 ^ 64) (h : va.declare name d = .ok va') :
    va'.Sized := by
  rcases declare_eq_ok.1 h with ⟨-, -, -, rfl⟩ | ⟨-, a, he, rfl⟩
  · exact hs
  · exact hs.putEntry (Attribute.Sized.empty he hd)

/-! ## Setting a value -/

/-- What setting a value does: out of range it fails, otherwise it declares
the attribute and writes the value into it. -/
theorem setEncoded_eq_ok {x : List Binary64} : va.setEncoded name v x = .ok va' ↔
    v < va.nbVertices ∧ ∃ va₁ a, va.declare name x.length = .ok va₁ ∧ va₁.attribute? name = some a ∧
      va' = { va₁ with entries := putEntry va₁.entries name (a.write v x) } := by
  unfold setEncoded
  by_cases hv : v ≥ va.nbVertices
  · dsimp only
    rw [if_pos hv, except_throw_bind]
    exact iff_of_false except_throw_ne_ok fun h => absurd h.1 (Nat.not_lt.2 hv)
  · simp only [hv, if_false]
    cases hd : va.declare name x.length with
    | error e => simp [bind, Except.bind]
    | ok va₁ =>
      obtain ⟨a, ha, -, -⟩ := attribute?_declare hd
      simp [bind, Except.bind, pure, Except.pure, ha, eq_comm]
      omega

theorem setEncoded_ok_iff {x : List Binary64} : (∃ va', va.setEncoded name v x = .ok va') ↔
    v < va.nbVertices ∧ ∃ va₁, va.declare name x.length = .ok va₁ := by
  simp only [setEncoded_eq_ok]
  constructor
  · rintro ⟨-, hv, va₁, -, hd, -⟩
    exact ⟨hv, va₁, hd⟩
  · rintro ⟨hv, va₁, hd⟩
    obtain ⟨a, ha, -⟩ := attribute?_declare hd
    exact ⟨_, hv, va₁, a, hd, ha, rfl⟩

theorem Sized.setEncoded {x : List Binary64} (hs : va.Sized) (hx : x.length < 2 ^ 64)
    (h : va.setEncoded name v x = .ok va') : va'.Sized ∧ va'.nbVertices = va.nbVertices := by
  obtain ⟨-, va₁, a, hd, ha, rfl⟩ := setEncoded_eq_ok.1 h
  have hs₁ := hs.declare hx hd
  have hn : va₁.nbVertices = va.nbVertices := nbVertices_declare hd
  exact ⟨hs₁.putEntry ((hs₁.attribute? ha).write x), hn⟩

/-- A value set at a vertex reads back, and no other value changes, when the
values of its attribute do not wrap around. -/
theorem encoded?_setEncoded {x : List Binary64} (hs : va.Sized) (h : va.setEncoded name v x = .ok va')
    (hfit : x.length * va.nbVertices < 2 ^ 64) :
    va'.encoded? name v = some x ∧
      ∀ name' v', (name' ≠ name ∨ v' ≠ v) → va'.encoded? name' v' = va.encoded? name' v' := by
  obtain ⟨hv, va₁, a, hd, ha, rfl⟩ := setEncoded_eq_ok.1 h
  obtain ⟨a₀, ha₀, hdim, hold⟩ := attribute?_declare hd
  rw [ha₀, Option.some.injEq] at ha
  subst ha
  have hn := nbVertices_declare hd
  have hx : x.length < 2 ^ 64 := Nat.lt_of_le_of_lt (Nat.le_mul_of_pos_right _ (by omega)) hfit
  have has : a₀.Sized va.nbVertices := hn ▸ (hs.declare hx hd).attribute? ha₀
  rw [← hdim] at hfit
  refine ⟨?_, fun name' v' hne => ?_⟩
  · rw [encoded?_eq_bind, attribute?_putEntry_self]
    exact Attribute.encoded?_write_self has hfit hv hdim.symm
  · by_cases hname : name' = name
    · subst hname
      have hv' : v' ≠ v := by simpa using hne
      rw [encoded?_eq_bind, attribute?_putEntry_self, Option.bind_some,
        Attribute.encoded?_write_of_ne has hfit hdim.symm hv', encoded?_eq_bind]
      rcases hold with hold | ⟨hnone, he⟩
      · rw [hold, Option.bind_some]
      · rw [hnone, Option.bind_none, Attribute.encoded?_empty he]
    · rw [encoded?_eq_bind, attribute?_putEntry_of_ne hname, attribute?_declare_of_ne hd hname,
        encoded?_eq_bind]

/-! ## Unsetting and removing -/

theorem unsetValue_eq (va : VertexAttributes) (name : String) (v : Nat) :
    va.unsetValue name v = match va.attribute? name with
      | some a => if v < a.assigned.size then
          { va with entries := putEntry va.entries name { a with assigned := a.assigned.set! v false } }
        else va
      | none => va := rfl

theorem encoded?_unsetValue :
    (va.unsetValue name v).encoded? name v = none ∧
      ∀ name' v', (name' ≠ name ∨ v' ≠ v) → (va.unsetValue name v).encoded? name' v' = va.encoded? name' v' := by
  rw [unsetValue_eq]
  cases ha : va.attribute? name with
  | none =>
    refine ⟨by rw [encoded?_eq_bind, ha]; rfl, fun _ _ _ => rfl⟩
  | some a =>
    dsimp only
    by_cases hv : v < a.assigned.size
    · rw [if_pos hv]
      refine ⟨?_, fun name' v' hne => ?_⟩
      · rw [encoded?_eq_bind, attribute?_putEntry_self, Option.bind_some, Attribute.encoded?_unset_self]
      · by_cases hname : name' = name
        · subst hname
          have hv' : v' ≠ v := by simpa using hne
          rw [encoded?_eq_bind, attribute?_putEntry_self, Option.bind_some,
            Attribute.encoded?_unset_of_ne hv', encoded?_eq_bind, ha, Option.bind_some]
        · rw [encoded?_eq_bind, attribute?_putEntry_of_ne hname, encoded?_eq_bind]
    · rw [if_neg hv]
      refine ⟨?_, fun _ _ _ => rfl⟩
      rw [encoded?_eq_bind, ha, Option.bind_some, Attribute.encoded?_of_le (by omega)]

theorem Sized.unsetValue (hs : va.Sized) : (va.unsetValue name v).Sized ∧ (va.unsetValue name v).nbVertices = va.nbVertices := by
  rw [unsetValue_eq]
  cases ha : va.attribute? name with
  | none => exact ⟨hs, rfl⟩
  | some a =>
    dsimp only
    split
    · exact ⟨hs.putEntry (hs.attribute? ha).unset, rfl⟩
    · exact ⟨hs, rfl⟩

theorem Sized.remove (hs : va.Sized) : (va.remove name).2.Sized ∧ (va.remove name).2.nbVertices = va.nbVertices :=
  ⟨⟨hs.names.sublist ((List.filter_sublist).map _),
    fun p hp => hs.attributes p ((List.mem_filter.1 hp).1)⟩, rfl⟩

/-! ## Updating -/

theorem mapAssigned_ok (hs : va.Sized) (ha : va.attribute? name = some a)
    (hfit : a.dimension * va.nbVertices < 2 ^ 64) (f : Binary64 → Binary64) :
    ∃ va', va.mapAssigned name f = .ok va' := by
  obtain ⟨a', h⟩ := Attribute.mapAssigned_ok (hs.attribute? ha) hfit f
  refine ⟨{ va with entries := putEntry va.entries name a' }, ?_⟩
  simp only [mapAssigned, ha, h]
  rfl

/-! ## Resizing -/

theorem resize_eq_ok {n : Nat} (h : va.resize n = .ok va') :
    va'.nbVertices = n ∧
      List.Forall₂ (fun p p' => p'.1 = p.1 ∧ p.2.resize n = .ok p'.2) va.entries va'.entries := by
  unfold resize at h
  obtain ⟨E', hE, h⟩ := except_bind_eq_ok.1 h
  rw [except_pure_eq_ok] at h
  subst h
  refine ⟨rfl, (forall₂_of_mapM_eq_ok hE).imp fun p p' hp => ?_⟩
  obtain ⟨k, b⟩ := p
  obtain ⟨b', hb, hp⟩ := except_bind_eq_ok.1 hp
  rw [except_pure_eq_ok] at hp
  subst hp
  exact ⟨rfl, hb⟩

theorem resize_error {n : Nat} {e : Error} (h : va.resize n = .error e) : e = .capacityOverflow := by
  unfold resize at h
  rcases except_bind_eq_error.1 h with hE | ⟨_, -, hpure⟩
  · obtain ⟨⟨k, b⟩, -, hb⟩ := mapM_except_eq_error hE
    rcases except_bind_eq_error.1 hb with hb | ⟨_, -, hpure⟩
    · exact Attribute.resize_error hb
    · cases hpure
  · cases hpure

theorem resize_ok {n : Nat}
    (h : ∀ p ∈ va.entries, p.2.dimension * n < Attribute.maxSlots ∧ n < Attribute.maxFlags) :
    ∃ va', va.resize n = .ok va' := by
  obtain ⟨k, E⟩ := va
  induction E with
  | nil => exact ⟨_, rfl⟩
  | cons p E ih =>
    obtain ⟨va'', hva⟩ := ih fun q hq => h q (List.mem_cons_of_mem _ hq)
    unfold resize at hva
    obtain ⟨E'', hE, -⟩ := except_bind_eq_ok.1 hva
    obtain ⟨b', hb'⟩ := Attribute.resize_ok (h p List.mem_cons_self).1 (h p List.mem_cons_self).2
    refine ⟨⟨n, (p.1, b') :: E''⟩, ?_⟩
    unfold resize
    rw [List.mapM_cons]
    dsimp only
    rw [hb', hE]
    rfl

theorem lookup_of_resized {n : Nat} (name : String) {E E' : List (String × Attribute)}
    (h : List.Forall₂ (fun p p' => p'.1 = p.1 ∧ p.2.resize n = .ok p'.2) E E') :
    (E.lookup name = none → E'.lookup name = none) ∧
      ∀ a, E.lookup name = some a → ∃ a', a.resize n = .ok a' ∧ E'.lookup name = some a' := by
  induction h with
  | nil => exact ⟨fun _ => rfl, fun _ h => by cases h⟩
  | @cons p p' E E' hp _ ih =>
    obtain ⟨k, b⟩ := p
    obtain ⟨k', b'⟩ := p'
    obtain ⟨hk, hR⟩ := hp
    dsimp only at hk hR
    subst hk
    by_cases hname : name = k'
    · subst hname
      refine ⟨fun h => by simp at h, fun a h => ?_⟩
      simp only [List.lookup_cons, BEq.rfl] at h ⊢
      cases h
      exact ⟨b', hR, rfl⟩
    · have hb : (name == k') = false := beq_eq_false_iff_ne.2 hname
      rw [List.lookup_cons, List.lookup_cons, hb]
      exact ih

theorem names_of_resized {n : Nat} {E E' : List (String × Attribute)}
    (h : List.Forall₂ (fun p p' => p'.1 = p.1 ∧ p.2.resize n = .ok p'.2) E E') :
    E'.map (·.1) = E.map (·.1) := by
  induction h with
  | nil => rfl
  | cons hp _ ih => rw [List.map_cons, List.map_cons, hp.1, ih]

theorem Sized.resize {n : Nat} (hs : va.Sized) (h : va.resize n = .ok va') :
    va'.Sized ∧ va'.nbVertices = n := by
  obtain ⟨hn, hE⟩ := resize_eq_ok h
  refine ⟨⟨names_of_resized hE ▸ hs.names, fun p' hp' => ?_⟩, hn⟩
  -- each new attribute is an old one resized
  obtain ⟨p, hp, -, hr⟩ := exists_mem_of_forall₂ hE p' hp'
  exact hn ▸ (hs.attributes p hp).resize hr

/-- Resizing keeps every value below the old vertex count, in the
attributes that do not wrap around at the new count. -/
theorem encoded?_resize_of_lt {n : Nat} (hs : va.Sized) (h : va.resize n = .ok va') (hle : va.nbVertices ≤ n)
    (hfit : ∀ a, va.attribute? name = some a → a.dimension * n < 2 ^ 64) (hv : v < va.nbVertices) :
    va'.encoded? name v = va.encoded? name v := by
  obtain ⟨-, hE⟩ := resize_eq_ok h
  obtain ⟨hnone, hsome⟩ := lookup_of_resized name hE
  rw [encoded?_eq_bind, encoded?_eq_bind]
  cases ha : va.attribute? name with
  | none => rw [show va'.attribute? name = none from hnone ha]
  | some a =>
    obtain ⟨a', hr, ha'⟩ := hsome a ha
    rw [show va'.attribute? name = some a' from ha', Option.bind_some, Option.bind_some]
    exact Attribute.encoded?_resize_of_lt (hs.attribute? ha) hle (hfit a ha) hr hv

theorem encoded?_resize_of_le {n : Nat} (hs : va.Sized) (h : va.resize n = .ok va')
    (hv : va.nbVertices ≤ v) : va'.encoded? name v = none := by
  obtain ⟨-, hE⟩ := resize_eq_ok h
  obtain ⟨hnone, hsome⟩ := lookup_of_resized name hE
  rw [encoded?_eq_bind]
  cases ha : va.attribute? name with
  | none => rw [show va'.attribute? name = none from hnone ha]; rfl
  | some a =>
    obtain ⟨a', hr, ha'⟩ := hsome a ha
    rw [show va'.attribute? name = some a' from ha', Option.bind_some]
    exact Attribute.encoded?_resize_of_le (hs.attribute? ha) hr hv

/-! ## The laws of a sized store -/

/-- What a caller of the store relies on. Values are read as the encodings
the store keeps, and read back only from an attribute whose values, `d · n`
of them, are counted without wrapping around. -/
structure Laws (va : VertexAttributes) : Prop where
  /-- Setting a value fails exactly on a vertex out of range, on an attribute
  of another dimension, or on a new attribute whose storage overflows. -/
  setValue_ok_iff : ∀ name v (x : List Float), (∃ va', va.setValue name v x = .ok va') ↔
    v < va.nbVertices ∧ (∀ a, va.attribute? name = some a → a.dimension = x.length) ∧
      (va.attribute? name = none → Attribute.slotCount x.length va.nbVertices < Attribute.maxSlots ∧
        va.nbVertices < Attribute.maxFlags)
  /-- A value set reads back, and no other value changes. -/
  setValue_reads : ∀ name v (x : List Float) va', va.setValue name v x = .ok va' →
    x.length * va.nbVertices < 2 ^ 64 →
      va'.encoded? name v = some (x.map Binary64.ofFloat) ∧
        ∀ name' v', (name' ≠ name ∨ v' ≠ v) → va'.encoded? name' v' = va.encoded? name' v'
  /-- Unsetting clears one value and no other. -/
  unsetValue_clears : ∀ name v, (va.unsetValue name v).encoded? name v = none ∧
    ∀ name' v', (name' ≠ name ∨ v' ≠ v) → (va.unsetValue name v).encoded? name' v' = va.encoded? name' v'
  /-- A vertex has a value, of the attribute's dimension, exactly when it is
  assigned. -/
  encoded?_in_range : ∀ name a, va.attribute? name = some a → a.dimension * va.nbVertices < 2 ^ 64 →
    ∀ v, (∃ x, va.encoded? name v = some x ∧ x.length = a.dimension) ↔ a.assigned.getD v false = true
  /-- Updating every assigned value never leaves the stored values. -/
  mapAssigned_ok : ∀ name a (f : Binary64 → Binary64), va.attribute? name = some a →
    a.dimension * va.nbVertices < 2 ^ 64 → ∃ va', va.mapAssigned name f = .ok va'

theorem Sized.laws (hs : va.Sized) : va.Laws where
  setValue_ok_iff name v x := by
    rw [setValue, setEncoded_ok_iff, declare_ok_iff, List.length_map]
  setValue_reads name v x va' h hfit :=
    encoded?_setEncoded hs h (by rwa [List.length_map])
  unsetValue_clears _ _ := encoded?_unsetValue
  encoded?_in_range name a ha hfit v := by
    rw [encoded?_eq_bind, ha, Option.bind_some]
    exact Attribute.exists_encoded?_iff (hs.attribute? ha) hfit
  mapAssigned_ok _ _ f ha hfit := mapAssigned_ok hs ha hfit f

/-! ## Stores reached by their operations -/

/-- One operation of a caller on a store: declaring, setting, unsetting or
removing an attribute. Dimensions and value lengths are 64-bit sizes. -/
inductive Step : VertexAttributes → VertexAttributes → Prop
  | declare {va va' : VertexAttributes} {name : String} {d : Nat} (hd : d < 2 ^ 64)
      (h : va.declare name d = .ok va') : Step va va'
  | setValue {va va' : VertexAttributes} {name : String} {v : Nat} {x : List Float}
      (hx : x.length < 2 ^ 64) (h : va.setValue name v x = .ok va') : Step va va'
  | unsetValue (va : VertexAttributes) (name : String) (v : Nat) : Step va (va.unsetValue name v)
  | remove (va : VertexAttributes) (name : String) : Step va (va.remove name).2

/-- The stores reached from a new store by its operations; a failed
operation leaves the store as it was. -/
inductive Reachable : VertexAttributes → Prop
  | new (n : Nat) : Reachable (VertexAttributes.new n)
  | step {va va' : VertexAttributes} (h : Reachable va) (hs : Step va va') : Reachable va'

theorem Sized.step (hs : va.Sized) (h : Step va va') : va'.Sized ∧ va'.nbVertices = va.nbVertices := by
  cases h with
  | declare hd h => exact ⟨hs.declare hd h, nbVertices_declare h⟩
  | setValue hx h => exact hs.setEncoded (by rwa [List.length_map]) h
  | unsetValue => exact hs.unsetValue
  | remove => exact hs.remove

theorem Reachable.sized (h : va.Reachable) : va.Sized := by
  induction h with
  | new n => exact sized_new n
  | step _ hs ih => exact (ih.step hs).1

end VertexAttributes

end Subsurface
