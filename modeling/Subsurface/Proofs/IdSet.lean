import Subsurface.Topology.IdSet
import Mathlib.Data.List.Nodup
import Mathlib.Data.List.Basic
/-!
Ordered sets of identifiers are their lists of members.

An `IdSet` keeps its members in slots and records the slot of each member.
It is well formed (`IdSet.WF`) when no member occupies two slots and the
records are, in some order, exactly the occupied slots with their members:
each member is recorded at the slot that holds it, and a slot that no record
names is empty. Every call keeps this: inserting appends a slot and its
record, removing empties one slot and drops its record, and compaction drops
the empty slots and records each member at its new slot.

A well-formed set stands for the list of its members, and each call is the
same call on that list: inserting an absent member appends it, removing a
present one erases it, and the queries read the list
(`IdSet.ofList_run_simulates_list`).
-/

namespace Subsurface

/-! ## Lists keyed by identifiers -/

section Keyed

variable {β : Type} {a : List (Uuid × β)} {k : Uuid} {v : β}

theorem lookup_cons_ite (a : List (Uuid × β)) (x k : Uuid) (v : β) :
    ((x, v) :: a).lookup k = if k = x then some v else a.lookup k := by
  by_cases h : k = x
  · subst h
    simp
  · have : (k == x) = false := by simpa using h
    simp [List.lookup_cons, this, h]

theorem mem_of_lookup (h : a.lookup k = some v) : (k, v) ∈ a := by
  obtain ⟨l₁, l₂, rfl, -⟩ := List.lookup_eq_some_iff.1 h
  simp

theorem lookup_of_mem (hk : (a.map (·.1)).Nodup) (h : (k, v) ∈ a) : a.lookup k = some v := by
  induction a with
  | nil => cases h
  | cons e a ih =>
    simp only [List.map_cons, List.nodup_cons] at hk
    rw [lookup_cons_ite]
    rcases List.mem_cons.1 h with rfl | h
    · simp
    · have hne : k ≠ e.1 := fun he => hk.1 (he ▸ List.mem_map_of_mem h)
      rw [if_neg hne]
      exact ih hk.2 h

theorem lookup_eq_none_of_not_mem (h : k ∉ a.map (·.1)) : a.lookup k = none := by
  refine List.lookup_eq_none_iff.2 fun e he => ?_
  have hne : e.1 ≠ k := fun he' => h (he' ▸ List.mem_map_of_mem he)
  simpa using Ne.symm hne

theorem lookup_isSome_iff : (a.lookup k).isSome ↔ k ∈ a.map (·.1) := by
  constructor
  · intro h
    obtain ⟨w, hw⟩ := Option.isSome_iff_exists.1 h
    exact List.mem_map_of_mem (mem_of_lookup hw)
  · intro h
    cases hl : a.lookup k with
    | some w => rfl
    | none =>
      obtain ⟨e, he, rfl⟩ := List.mem_map.1 h
      simpa using List.lookup_eq_none_iff.1 hl e he

theorem lookup_eq_some_iff (hk : (a.map (·.1)).Nodup) : a.lookup k = some v ↔ (k, v) ∈ a :=
  ⟨mem_of_lookup, lookup_of_mem hk⟩

end Keyed

namespace IdSet

variable {s : IdSet} {x y : Uuid} {i j : Nat}

/-! ## Records -/

theorem record_of_lookup_eq_none {ps : List (Uuid × Nat)} (h : ps.lookup y = none) (i : Nat) :
    record ps y i = ps ++ [(y, i)] := by
  have hany : ps.any (·.1 == y) = false := by
    rw [List.any_eq_false]
    intro e he hy
    have := List.lookup_eq_none_iff.1 h e he
    simp_all
  simp [record, hany]

theorem lookup_map_record {ps : List (Uuid × Nat)} (hx : x ≠ y) :
    (ps.map fun e => if e.1 == y then (y, i) else e).lookup x = ps.lookup x := by
  induction ps with
  | nil => rfl
  | cons e ps ih =>
    obtain ⟨z, n⟩ := e
    by_cases hz : z = y
    · subst hz
      simp only [List.map_cons, beq_self_eq_true, if_true, lookup_cons_ite, if_neg hx, ih]
    · have hne : (z == y) = false := by simpa using hz
      simp only [List.map_cons, hne, Bool.false_eq_true, if_false, lookup_cons_ite, ih]

theorem record_cons_of_ne {ps : List (Uuid × Nat)} {z : Uuid} (hz : z ≠ y) (n : Nat) :
    record ((z, n) :: ps) y i = (z, n) :: record ps y i := by
  unfold record
  by_cases hany : ps.any (·.1 == y) = true <;> simp [hz, hany]

theorem lookup_record (ps : List (Uuid × Nat)) (y x : Uuid) (i : Nat) :
    (record ps y i).lookup x = if x = y then some i else ps.lookup x := by
  induction ps with
  | nil => simp [record, lookup_cons_ite]
  | cons e ps ih =>
    obtain ⟨z, n⟩ := e
    by_cases hz : z = y
    · subst hz
      have hany : ((z, n) :: ps).any (·.1 == z) = true := by simp
      rw [record, if_pos hany]
      simp only [List.map_cons, beq_self_eq_true, if_true, lookup_cons_ite]
      by_cases hx : x = z
      · simp [hx]
      · rw [lookup_map_record hx]
        simp [hx]
    · rw [record_cons_of_ne hz, lookup_cons_ite, lookup_cons_ite, ih]
      by_cases hx : x = z
      · subst hx
        simp [hz]
      · simp [hx]

theorem map_fst_record {ps : List (Uuid × Nat)} (h : y ∈ ps.map (·.1)) (i : Nat) :
    (record ps y i).map (·.1) = ps.map (·.1) := by
  have hany : ps.any (·.1 == y) = true := by
    obtain ⟨e, he, rfl⟩ := List.mem_map.1 h
    exact List.any_eq_true.2 ⟨e, he, by simp⟩
  rw [record, if_pos hany, List.map_map]
  refine List.map_congr_left fun e _ => ?_
  by_cases he : e.1 = y <;> simp [he]

/-- Recording new slots for members that all have a record, one slot each,
keeps the members and answers with the new slots. -/
theorem foldl_record : ∀ {zs ps : List (Uuid × Nat)}, (zs.map (·.1)).Nodup →
    (∀ e ∈ zs, e.1 ∈ ps.map (·.1)) →
      (zs.foldl (fun ps e => record ps e.1 e.2) ps).map (·.1) = ps.map (·.1) ∧
      ∀ x, (zs.foldl (fun ps e => record ps e.1 e.2) ps).lookup x = (zs.lookup x).or (ps.lookup x)
  | [], _, _, _ => ⟨rfl, fun _ => rfl⟩
  | (z, j) :: zs, ps, hz, hsub => by
    simp only [List.map_cons, List.nodup_cons] at hz
    have hkeys := map_fst_record (hsub (z, j) List.mem_cons_self) j
    have hsub' : ∀ e ∈ zs, e.1 ∈ (record ps z j).map (·.1) :=
      fun e he => hkeys ▸ hsub e (List.mem_cons_of_mem _ he)
    obtain ⟨ih₁, ih₂⟩ := foldl_record hz.2 hsub'
    refine ⟨ih₁.trans hkeys, fun x => ?_⟩
    rw [List.foldl_cons, ih₂, lookup_record, lookup_cons_ite]
    by_cases hx : x = z
    · subst hx
      simp [lookup_eq_none_of_not_mem hz.1]
    · simp [hx]

/-! ## Well-formed slots -/

/-- The occupied slots, each as its member and index, in slot order. -/
def occupied (s : IdSet) : List (Uuid × Nat) :=
  s.slots.zipIdx.filterMap fun e => e.1.map (·, e.2)

theorem mem_occupied : (x, i) ∈ s.occupied ↔ s.slots[i]? = some (some x) := by
  simp only [occupied, List.mem_filterMap, List.mem_zipIdx_iff_getElem?, Option.map_eq_some_iff,
    Prod.mk.injEq]
  constructor
  · rintro ⟨⟨o, n⟩, hn, y, rfl, rfl, rfl⟩
    exact hn
  · intro h
    exact ⟨(some x, i), h, x, rfl, rfl, rfl⟩

theorem map_fst_occupied (s : IdSet) : s.occupied.map (·.1) = s.toList := by
  rw [occupied, List.map_filterMap, toList]
  conv_rhs => rw [← List.zipIdx_map_fst 0 s.slots, List.filterMap_map]
  congr 1
  funext e
  obtain ⟨o, n⟩ := e
  cases o <;> rfl

theorem nodup_occupied (s : IdSet) : s.occupied.Nodup := by
  refine List.Nodup.filterMap ?_ ?_
  · rintro ⟨o, n⟩ ⟨o', n'⟩ ⟨y, m⟩ h h'
    simp only [Option.mem_def, Option.map_eq_some_iff, Prod.mk.injEq] at h h'
    obtain ⟨_, rfl, rfl, rfl⟩ := h
    obtain ⟨_, rfl, rfl, rfl⟩ := h'
    rfl
  · refine List.Nodup.of_map Prod.snd ?_
    rw [List.zipIdx_map_snd]
    exact List.nodup_range' ..

theorem mem_toList : x ∈ s.toList ↔ ∃ i : Nat, s.slots[i]? = some (some x) := by
  rw [← map_fst_occupied, List.mem_map]
  constructor
  · rintro ⟨⟨y, i⟩, hi, rfl⟩
    exact ⟨i, mem_occupied.1 hi⟩
  · rintro ⟨i, hi⟩
    exact ⟨(x, i), mem_occupied.2 hi, rfl⟩

/-- Well-formed slots: no member occupies two slots, and the records are,
in some order, exactly the occupied slots with their members. So each member
is recorded at the slot that holds it, and a slot that no record names is
empty. -/
structure WF (s : IdSet) : Prop where
  nodup : s.toList.Nodup
  positions : s.positions.Perm s.occupied

theorem wf_empty : empty.WF := ⟨List.nodup_nil, List.Perm.refl _⟩

namespace WF

variable (h : s.WF)
include h

theorem mem_positions : (x, i) ∈ s.positions ↔ s.slots[i]? = some (some x) :=
  h.positions.mem_iff.trans mem_occupied

theorem keys : (s.positions.map (·.1)).Nodup :=
  (h.positions.map _).nodup_iff.2 (map_fst_occupied s ▸ h.nodup)

theorem lookup_eq_some : s.positions.lookup x = some i ↔ s.slots[i]? = some (some x) :=
  (lookup_eq_some_iff h.keys).trans h.mem_positions

theorem slot_unique (hi : s.slots[i]? = some (some x)) (hj : s.slots[j]? = some (some x)) : i = j :=
  congrArg Prod.snd (List.inj_on_of_nodup_map (map_fst_occupied s ▸ h.nodup)
    (mem_occupied.2 hi) (mem_occupied.2 hj) rfl)

theorem mem_keys : x ∈ s.positions.map (·.1) ↔ x ∈ s.toList := by
  rw [(h.positions.map _).mem_iff, map_fst_occupied]

theorem contains_eq (x : Uuid) : s.contains x = decide (x ∈ s.toList) := by
  rw [Bool.eq_iff_iff, decide_eq_true_iff, contains, lookup_isSome_iff, h.mem_keys]

theorem size_eq : s.size = s.toList.length := by
  rw [size, h.positions.length_eq, ← map_fst_occupied, List.length_map]

theorem isEmpty_iff : s.isEmpty = true ↔ s.toList = [] := by
  rw [isEmpty, List.isEmpty_iff, ← List.length_eq_zero_iff, ← List.length_eq_zero_iff,
    ← size, h.size_eq]

end WF

/-! ## Each call keeps the slots well formed -/

theorem occupied_append_slot (s : IdSet) (y : Uuid) (ps : List (Uuid × Nat)) :
    (⟨s.slots ++ [some y], ps⟩ : IdSet).occupied = s.occupied ++ [(y, s.slots.length)] := by
  simp [occupied, List.zipIdx_append]

theorem WF.insert (h : s.WF) (y : Uuid) :
    (s.insert y).2.WF ∧ (s.insert y).2.toList = if y ∈ s.toList then s.toList else s.toList ++ [y] := by
  rw [toList_insert, h.contains_eq]
  by_cases hy : y ∈ s.toList
  · have hs : s.insert y = (false, s) := by simp [IdSet.insert, h.contains_eq, hy]
    simp [hs, hy, h]
  · have hnone : s.positions.lookup y = none :=
      lookup_eq_none_of_not_mem fun hk => hy (h.mem_keys.1 hk)
    have hs : s.insert y = (true, ⟨s.slots ++ [some y], s.positions ++ [(y, s.slots.length)]⟩) := by
      simp [IdSet.insert, contains, hnone, record_of_lookup_eq_none hnone]
    simp only [hs, hy, decide_false, if_false, Bool.false_eq_true]
    refine ⟨⟨?_, ?_⟩, trivial⟩
    · have hnd : (s.toList ++ [y]).Nodup := List.nodup_append.2 ⟨h.nodup, List.nodup_singleton y,
        fun a ha b hb => by
          rw [List.mem_singleton] at hb
          subst hb
          exact fun he => hy (he ▸ ha)⟩
      simpa [toList] using hnd
    · rw [occupied_append_slot]
      exact h.positions.append_right _

theorem filterMap_set_none : ∀ {l : List (Option Uuid)} {p : Nat}, l[p]? = some (some x) →
    (l.filterMap id).Nodup → (l.set p none).filterMap id = (l.filterMap id).erase x
  | [], _, hp, _ => by simp at hp
  | o :: l, 0, hp, _ => by
    simp only [List.getElem?_cons_zero, Option.some.injEq] at hp
    subst hp
    simp
  | o :: l, p + 1, hp, hn => by
    simp only [List.getElem?_cons_succ] at hp
    cases o with
    | none => simpa using filterMap_set_none hp (by simpa using hn)
    | some y =>
      rw [List.filterMap_cons_some (f := id) rfl, List.nodup_cons] at hn
      have hxy : ¬(y == x) = true := fun he =>
        hn.1 (beq_iff_eq.1 he ▸ List.mem_filterMap.2 ⟨_, List.mem_of_getElem? hp, rfl⟩)
      rw [List.set_cons_succ, List.filterMap_cons_some (f := id) rfl, List.filterMap_cons_some (f := id) rfl,
        filterMap_set_none hp hn.2, List.erase_cons_tail hxy]

/-- Emptying the slot of a member and dropping its record removes the
member. -/
theorem WF.vacate (h : s.WF) {p : Nat} (hp : s.slots[p]? = some (some y)) :
    (s.vacate y p).WF ∧ (s.vacate y p).toList = s.toList.erase y := by
  have htl : (s.vacate y p).toList = s.toList.erase y := filterMap_set_none hp h.nodup
  refine ⟨⟨htl ▸ h.nodup.erase y, ?_⟩, htl⟩
  refine (List.perm_ext_iff_of_nodup ((List.Nodup.of_map _ h.keys).filter _) (nodup_occupied _)).2 ?_
  rintro ⟨z, i⟩
  rw [mem_occupied]
  simp only [IdSet.vacate, List.mem_filter, h.mem_positions, List.getElem?_set, bne_iff_ne, ne_eq]
  by_cases hpi : p = i
  · subst hpi
    rw [hp]
    simp only [Option.some.injEq, if_true]
    constructor
    · rintro ⟨rfl, hne⟩
      exact absurd rfl hne
    · intro hn
      split at hn <;> simp at hn
  · rw [if_neg hpi]
    constructor
    · exact fun hz => hz.1
    · intro hz
      exact ⟨hz, fun he => hpi (h.slot_unique hp (he ▸ hz))⟩

theorem filter_isSome_eq (l : List (Option Uuid)) : l.filter Option.isSome = (l.filterMap id).map some := by
  induction l with
  | nil => rfl
  | cons o l ih => cases o <;> simp [ih]

theorem compact_slots (s : IdSet) : s.compact.slots = s.toList.map some :=
  filter_isSome_eq s.slots

theorem toList_compact (s : IdSet) : s.compact.toList = s.toList := by
  simp [toList, compact_slots, List.filterMap_map]

theorem compact_positions (s : IdSet) :
    s.compact.positions = s.toList.zipIdx.foldl (fun ps e => record ps e.1 e.2) s.positions := by
  show (s.slots.filter Option.isSome).zipIdx.foldl _ s.positions = _
  rw [filter_isSome_eq, List.zipIdx_map, List.foldl_map]
  rfl

theorem occupied_compact (s : IdSet) : s.compact.occupied = s.toList.zipIdx := by
  simp [occupied, compact_slots, List.zipIdx_map, List.filterMap_map]

theorem WF.compact (h : s.WF) : s.compact.WF ∧ s.compact.toList = s.toList := by
  have hz : (s.toList.zipIdx.map (·.1)).Nodup := by
    rw [List.zipIdx_map_fst]
    exact h.nodup
  have hsub : ∀ e ∈ s.toList.zipIdx, e.1 ∈ s.positions.map (·.1) := fun e he =>
    h.mem_keys.2 (List.zipIdx_map_fst 0 s.toList ▸ List.mem_map_of_mem he)
  obtain ⟨hkeys, hlookup⟩ := foldl_record hz hsub
  rw [← compact_positions] at hkeys hlookup
  refine ⟨⟨toList_compact s ▸ h.nodup, ?_⟩, toList_compact s⟩
  rw [occupied_compact]
  have hk : (s.compact.positions.map (·.1)).Nodup := hkeys ▸ h.keys
  refine (List.perm_ext_iff_of_nodup (List.Nodup.of_map _ hk) (List.Nodup.of_map _ hz)).2 ?_
  rintro ⟨x, j⟩
  rw [← lookup_eq_some_iff hk, ← lookup_eq_some_iff hz, hlookup]
  cases hx : s.toList.zipIdx.lookup x with
  | some k => rfl
  | none =>
    -- a member without a new slot is no member, so it had no record either
    have hx' : x ∉ s.positions.map (·.1) := fun hm => by
      have hin := lookup_isSome_iff.2 (List.zipIdx_map_fst 0 s.toList ▸ h.mem_keys.1 hm)
      simp [hx] at hin
    simp [lookup_eq_none_of_not_mem hx']

theorem WF.erase (h : s.WF) (y : Uuid) :
    (s.erase y).2.WF ∧ (s.erase y).2.toList = s.toList.erase y := by
  unfold IdSet.erase
  split
  · rename_i hnone
    have hy : y ∉ s.toList := fun hm => by
      have hin := lookup_isSome_iff.2 (h.mem_keys.2 hm)
      simp [hnone] at hin
    exact ⟨h, (List.erase_of_not_mem hy).symm⟩
  · rename_i p hp
    obtain ⟨hv, hvl⟩ := h.vacate (h.lookup_eq_some.1 hp)
    dsimp only
    split
    · exact ⟨hv.compact.1, (toList_compact _).trans hvl⟩
    · exact ⟨hv, hvl⟩

/-! ## Runs of calls -/

/-- A call that edits an ordered set. -/
inductive Call where
  | insert (id : Uuid)
  | erase (id : Uuid)

/-- Makes a call; whether it changed the set. -/
def apply (s : IdSet) : Call → Bool × IdSet
  | .insert y => s.insert y
  | .erase y => s.erase y

/-- Makes calls in order, collecting their answers. -/
def run (s : IdSet) : List Call → List Bool × IdSet
  | [] => ([], s)
  | c :: cs => ((s.apply c).1 :: ((s.apply c).2.run cs).1, ((s.apply c).2.run cs).2)

/-- The same call on a list of members: an absent member is appended, a
present one erased. -/
def Call.onList (L : List Uuid) : Call → Bool × List Uuid
  | .insert y => if y ∈ L then (false, L) else (true, L ++ [y])
  | .erase y => if y ∈ L then (true, L.erase y) else (false, L)

/-- Calls in order on a list of members. -/
def Call.runOnList (L : List Uuid) : List Call → List Bool × List Uuid
  | [] => ([], L)
  | c :: cs =>
    ((Call.onList L c).1 :: (Call.runOnList (Call.onList L c).2 cs).1,
      (Call.runOnList (Call.onList L c).2 cs).2)

theorem WF.apply (h : s.WF) (c : Call) :
    (s.apply c).1 = (Call.onList s.toList c).1 ∧ (s.apply c).2.WF ∧
      (s.apply c).2.toList = (Call.onList s.toList c).2 := by
  cases c with
  | insert y =>
    obtain ⟨hw, hl⟩ := h.insert y
    by_cases hy : y ∈ s.toList <;> simp_all [IdSet.apply, Call.onList, h.contains_eq]
  | erase y =>
    obtain ⟨hw, hl⟩ := h.erase y
    by_cases hy : y ∈ s.toList
    · simp_all [IdSet.apply, Call.onList, h.contains_eq]
    · simp_all [IdSet.apply, Call.onList, h.contains_eq, List.erase_of_not_mem hy]

theorem WF.run (h : s.WF) (cs : List Call) :
    (s.run cs).1 = (Call.runOnList s.toList cs).1 ∧ (s.run cs).2.WF ∧
      (s.run cs).2.toList = (Call.runOnList s.toList cs).2 := by
  induction cs generalizing s with
  | nil => exact ⟨rfl, h, rfl⟩
  | cons c cs ih =>
    obtain ⟨ha, hw, hl⟩ := h.apply c
    obtain ⟨hr, hrw, hrl⟩ := ih hw
    refine ⟨?_, hrw, ?_⟩
    · rw [IdSet.run, Call.runOnList, ha, hr, hl]
    · rw [IdSet.run, Call.runOnList, hrl, hl]

theorem ofList_eq_run (ids : List Uuid) : ofList ids = (empty.run (ids.map .insert)).2 := by
  suffices h : ∀ s : IdSet, ids.foldl (fun s y => (s.insert y).2) s = (s.run (ids.map .insert)).2 from
    h empty
  induction ids with
  | nil => intro s; rfl
  | cons y ids ih => intro s; exact ih _

theorem eraseDups_eq_self : ∀ {l : List Uuid}, l.Nodup → l.eraseDups = l
  | [], _ => rfl
  | y :: l, h => by
    rw [List.nodup_cons] at h
    have hf : l.filter (fun b => !b == y) = l :=
      List.filter_eq_self.2 fun b hb => by simpa using fun he : b = y => h.1 (he ▸ hb)
    rw [List.eraseDups_cons, hf, eraseDups_eq_self h.2]

/-- Inserting into a list of distinct members keeps the first occurrence of
each identifier. -/
theorem runOnList_inserts : ∀ (l : List Uuid) {L : List Uuid}, L.Nodup →
    (Call.runOnList L (l.map .insert)).2 = (L ++ l).eraseDups
  | [], L, h => by simp [Call.runOnList, eraseDups_eq_self h]
  | y :: l, L, h => by
    rw [List.map_cons, Call.runOnList, Call.onList]
    by_cases hy : y ∈ L
    · rw [if_pos hy, runOnList_inserts l h, List.eraseDups_append, List.eraseDups_append]
      congr 2
      simp [List.removeAll, hy]
    · rw [if_neg hy, runOnList_inserts l (List.nodup_append.2 ⟨h, List.nodup_singleton y,
        fun a ha b hb => by
          rw [List.mem_singleton] at hb
          exact hb ▸ fun he => hy (he ▸ ha)⟩)]
      simp

theorem wf_ofList (ids : List Uuid) : (ofList ids).WF := by
  rw [ofList_eq_run]
  exact (wf_empty.run _).2.1

/-- The members of the set of listed identifiers are the identifiers with
later repetitions dropped. -/
theorem toList_ofList (ids : List Uuid) : (ofList ids).toList = ids.eraseDups := by
  rw [ofList_eq_run, (wf_empty.run _).2.2, toList_empty, runOnList_inserts ids List.nodup_nil,
    List.nil_append]

/-- Everything an ordered set answers, read off the duplicate-free list `L`
of its members: the members in order, their number, membership and
emptiness; and its records name exactly the occupied slots, each with the
member it holds, every other slot being empty. -/
structure Simulates (s : IdSet) (L : List Uuid) : Prop where
  nodup : L.Nodup
  toList : s.toList = L
  size : s.size = L.length
  contains : ∀ y, s.contains y = decide (y ∈ L)
  isEmpty : s.isEmpty = true ↔ L = []
  positions : s.positions.Perm s.occupied

theorem WF.simulates (h : s.WF) : s.Simulates s.toList :=
  ⟨h.nodup, rfl, h.size_eq, h.contains_eq, h.isEmpty_iff, h.positions⟩

/-- **Ordered sets are duplicate-free lists.** Starting from the set of any
listed identifiers (the empty set when none is listed), every run of
insertions and removals answers each call as the same call on the list of
members does (an absent member is appended, a present one erased), and the
set then reads that list: its members in order, their number, membership
and emptiness, with its records naming exactly the occupied slots, whatever
compactions the removals made. -/
theorem ofList_run_simulates_list (ids : List Uuid) (calls : List Call) :
    ((ofList ids).run calls).1 =
        (Call.runOnList (Call.runOnList [] (ids.map .insert)).2 calls).1 ∧
      ((ofList ids).run calls).2.Simulates
        (Call.runOnList (Call.runOnList [] (ids.map .insert)).2 calls).2 := by
  obtain ⟨-, h₀, hl₀⟩ := wf_empty.run (ids.map .insert)
  rw [toList_empty] at hl₀
  rw [ofList_eq_run, ← hl₀]
  obtain ⟨hr, hw, hl⟩ := h₀.run calls
  exact ⟨hr, hl ▸ hw.simulates⟩

/-- Twelve members, eleven of them removed: the last removal compacts the
slots, leaving the survivor alone in slot 0. -/
example :
    let s := ((ofList ((List.range 12).map Uuid.ofNat)).run
      ((List.range 11).map fun n => .erase (Uuid.ofNat n))).2
    s.toList = [Uuid.ofNat 11] ∧ s.slots = [some (Uuid.ofNat 11)] ∧ s.positions = [(Uuid.ofNat 11, 0)] := by
  decide

end IdSet

end Subsurface
