import Subsurface.Topology.Relation
import Subsurface.Proofs.IdSet
import Mathlib.Data.List.Nodup
import Mathlib.Data.List.Basic
/-!
A relation is its list of edges.

Both sides of a `Relation` are adjacencies: each node with the ordered set
of its neighbours on that side. Reading the children side through
`targets` and the parents side through `targets` of the reversed edges, a
relation stands for one duplicate-free list `L` of `(parent, child)` edges,
oldest first (`Relation.Abstracts`). Each edit of the relation is then the
matching edit of `L`: adding an absent edge appends it, removing a present
one erases it, and removing a node filters out every edge that touches it,
a loop counting once. Every query of the relation reads `L`.

The adjacency facts come first (`Adjacency.get_put`, `Adjacency.Lists`),
then one lemma per edit, then the run over any sequence of edits.
-/

namespace Subsurface

/-- The second ends of the edges of `L` that start at `k`, in `L`'s order. -/
def targets (L : List (Uuid × Uuid)) (k : Uuid) : List Uuid :=
  (L.filter (·.1 == k)).map (·.2)

/-- The first ends of the edges of `L` that end at `k`, in `L`'s order. -/
def sources (L : List (Uuid × Uuid)) (k : Uuid) : List Uuid :=
  (L.filter (·.2 == k)).map (·.1)

section Targets

variable {L : List (Uuid × Uuid)}

@[simp] theorem mem_targets {k v : Uuid} : v ∈ targets L k ↔ (k, v) ∈ L := by
  simp only [targets, List.mem_map, List.mem_filter, beq_iff_eq]
  constructor
  · rintro ⟨⟨a, b⟩, ⟨hab, rfl⟩, rfl⟩
    exact hab
  · intro h
    exact ⟨(k, v), ⟨h, rfl⟩, rfl⟩

theorem targets_swap (k : Uuid) : targets (L.map Prod.swap) k = sources L k := by
  simp only [targets, sources, List.filter_map, List.map_map]
  rfl

theorem nodup_targets (h : L.Nodup) (k : Uuid) : (targets L k).Nodup := by
  refine (h.filter _).map_on ?_
  intro x hx y hy hxy
  simp only [List.mem_filter, beq_iff_eq] at hx hy
  exact Prod.ext (hx.2.trans hy.2.symm) hxy

@[simp] theorem targets_nil (k : Uuid) : targets [] k = [] := rfl

theorem targets_append_single (k k' v : Uuid) :
    targets (L ++ [(k, v)]) k' = if k' = k then targets L k' ++ [v] else targets L k' := by
  by_cases h : k' = k
  · subst h
    simp [targets]
  · have : (k == k') = false := by simpa using Ne.symm h
    simp [targets, h, this]

theorem targets_filter_ne (k k' : Uuid) :
    targets (L.filter (·.1 != k)) k' = if k' = k then [] else targets L k' := by
  by_cases h : k' = k
  · subst h
    simp only [targets, List.filter_filter, if_true]
    rw [List.filter_eq_nil_iff.2]
    · rfl
    · intro e _
      simp only [Bool.and_eq_true, bne_iff_ne, beq_iff_eq, not_and]
      exact fun h1 h2 => h2 h1
  · simp only [targets, List.filter_filter, h, if_false]
    congr 1
    apply List.filter_congr
    intro e _
    by_cases he : e.1 = k'
    · simp [he, h]
    · simp [he]

theorem targets_erase (k k' v : Uuid) :
    targets (L.erase (k, v)) k' = if k' = k then (targets L k').erase v else targets L k' := by
  unfold targets
  rw [← List.erase_filter]
  by_cases h : k' = k
  · subst h
    simp only [if_true]
    -- Every edge left by the filter starts at `k'`, so erasing `(k', v)` is erasing `v`.
    have hall : ∀ e ∈ L.filter (·.1 == k'), e.1 = k' := by
      intro e he
      simpa using (List.mem_filter.1 he).2
    generalize L.filter (·.1 == k') = M at hall
    induction M with
    | nil => rfl
    | cons e M ih =>
      obtain ⟨a, b⟩ := e
      have ha : a = k' := hall (a, b) (by simp)
      subst ha
      by_cases hb : b = v
      · subst hb
        simp
      · have hne : ((a, b) == (a, v)) = false := by simpa using hb
        have hne' : (b == v) = false := by simpa using hb
        simp only [List.erase_cons, hne, hne', List.map_cons, Bool.false_eq_true, if_false]
        rw [ih fun e he => hall e (by simp [he])]
  · simp only [h, if_false]
    rw [List.erase_of_not_mem]
    simp only [List.mem_filter, beq_iff_eq, not_and]
    exact fun _ h' => h h'.symm

end Targets

/-! ## Adjacencies -/

theorem lookup_filter_ne {β : Type} (a : List (Uuid × β)) (k k' : Uuid) :
    (a.filter (·.1 != k)).lookup k' = if k' = k then none else a.lookup k' := by
  induction a with
  | nil => simp
  | cons e a ih =>
    obtain ⟨x, v⟩ := e
    by_cases hx : x = k
    · subst hx
      simp only [List.filter_cons, bne_self_eq_false, Bool.false_eq_true, if_false, ih,
        lookup_cons_ite]
      split <;> simp_all
    · have : (x != k) = true := by simpa using hx
      simp only [List.filter_cons, this, if_true, lookup_cons_ite, ih]
      by_cases hk : k' = k
      · subst hk
        simp [Ne.symm hx]
      · simp [hk]

theorem not_mem_of_nodup_append_cons {α : Type} {l₁ l₂ : List α} {x : α} (h : (l₁ ++ x :: l₂).Nodup) :
    x ∉ l₁ :=
  fun hx => (List.nodup_append.1 h).2.2 x hx x List.mem_cons_self rfl

section Keyed

variable {β : Type} {a : List (Uuid × β)} {k : Uuid} {v : β}

theorem lookup_eq_of_perm {a' : List (Uuid × β)} (hp : a'.Perm a) (hk : (a.map (·.1)).Nodup) (x : Uuid) :
    a'.lookup x = a.lookup x := by
  have hk' : (a'.map (·.1)).Nodup := (hp.map _).nodup_iff.2 hk
  cases hx : a.lookup x with
  | some y => exact lookup_of_mem hk' (hp.mem_iff.2 (mem_of_lookup hx))
  | none =>
    cases hx' : a'.lookup x with
    | none => rfl
    | some y =>
      rw [lookup_of_mem hk (hp.mem_iff.1 (mem_of_lookup hx'))] at hx
      cases hx

theorem filter_fst_ne_of_not_mem (h : k ∉ a.map (·.1)) : a.filter (·.1 != k) = a := by
  refine List.filter_eq_self.2 fun e he => ?_
  have hne : e.1 ≠ k := fun he' => h (he' ▸ List.mem_map_of_mem he)
  simpa using hne

/-- A fold whose every step appends an entry under a key not yet present
builds the entries in list order. -/
theorem foldl_append_of_fresh {F : List (Uuid × β) → Uuid × β → List (Uuid × β)}
    (hF : ∀ acc e, e.1 ∉ acc.map (·.1) → F acc e = acc ++ [e]) :
    ∀ (l acc : List (Uuid × β)), ((acc ++ l).map (·.1)).Nodup → l.foldl F acc = acc ++ l
  | [], acc, _ => by simp
  | e :: l, acc, h => by
    have he : e.1 ∉ acc.map (·.1) := not_mem_of_nodup_append_cons (by simpa using h)
    rw [List.foldl_cons, hF acc e he, foldl_append_of_fresh hF l (acc ++ [e]) (by simpa using h)]
    simp

end Keyed

theorem lookup_map_replace {β : Type} (a : List (Uuid × β)) (k k' : Uuid) (s : β) :
    (a.map fun (x, v) => if x == k then (x, s) else (x, v)).lookup k' =
      if k' = k ∧ a.any (·.1 == k) then some s else a.lookup k' := by
  induction a with
  | nil => simp
  | cons e a ih =>
    obtain ⟨x, v⟩ := e
    by_cases hx : x = k
    · subst hx
      by_cases hk : k' = x
      · simp [hk]
      · simp only [List.map_cons, beq_self_eq_true, if_true, lookup_cons_ite, hk, if_false, ih]
        simp
    · have : (x == k) = false := by simpa using hx
      simp only [List.map_cons, this, Bool.false_eq_true, if_false, lookup_cons_ite, ih,
        List.any_cons, Bool.false_or]
      by_cases hk : k' = x
      · subst hk
        simp [hx]
      · simp [hk]

namespace Adjacency

variable {a : Adjacency}

theorem lookup_eq_none {k : Uuid} (h : ¬a.any (·.1 == k) = true) : a.lookup k = none := by
  rw [List.lookup_eq_none_iff]
  intro p hp
  have : ¬p.1 = k := fun he => h (List.any_eq_true.2 ⟨p, hp, by simp [he]⟩)
  simp only [bne_iff_ne, ne_eq]
  exact fun he => this he.symm

/-- Writing the set of a node changes what that node reads and nothing
else; an empty set is dropped, so the node then reads the empty set. -/
theorem get_put (a : Adjacency) (k k' : Uuid) (s : IdSet) :
    (a.put k s).get k' = if k' = k then (if s.isEmpty then IdSet.empty else s) else a.get k' := by
  unfold put get
  by_cases hk : a.any (·.1 == k) = true <;> by_cases hs : s.isEmpty = true
  · rw [if_pos hk, if_pos hs]
    -- the entry of `k` is dropped
    rw [lookup_filter_ne]
    split <;> simp
  · rw [if_pos hk, if_neg hs]
    -- the entry of `k` is replaced
    rw [lookup_map_replace]
    by_cases hk' : k' = k <;> simp [hk, hk', hs]
  · rw [if_neg hk, if_pos hs]
    split
    · rename_i hk'
      subst hk'
      simp [lookup_eq_none hk]
    · rfl
  · rw [if_neg hk, if_neg hs]
    -- a new entry for `k`
    rw [List.lookup_append]
    by_cases hk' : k' = k
    · subst hk'
      simp [lookup_eq_none hk, hs]
    · cases a.lookup k' <;> simp [hk', lookup_cons_ite]

/-- One entry per node, each holding a well-formed, non-empty set. -/
structure WF (a : Adjacency) : Prop where
  keys : (a.map (·.1)).Nodup
  sets : ∀ e ∈ a, e.2.WF
  nonempty : ∀ e ∈ a, e.2.toList ≠ []

theorem wf_nil : WF [] := ⟨List.nodup_nil, by simp, by simp⟩

theorem WF.get (h : a.WF) (k : Uuid) : (a.get k).WF := by
  unfold Adjacency.get
  cases hl : a.lookup k with
  | none => exact IdSet.wf_empty
  | some s => exact h.sets _ (mem_of_lookup hl)

theorem WF.put (h : a.WF) (k : Uuid) {s : IdSet} (hs' : s.WF) : (a.put k s).WF := by
  unfold Adjacency.put
  by_cases hk : a.any (·.1 == k) = true <;> by_cases hs : s.isEmpty = true
  · rw [if_pos hk, if_pos hs]
    exact ⟨(List.filter_sublist.map _).nodup h.keys,
      fun e he => h.sets e (List.mem_of_mem_filter he),
      fun e he => h.nonempty e (List.mem_of_mem_filter he)⟩
  · rw [if_pos hk, if_neg hs]
    refine ⟨?_, ?_, ?_⟩
    · -- replacing a set keeps every key
      rw [List.map_map]
      convert h.keys using 1
      apply List.map_congr_left
      rintro ⟨x, v⟩ -
      simp only [Function.comp]
      split <;> rfl
    · intro e he
      obtain ⟨⟨x, v⟩, hmem, rfl⟩ := List.mem_map.1 he
      simp only
      split
      · exact hs'
      · exact h.sets _ hmem
    · intro e he
      obtain ⟨⟨x, v⟩, hmem, rfl⟩ := List.mem_map.1 he
      simp only
      split
      · simpa [hs'.isEmpty_iff] using hs
      · exact h.nonempty _ hmem
  · rw [if_neg hk, if_pos hs]
    exact h
  · rw [if_neg hk, if_neg hs]
    refine ⟨?_, ?_, ?_⟩
    · rw [List.map_append, List.nodup_append]
      refine ⟨h.keys, by simp, ?_⟩
      intro x hx y hy
      obtain ⟨e, he, rfl⟩ := List.mem_map.1 hx
      simp only [List.map_cons, List.map_nil, List.mem_singleton] at hy
      subst hy
      exact fun hek => hk (List.any_eq_true.2 ⟨e, he, by simp [hek]⟩)
    · intro e he
      rcases List.mem_append.1 he with he | he
      · exact h.sets e he
      · simp only [List.mem_singleton] at he
        subst he
        exact hs'
    · intro e he
      rcases List.mem_append.1 he with he | he
      · exact h.nonempty e he
      · simp only [List.mem_singleton] at he
        subst he
        simpa [hs'.isEmpty_iff] using hs

theorem get_of_mem (hk : (a.map (·.1)).Nodup) {k : Uuid} {s : IdSet} (he : (k, s) ∈ a) :
    a.get k = s := by
  unfold get
  induction a with
  | nil => simp at he
  | cons e a ih =>
    obtain ⟨x, v⟩ := e
    simp only [List.map_cons, List.nodup_cons] at hk
    rw [lookup_cons_ite]
    rcases List.mem_cons.1 he with he | he
    · cases he
      simp
    · have : k ≠ x := fun hkx => hk.1 (hkx ▸ List.mem_map.2 ⟨_, he, rfl⟩)
      simp [this, ih hk.2 he]

theorem mem_of_get {k : Uuid} (h : (a.get k).toList ≠ []) : (k, a.get k) ∈ a := by
  unfold get at h ⊢
  cases hl : a.lookup k with
  | none => simp [hl] at h
  | some s =>
    obtain ⟨l₁, l₂, rfl, -⟩ := List.lookup_eq_some_iff.1 hl
    simp

/-- The adjacency reads, at each node, the targets of the node's edges in
`L`, in `L`'s order. -/
structure Lists (a : Adjacency) (L : List (Uuid × Uuid)) : Prop extends WF a where
  get_eq : ∀ k, (a.get k).toList = targets L k

theorem lists_nil : Lists [] [] := ⟨wf_nil, fun _ => rfl⟩

theorem toList_get_put {s : IdSet} (hs : s.WF) (k k' : Uuid) :
    ((a.put k s).get k').toList = if k' = k then s.toList else (a.get k').toList := by
  rw [get_put]
  by_cases hk : k' = k
  · by_cases he : s.isEmpty = true
    · simp [hk, he, hs.isEmpty_iff.1 he]
    · simp [hk, he]
  · simp [hk]

variable {L : List (Uuid × Uuid)}

theorem Lists.put_insert (h : a.Lists L) {k v : Uuid} (hv : (k, v) ∉ L) :
    (a.put k ((a.get k).insert v).2).Lists (L ++ [(k, v)]) where
  toWF := h.toWF.put _ ((h.toWF.get k).insert v).1
  get_eq k' := by
    rw [toList_get_put ((h.toWF.get k).insert v).1, targets_append_single]
    by_cases hk : k' = k
    · subst hk
      have : v ∉ targets L k' := by simpa using hv
      simp [((h.toWF.get k').insert v).2, h.get_eq, this]
    · simp [hk, h.get_eq]

theorem Lists.put_erase (h : a.Lists L) (k v : Uuid) :
    (a.put k ((a.get k).erase v).2).Lists (L.erase (k, v)) where
  toWF := h.toWF.put _ ((h.toWF.get k).erase v).1
  get_eq k' := by
    rw [toList_get_put ((h.toWF.get k).erase v).1, targets_erase]
    by_cases hk : k' = k
    · subst hk
      simp [((h.toWF.get k').erase v).2, h.get_eq]
    · simp [hk, h.get_eq]

theorem Lists.put_empty (h : a.Lists L) (k : Uuid) :
    (a.put k IdSet.empty).Lists (L.filter (·.1 != k)) where
  toWF := h.toWF.put _ IdSet.wf_empty
  get_eq k' := by
    rw [toList_get_put IdSet.wf_empty, targets_filter_ne]
    by_cases hk : k' = k
    · simp [hk]
    · simp [hk, h.get_eq]

/-- Erasing `v` from the set of each node of `ks`, in turn, erases the edges
`(k, v)` in the same order. -/
theorem Lists.eraseAll (h : a.Lists L) (v : Uuid) (ks : List Uuid) :
    (ks.foldl (fun a k => a.put k ((a.get k).erase v).2) a).Lists
      (ks.foldl (fun L k => L.erase (k, v)) L) := by
  induction ks generalizing a L with
  | nil => exact h
  | cons k ks ih => exact ih (h.put_erase k v)

end Adjacency

/-- Erasing the edges `(k, v)` one by one, for exactly the nodes `k` with
such an edge, drops every edge into `v`. -/
theorem foldl_erase_eq_filter {M : List (Uuid × Uuid)} {v : Uuid} {ks : List Uuid}
    (hM : M.Nodup) (hks : ks.Nodup) (hmem : ∀ k, (k, v) ∈ M ↔ k ∈ ks) :
    ks.foldl (fun L k => L.erase (k, v)) M = M.filter (·.2 != v) := by
  induction ks generalizing M with
  | nil =>
    refine (List.filter_eq_self.2 fun e he => ?_).symm
    have : e.2 ≠ v := fun hv => by simpa using (hmem e.1).1 (hv ▸ he)
    simpa using this
  | cons k ks ih =>
    simp only [List.nodup_cons] at hks
    rw [List.foldl_cons, ih (hM.erase _) hks.2]
    · rw [hM.erase_eq_filter, List.filter_filter]
      apply List.filter_congr
      intro e _
      by_cases he : e.2 = v
      · simp [he]
      · have : e ≠ (k, v) := fun h => he (by simp [h])
        simp [he, this]
    · intro k'
      rw [hM.mem_erase_iff, hmem k', List.mem_cons]
      constructor
      · rintro ⟨hne, rfl | hk'⟩
        · exact absurd rfl hne
        · exact hk'
      · intro hk'
        refine ⟨fun h => hks.1 ?_, .inr hk'⟩
        cases h
        exact hk'

theorem length_filter_or (L : List (Uuid × Uuid)) (p q : Uuid × Uuid → Bool) :
    (L.filter p).length + ((L.filter fun e => !p e).filter q).length =
      (L.filter fun e => p e || q e).length := by
  induction L with
  | nil => rfl
  | cons e L ih =>
    simp only [List.filter_cons]
    cases hp : p e <;> cases hq : q e <;>
      simp only [hq, Bool.not_true, Bool.not_false, Bool.or_true, Bool.or_false,
        Bool.false_eq_true, if_true, if_false, List.filter_cons, List.length_cons] <;> omega

theorem Uuid.ne_of_lt {a b : Uuid} (h : a < b) : a ≠ b := by
  rintro rfl
  exact Nat.lt_irrefl _ h

namespace Adjacency

variable {a : Adjacency} {L : List (Uuid × Uuid)}

/-- The edges an adjacency stores, node by node. -/
def edges (a : Adjacency) : List (Uuid × Uuid) := a.flatMap fun e => e.2.toList.map (e.1, ·)

theorem foldl_total : ∀ (a : Adjacency), (∀ e ∈ a, e.2.WF) → ∀ m : Nat,
    a.foldl (fun n e => n + e.2.size) m = m + (edges a).length
  | [], _, m => rfl
  | e :: a, h, m => by
    rw [List.foldl_cons, foldl_total a (fun e' he' => h e' (List.mem_cons_of_mem _ he'))]
    simp only [edges, List.flatMap_cons, List.length_append, List.length_map,
      (h e List.mem_cons_self).size_eq]
    omega

theorem total_eq (h : a.WF) : a.total = (edges a).length := by
  rw [total, foldl_total a h.sets, Nat.zero_add]

/-- A well-formed adjacency stores the edge `(p, c)` exactly when `c` is in
the set `p` reads. -/
theorem WF.mem_edges (h : a.WF) {p c : Uuid} : (p, c) ∈ edges a ↔ c ∈ (a.get p).toList := by
  simp only [edges, List.mem_flatMap, List.mem_map, Prod.mk.injEq]
  constructor
  · rintro ⟨e, he, x, hx, rfl, rfl⟩
    rwa [get_of_mem h.keys he]
  · intro hc
    have hne : (a.get p).toList ≠ [] := List.ne_nil_of_mem hc
    exact ⟨_, mem_of_get hne, c, hc, rfl, rfl⟩

theorem WF.nodup_edges (h : a.WF) : (edges a).Nodup := by
  refine List.nodup_flatMap.2 ⟨fun e he => ?_, ?_⟩
  · exact (h.sets e he).nodup.map fun _ _ hxy => (Prod.mk.injEq _ _ _ _ ▸ hxy).2
  · refine (List.pairwise_map.1 h.keys).imp fun {x y} hxy => ?_
    simp only [Function.onFun, List.disjoint_left, List.mem_map]
    rintro _ ⟨_, _, rfl⟩ ⟨_, _, he⟩
    exact hxy (congrArg Prod.fst he).symm

theorem Lists.mem_edges (h : a.Lists L) {p c : Uuid} : (p, c) ∈ edges a ↔ (p, c) ∈ L := by
  rw [h.toWF.mem_edges, h.get_eq, mem_targets]

/-- An adjacency reading the edges of a duplicate-free `L` stores them all,
once each. -/
theorem Lists.edges_perm (h : a.Lists L) (hL : L.Nodup) : (edges a).Perm L :=
  (List.perm_ext_iff_of_nodup h.toWF.nodup_edges hL).2 fun _ => h.mem_edges

theorem Lists.eq_nil_iff (h : a.Lists L) (hL : L.Nodup) : a = [] ↔ L = [] := by
  constructor
  · rintro rfl
    exact (h.edges_perm hL).symm.eq_nil
  · intro hl
    cases a with
    | nil => rfl
    | cons e a =>
      obtain ⟨c, hc⟩ := List.exists_mem_of_ne_nil _ (h.nonempty e (by simp))
      have : (e.1, c) ∈ L := h.mem_edges.1 (by simp [edges]; exact .inl hc)
      simp [hl] at this

theorem toNat_injective {u v : Uuid} (h : u.toNat = v.toNat) : u = v := by
  cases u
  cases v
  simp only [Uuid.toNat] at h
  congr
  exact BitVec.eq_of_toNat_eq h

/-- The sorted listing holds one entry per node reading a non-empty set,
with the set's members. -/
theorem WF.mem_sorted (h : a.WF) {k : Uuid} {l : List Uuid} :
    (k, l) ∈ a.sorted ↔ l ≠ [] ∧ l = (a.get k).toList := by
  simp only [sorted, List.mem_mergeSort, List.mem_map, Prod.mk.injEq]
  constructor
  · rintro ⟨⟨x, v⟩, he, rfl, rfl⟩
    exact ⟨h.nonempty _ he, by rw [get_of_mem h.keys he]⟩
  · rintro ⟨hne, rfl⟩
    exact ⟨_, mem_of_get hne, rfl, rfl⟩

/-- The sorted listing holds one entry per node with a non-empty list, that
list being the node's targets. -/
theorem Lists.mem_sorted (h : a.Lists L) {k : Uuid} {l : List Uuid} :
    (k, l) ∈ a.sorted ↔ l ≠ [] ∧ l = targets L k := by
  rw [h.toWF.mem_sorted, h.get_eq]

theorem WF.sorted_keys (h : a.WF) : (a.sorted.map (·.1)).Pairwise (· < ·) := by
  have hle : a.sorted.Pairwise fun x y => decide (x.1.toNat ≤ y.1.toNat) = true :=
    List.pairwise_mergeSort (fun _ _ _ h₁ h₂ => by simp only [decide_eq_true_eq] at *; omega)
      (fun x y => by simp only [Bool.or_eq_true, decide_eq_true_eq]; omega) _
  have hkeys : (a.sorted.map (·.1)).Nodup := by
    refine ((List.mergeSort_perm _ _).map _).nodup_iff.2 ?_
    simpa [List.map_map, Function.comp_def] using h.keys
  rw [List.pairwise_map]
  refine (hle.and (List.pairwise_map.1 hkeys)).imp fun {x y} ⟨hxy, hne⟩ => ?_
  simp only [decide_eq_true_eq] at hxy
  exact Nat.lt_of_le_of_ne hxy fun he => hne (toNat_injective he)

theorem sorted_keys_nodup (h : a.WF) : (a.sorted.map (·.1)).Nodup :=
  h.sorted_keys.imp Uuid.ne_of_lt

end Adjacency

namespace Relation

variable {r : Relation} {L LC LP : List (Uuid × Uuid)}

/-- `r` keeps the edges of `LC` on its children side, each parent reading
its targets in `LC`'s order, and the edges of `LP` on its parents side, each
child reading its sources in `LP`'s order; the two lists hold the same edges,
once each. -/
structure Describes (r : Relation) (LC LP : List (Uuid × Uuid)) : Prop where
  nodup : LC.Nodup
  perm : LC.Perm LP
  children : r.children.Lists LC
  parents : r.parents.Lists (LP.map Prod.swap)

/-- `r` keeps exactly the edges of `L`, in `L`'s order on both sides: the
children side reads the targets of each parent, the parents side the
sources of each child. -/
structure Abstracts (r : Relation) (L : List (Uuid × Uuid)) : Prop where
  nodup : L.Nodup
  children : r.children.Lists L
  parents : r.parents.Lists (L.map Prod.swap)

theorem Abstracts.describes (h : r.Abstracts L) : r.Describes L L :=
  ⟨h.nodup, List.Perm.refl L, h.children, h.parents⟩

theorem Describes.abstracts (h : r.Describes L L) : r.Abstracts L :=
  ⟨h.nodup, h.children, h.parents⟩

theorem abstracts_empty : empty.Abstracts [] :=
  ⟨List.nodup_nil, Adjacency.lists_nil, Adjacency.lists_nil⟩

theorem nodup_map_swap (h : L.Nodup) : (L.map Prod.swap).Nodup :=
  h.map fun _ _ => Prod.swap_inj.1

theorem Describes.mem_iff (h : r.Describes LC LP) {e : Uuid × Uuid} : e ∈ LP ↔ e ∈ LC :=
  h.perm.mem_iff.symm

theorem Describes.nodup_parents (h : r.Describes LC LP) : LP.Nodup :=
  h.perm.nodup_iff.1 h.nodup

theorem Describes.childrenOf_eq (h : r.Describes LC LP) (p : Uuid) :
    r.childrenOf p = targets LC p :=
  h.children.get_eq p

theorem Describes.parentsOf_eq (h : r.Describes LC LP) (c : Uuid) :
    r.parentsOf c = sources LP c := by
  rw [Relation.parentsOf, h.parents.get_eq, targets_swap]

theorem Describes.hasEdge_eq (h : r.Describes LC LP) (p c : Uuid) :
    r.hasEdge p c = decide ((p, c) ∈ LC) := by
  rw [Relation.hasEdge, (h.children.toWF.get p).contains_eq, h.children.get_eq]
  simp

theorem Abstracts.childrenOf_eq (h : r.Abstracts L) (p : Uuid) : r.childrenOf p = targets L p :=
  h.describes.childrenOf_eq p

theorem Abstracts.parentsOf_eq (h : r.Abstracts L) (c : Uuid) : r.parentsOf c = sources L c :=
  h.describes.parentsOf_eq c

theorem Abstracts.hasEdge_eq (h : r.Abstracts L) (p c : Uuid) :
    r.hasEdge p c = decide ((p, c) ∈ L) :=
  h.describes.hasEdge_eq p c

/-- Adding an edge: new exactly when the lists lack it, and then appended to
both. -/
theorem Describes.addEdge (h : r.Describes LC LP) (p c : Uuid) :
    (r.addEdge p c).1 = decide ((p, c) ∉ LC) ∧
      (r.addEdge p c).2.Describes (if (p, c) ∈ LC then LC else LC ++ [(p, c)])
        (if (p, c) ∈ LC then LP else LP ++ [(p, c)]) := by
  have hfresh : ((r.children.get p).insert c).1 = decide ((p, c) ∉ LC) := by
    simp [(h.children.toWF.get p).contains_eq, h.children.get_eq]
  by_cases hpc : (p, c) ∈ LC
  · have : (r.children.get p).insert c = (false, ((r.children.get p).insert c).2) :=
      Prod.ext (by rw [hfresh]; simp [hpc]) rfl
    rw [Relation.addEdge, this]
    simp only [Bool.not_false, if_true, hpc]
    exact ⟨by simp, h⟩
  · have : (r.children.get p).insert c = (true, ((r.children.get p).insert c).2) :=
      Prod.ext (by rw [hfresh]; simp [hpc]) rfl
    rw [Relation.addEdge, this]
    simp only [Bool.not_true, Bool.false_eq_true, if_false, hpc]
    refine ⟨by simp, ⟨?_, h.perm.append_right _, h.children.put_insert hpc, ?_⟩⟩
    · exact List.nodup_append.2 ⟨h.nodup, by simp, fun a ha b hb => by
        simp only [List.mem_singleton] at hb
        exact hb ▸ fun he => hpc (he ▸ ha)⟩
    · have hcp : (c, p) ∉ LP.map Prod.swap := by simpa [h.mem_iff] using hpc
      simpa using h.parents.put_insert hcp

theorem Abstracts.addEdge (h : r.Abstracts L) (p c : Uuid) :
    (r.addEdge p c).1 = decide ((p, c) ∉ L) ∧
      (r.addEdge p c).2.Abstracts (if (p, c) ∈ L then L else L ++ [(p, c)]) := by
  obtain ⟨h1, h2⟩ := h.describes.addEdge p c
  exact ⟨h1, h2.abstracts⟩

/-- Removing an edge: found exactly when the lists have it, and then erased
from both. -/
theorem Describes.removeEdge (h : r.Describes LC LP) (p c : Uuid) :
    (r.removeEdge p c).1 = decide ((p, c) ∈ LC) ∧
      (r.removeEdge p c).2.Describes (if (p, c) ∈ LC then LC.erase (p, c) else LC)
        (if (p, c) ∈ LC then LP.erase (p, c) else LP) := by
  by_cases hpc : (p, c) ∈ LC
  · simp only [Relation.removeEdge, h.hasEdge_eq, hpc, decide_true, Bool.not_true,
      Bool.false_eq_true, if_false, if_true]
    refine ⟨by simp, ⟨h.nodup.erase _, h.perm.erase _, h.children.put_erase p c, ?_⟩⟩
    rw [List.map_erase fun _ _ => Prod.swap_inj.1]
    exact h.parents.put_erase c p
  · simp only [Relation.removeEdge, h.hasEdge_eq, hpc, decide_false, Bool.not_false, if_true,
      if_false]
    exact ⟨by simp, h⟩

theorem Abstracts.removeEdge (h : r.Abstracts L) (p c : Uuid) :
    (r.removeEdge p c).1 = decide ((p, c) ∈ L) ∧
      (r.removeEdge p c).2.Abstracts (if (p, c) ∈ L then L.erase (p, c) else L) := by
  obtain ⟨h1, h2⟩ := h.describes.removeEdge p c
  exact ⟨h1, by by_cases hpc : (p, c) ∈ L <;> simpa [hpc] using h2.abstracts⟩

theorem foldl_eraseParents (ks : List Uuid) (r : Relation) (n : Uuid) :
    ks.foldl (fun (acc : Relation) c =>
        ⟨acc.children, acc.parents.put c ((acc.parents.get c).erase n).2⟩) r =
      ⟨r.children, ks.foldl (fun a c => a.put c ((a.get c).erase n).2) r.parents⟩ := by
  induction ks generalizing r with
  | nil => rfl
  | cons c ks ih => exact ih _

theorem foldl_eraseChildren (ks : List Uuid) (r : Relation) (n : Uuid) :
    ks.foldl (fun (acc : Relation) p =>
        ⟨acc.children.put p ((acc.children.get p).erase n).2, acc.parents⟩) r =
      ⟨ks.foldl (fun a p => a.put p ((a.get p).erase n).2) r.children, r.parents⟩ := by
  induction ks generalizing r with
  | nil => rfl
  | cons p ks ih => exact ih _

/-- The first half of removing `n`: its children entry goes, and `n` leaves
the parents of each of its children. -/
theorem Describes.dropChildren (h : r.Describes LC LP) (n : Uuid) :
    (⟨r.children.put n IdSet.empty,
      (r.childrenOf n).foldl (fun a c => a.put c ((a.get c).erase n).2) r.parents⟩ :
        Relation).Describes (LC.filter (·.1 != n)) (LP.filter (·.1 != n)) := by
  refine ⟨h.nodup.filter _, h.perm.filter _, h.children.put_empty n, ?_⟩
  have hp := h.parents.eraseAll n (r.childrenOf n)
  rw [foldl_erase_eq_filter (nodup_map_swap h.nodup_parents)
    (h.childrenOf_eq n ▸ nodup_targets h.nodup n)
    (fun k => by simp [h.childrenOf_eq, h.mem_iff])] at hp
  rw [List.filter_map] at hp
  exact hp

/-- The second half of removing `n`: its parents entry goes, and `n` leaves
the children of each of its parents. -/
theorem Describes.dropParents (h : r.Describes LC LP) (n : Uuid) :
    (⟨(r.parentsOf n).foldl (fun a p => a.put p ((a.get p).erase n).2) r.children,
      r.parents.put n IdSet.empty⟩ : Relation).Describes (LC.filter (·.2 != n))
        (LP.filter (·.2 != n)) := by
  refine ⟨h.nodup.filter _, h.perm.filter _, ?_, ?_⟩
  · have hc := h.children.eraseAll n (r.parentsOf n)
    have hs : (r.parentsOf n).Nodup := by
      rw [h.parentsOf_eq, ← targets_swap]
      exact nodup_targets (nodup_map_swap h.nodup_parents) n
    rw [foldl_erase_eq_filter h.nodup hs
      (fun k => by simp [h.parentsOf_eq, ← targets_swap, h.mem_iff])] at hc
    exact hc
  · have hp := h.parents.put_empty n
    rw [List.filter_map] at hp
    exact hp

/-- Removing a node: every edge touching it goes, and their number is
returned, a loop counting once. -/
theorem Describes.removeNode (h : r.Describes LC LP) (n : Uuid) :
    (r.removeNode n).1 = (LC.filter fun e => e.1 == n || e.2 == n).length ∧
      (r.removeNode n).2.Describes (LC.filter fun e => e.1 != n && e.2 != n)
        (LP.filter fun e => e.1 != n && e.2 != n) := by
  have h2 := h.dropChildren n
  have h4 := h2.dropParents n
  dsimp only at h4
  have hboth : (fun e : Uuid × Uuid => e.2 != n && e.1 != n) = fun e => e.1 != n && e.2 != n := by
    funext e
    exact Bool.and_comm _ _
  rw [List.filter_filter, List.filter_filter, hboth] at h4
  simp only [Relation.removeNode, foldl_eraseParents, foldl_eraseChildren]
  refine ⟨?_, h4⟩
  -- the parents of `n` left after the first half are counted on the children list
  rw [h2.parentsOf_eq, h.childrenOf_eq, targets, sources, List.length_map, List.length_map,
    ← ((h.perm.filter _).filter _).length_eq]
  exact length_filter_or LC (·.1 == n) (·.2 == n)

theorem Abstracts.removeNode (h : r.Abstracts L) (n : Uuid) :
    (r.removeNode n).1 = (L.filter fun e => e.1 == n || e.2 == n).length ∧
      (r.removeNode n).2.Abstracts (L.filter fun e => e.1 != n && e.2 != n) := by
  obtain ⟨h1, h2⟩ := h.describes.removeNode n
  exact ⟨h1, h2.abstracts⟩

/-! ## Runs of edits -/

/-- One edit of a relation. -/
inductive Edit where
  | addEdge (parent child : Uuid)
  | removeEdge (parent child : Uuid)
  | removeNode (node : Uuid)

/-- What an edit answers: whether the edge was added or removed, or how
many edges the removal of a node dropped. -/
inductive Answer where
  | flag (b : Bool)
  | count (n : Nat)
  deriving DecidableEq

/-- Applies an edit. -/
def apply (r : Relation) : Edit → Answer × Relation
  | .addEdge p c => (.flag (r.addEdge p c).1, (r.addEdge p c).2)
  | .removeEdge p c => (.flag (r.removeEdge p c).1, (r.removeEdge p c).2)
  | .removeNode n => (.count (r.removeNode n).1, (r.removeNode n).2)

/-- Applies edits in order, collecting their answers. -/
def run (r : Relation) : List Edit → List Answer × Relation
  | [] => ([], r)
  | e :: es => ((r.apply e).1 :: ((r.apply e).2.run es).1, ((r.apply e).2.run es).2)

/-- The same edit on a list of edges kept in the order of their latest
insertion: an absent edge is appended, a present one erased, and a node
takes every edge touching it along, counted once each. -/
def Edit.onEdges (L : List (Uuid × Uuid)) : Edit → Answer × List (Uuid × Uuid)
  | .addEdge p c => if (p, c) ∈ L then (.flag false, L) else (.flag true, L ++ [(p, c)])
  | .removeEdge p c => if (p, c) ∈ L then (.flag true, L.erase (p, c)) else (.flag false, L)
  | .removeNode n =>
    (.count (L.filter fun e => e.1 == n || e.2 == n).length, L.filter fun e => e.1 != n && e.2 != n)

/-- Edits in order on a list of edges. -/
def Edit.runOnEdges (L : List (Uuid × Uuid)) : List Edit → List Answer × List (Uuid × Uuid)
  | [] => ([], L)
  | e :: es =>
    ((Edit.onEdges L e).1 :: (Edit.runOnEdges (Edit.onEdges L e).2 es).1,
      (Edit.runOnEdges (Edit.onEdges L e).2 es).2)

theorem Describes.apply (h : r.Describes LC LP) (e : Edit) :
    (r.apply e).1 = (Edit.onEdges LC e).1 ∧
      (r.apply e).2.Describes (Edit.onEdges LC e).2 (Edit.onEdges LP e).2 := by
  cases e with
  | addEdge p c =>
    obtain ⟨h1, h2⟩ := h.addEdge p c
    by_cases hpc : (p, c) ∈ LC <;> simp_all [Relation.apply, Edit.onEdges, h.mem_iff]
  | removeEdge p c =>
    obtain ⟨h1, h2⟩ := h.removeEdge p c
    by_cases hpc : (p, c) ∈ LC <;> simp_all [Relation.apply, Edit.onEdges, h.mem_iff]
  | removeNode n =>
    obtain ⟨h1, h2⟩ := h.removeNode n
    exact ⟨by rw [Relation.apply, Edit.onEdges, h1], h2⟩

theorem Abstracts.apply (h : r.Abstracts L) (e : Edit) :
    (r.apply e).1 = (Edit.onEdges L e).1 ∧ (r.apply e).2.Abstracts (Edit.onEdges L e).2 := by
  obtain ⟨h1, h2⟩ := h.describes.apply e
  exact ⟨h1, h2.abstracts⟩

theorem Abstracts.run (h : r.Abstracts L) (es : List Edit) :
    (r.run es).1 = (Edit.runOnEdges L es).1 ∧ (r.run es).2.Abstracts (Edit.runOnEdges L es).2 := by
  induction es generalizing r L with
  | nil => exact ⟨rfl, h⟩
  | cons e es ih =>
    obtain ⟨ha, hs⟩ := h.apply e
    obtain ⟨hr, hr'⟩ := ih hs
    exact ⟨by rw [Relation.run, Edit.runOnEdges, ha, hr], hr'⟩

/-- Everything a relation answers about its edges, read off the edge list
`L`: each parent's children and each child's parents in `L`'s order and
their numbers, the number of edges, the edge test and the emptiness test,
no node kept with an empty list on either side, and the sorted per-node
listings holding exactly the nodes with an edge. -/
structure Observes (r : Relation) (L : List (Uuid × Uuid)) : Prop where
  nodup : L.Nodup
  childrenOf : ∀ p, r.childrenOf p = targets L p
  parentsOf : ∀ c, r.parentsOf c = sources L c
  nbChildren : ∀ p, r.nbChildren p = (targets L p).length
  nbParents : ∀ c, r.nbParents c = (sources L c).length
  nbEdges : r.nbEdges = L.length
  hasEdge : ∀ p c, r.hasEdge p c = decide ((p, c) ∈ L)
  isEmpty : r.isEmpty = true ↔ L = []
  children_nonempty : ∀ e ∈ r.children, e.2.toList ≠ []
  parents_nonempty : ∀ e ∈ r.parents, e.2.toList ≠ []
  childrenLists : ∀ p l, (p, l) ∈ r.childrenLists ↔ l ≠ [] ∧ l = targets L p
  childrenLists_sorted : (r.childrenLists.map (·.1)).Pairwise (· < ·)
  parentsLists : ∀ c l, (c, l) ∈ r.parentsLists ↔ l ≠ [] ∧ l = sources L c
  parentsLists_sorted : (r.parentsLists.map (·.1)).Pairwise (· < ·)

theorem Abstracts.observes (h : r.Abstracts L) : r.Observes L where
  nodup := h.nodup
  childrenOf := h.childrenOf_eq
  parentsOf := h.parentsOf_eq
  nbChildren p := by rw [← h.childrenOf_eq, nbChildren, (h.children.toWF.get p).size_eq]; rfl
  nbParents c := by rw [← h.parentsOf_eq, nbParents, (h.parents.toWF.get c).size_eq]; rfl
  nbEdges := by
    rw [nbEdges, Adjacency.total_eq h.children.toWF, (h.children.edges_perm h.nodup).length_eq]
  hasEdge := h.hasEdge_eq
  isEmpty := by
    rw [Relation.isEmpty, List.isEmpty_iff]
    exact h.children.eq_nil_iff h.nodup
  children_nonempty := h.children.nonempty
  parents_nonempty := h.parents.nonempty
  childrenLists p l := h.children.mem_sorted
  childrenLists_sorted := h.children.sorted_keys
  parentsLists c l := by rw [Relation.parentsLists, h.parents.mem_sorted, targets_swap]
  parentsLists_sorted := h.parents.sorted_keys

/-- **Relations are edge lists.** Whatever edits are made to the empty
relation, it answers each as the same edit of a list of edges kept in the
order of their latest insertion (an absent edge is added and appended, a
present one removed and erased, a node removed with every edge touching it,
counted once each), and every query of the relation afterwards reads that
list: each node's children and parents in the list's order, their numbers,
the number of edges, the edge test, emptiness, and the sorted per-node
listings, which hold exactly the nodes with an edge. -/
theorem run_observes_edge_list (es : List Edit) :
    (empty.run es).1 = (Edit.runOnEdges [] es).1 ∧
      (empty.run es).2.Observes (Edit.runOnEdges [] es).2 :=
  let h := abstracts_empty.run es
  ⟨h.1, h.2.observes⟩

/-! ## Properties of every edge -/

/-- Every edge of `r` satisfies `P`. -/
def AllEdges (r : Relation) (P : Uuid → Uuid → Prop) : Prop :=
  ∃ L, r.Abstracts L ∧ ∀ e ∈ L, P e.1 e.2

variable {P Q : Uuid → Uuid → Prop}

theorem allEdges_empty : empty.AllEdges P := ⟨[], abstracts_empty, by simp⟩

theorem AllEdges.mono (h : r.AllEdges P) (hPQ : ∀ a b, P a b → Q a b) : r.AllEdges Q := by
  obtain ⟨L, hL, hP⟩ := h
  exact ⟨L, hL, fun e he => hPQ _ _ (hP e he)⟩

theorem AllEdges.addEdge (h : r.AllEdges P) {p c : Uuid} (hpc : P p c) :
    (r.addEdge p c).2.AllEdges P := by
  obtain ⟨L, hL, hP⟩ := h
  refine ⟨_, (hL.addEdge p c).2, fun e he => ?_⟩
  split at he
  · exact hP e he
  · rcases List.mem_append.1 he with he | he
    · exact hP e he
    · simp only [List.mem_singleton] at he
      exact he ▸ hpc

theorem AllEdges.removeEdge (h : r.AllEdges P) (p c : Uuid) : (r.removeEdge p c).2.AllEdges P := by
  obtain ⟨L, hL, hP⟩ := h
  refine ⟨_, (hL.removeEdge p c).2, fun e he => ?_⟩
  split at he
  · exact hP e (List.mem_of_mem_erase he)
  · exact hP e he

theorem AllEdges.removeNode (h : r.AllEdges P) (n : Uuid) :
    (r.removeNode n).2.AllEdges fun a b => P a b ∧ a ≠ n ∧ b ≠ n := by
  obtain ⟨L, hL, hP⟩ := h
  refine ⟨_, (hL.removeNode n).2, fun e he => ?_⟩
  obtain ⟨he, hne⟩ := List.mem_filter.1 he
  simp only [Bool.and_eq_true, bne_iff_ne, ne_eq] at hne
  exact ⟨hP e he, hne⟩

/-- Edges added one after another, each satisfying `P`, keep every edge
satisfying `P`; `pair` gives the edge added for each element. -/
theorem AllEdges.foldl_addEdge (h : r.AllEdges P) (pair : Uuid → Uuid × Uuid) (xs : List Uuid)
    (hxs : ∀ x ∈ xs, P (pair x).1 (pair x).2) :
    (xs.foldl (fun r x => (r.addEdge (pair x).1 (pair x).2).2) r).AllEdges P := by
  induction xs generalizing r with
  | nil => exact h
  | cons x xs ih =>
    exact ih (h.addEdge (hxs x List.mem_cons_self)) fun y hy => hxs y (List.mem_cons_of_mem _ hy)

theorem AllEdges.and_hasEdge (h : r.AllEdges P) : r.AllEdges fun a b => P a b ∧ r.hasEdge a b := by
  obtain ⟨L, hL, hP⟩ := h
  refine ⟨L, hL, fun e he => ⟨hP e he, ?_⟩⟩
  rw [hL.hasEdge_eq, decide_eq_true_eq]
  exact he

theorem AllEdges.hasEdge_addEdge (h : r.AllEdges P) {p c x y : Uuid}
    (hxy : (r.addEdge p c).2.hasEdge x y = true) : r.hasEdge x y = true ∨ (x = p ∧ y = c) := by
  obtain ⟨L, hL, -⟩ := h
  rw [(hL.addEdge p c).2.hasEdge_eq, decide_eq_true_eq] at hxy
  rw [hL.hasEdge_eq, decide_eq_true_eq]
  split at hxy
  · exact .inl hxy
  · rcases List.mem_append.1 hxy with hxy | hxy
    · exact .inl hxy
    · simp only [List.mem_singleton, Prod.mk.injEq] at hxy
      exact .inr hxy

theorem AllEdges.hasEdge_removeEdge (h : r.AllEdges P) {p c x y : Uuid}
    (hxy : (r.removeEdge p c).2.hasEdge x y = true) : r.hasEdge x y = true := by
  obtain ⟨L, hL, -⟩ := h
  rw [(hL.removeEdge p c).2.hasEdge_eq, decide_eq_true_eq] at hxy
  rw [hL.hasEdge_eq, decide_eq_true_eq]
  split at hxy
  · exact List.mem_of_mem_erase hxy
  · exact hxy

theorem AllEdges.hasEdge_removeNode (h : r.AllEdges P) {n x y : Uuid}
    (hxy : (r.removeNode n).2.hasEdge x y = true) : r.hasEdge x y = true := by
  obtain ⟨L, hL, -⟩ := h
  rw [(hL.removeNode n).2.hasEdge_eq, decide_eq_true_eq] at hxy
  rw [hL.hasEdge_eq, decide_eq_true_eq]
  exact (List.mem_filter.1 hxy).1

theorem AllEdges.of_hasEdge (h : r.AllEdges P) {p c : Uuid} (hpc : r.hasEdge p c = true) : P p c := by
  obtain ⟨L, hL, hP⟩ := h
  rw [hL.hasEdge_eq, decide_eq_true_eq] at hpc
  exact hP _ hpc

theorem AllEdges.of_mem_childrenOf (h : r.AllEdges P) {p c : Uuid} (hc : c ∈ r.childrenOf p) :
    P p c := by
  obtain ⟨L, hL, hP⟩ := h
  rw [hL.childrenOf_eq, mem_targets] at hc
  exact hP _ hc

theorem AllEdges.of_mem_parentsOf (h : r.AllEdges P) {p c : Uuid} (hp : p ∈ r.parentsOf c) :
    P p c := by
  obtain ⟨L, hL, hP⟩ := h
  rw [hL.parentsOf_eq, ← targets_swap, mem_targets] at hp
  obtain ⟨e, he, hswap⟩ := List.mem_map.1 hp
  have : e = (p, c) := by
    rw [← Prod.swap_swap e, hswap]
    rfl
  subst this
  exact hP _ he

end Relation

end Subsurface
