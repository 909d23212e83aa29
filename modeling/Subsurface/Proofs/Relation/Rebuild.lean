import Subsurface.Proofs.Relation
import Mathlib.Data.List.Induction
import Mathlib.Data.List.Perm.Subperm
import Mathlib.Data.List.ProdSigma
/-!
Relations rebuilt from per-node lists.

`Relation.ofLists` reads a children listing and a parents listing. On each
side a node keeps the last non-empty list given for it, with later
repetitions dropped. The relation is accepted exactly when the two sides
describe the same edges (`Relation.ofLists_eq_some_iff`), although the check
only compares the numbers of edges and includes the parents side in the
children side: neither side holds an edge twice, so an inclusion between
equally many edges is an equality.

A relation is consistent when both sides are well formed and hold the same
edges. Edits and rebuilding keep relations consistent
(`Relation.Reachable.consistent`), and a consistent relation rebuilt from its
own sorted listings gives back every node's children and parents in order
(`Relation.Consistent.rebuild`).
-/

namespace Subsurface

namespace Relation

/-- The last non-empty list that `lists` gives for `k`, empty when there is
none. -/
def lastListFor (lists : List (Uuid × List Uuid)) (k : Uuid) : List Uuid :=
  ((lists.filter fun e => e.1 == k && !e.2.isEmpty).getLast?.map (·.2)).getD []

theorem lastListFor_append_single (lists : List (Uuid × List Uuid)) (k k' : Uuid)
    (vs : List Uuid) :
    lastListFor (lists ++ [(k, vs)]) k' = if k' = k ∧ vs ≠ [] then vs else lastListFor lists k' := by
  unfold lastListFor
  by_cases h : k' = k ∧ vs ≠ []
  · obtain ⟨rfl, hvs⟩ := h
    simp [List.filter_append, hvs]
  · have hf : (k == k' && !vs.isEmpty) = false := by
      by_cases hk : k' = k
      · simpa [hk] using h
      · simp [Ne.symm hk]
    simp [List.filter_append, hf, h]

theorem adjacencyOf_append_single (lists : List (Uuid × List Uuid)) (k : Uuid) (vs : List Uuid) :
    adjacencyOf (lists ++ [(k, vs)]) =
      if vs.isEmpty then adjacencyOf lists
      else (adjacencyOf lists).filter (·.1 != k) ++ [(k, IdSet.ofList vs)] := by
  simp only [adjacencyOf, List.foldl_append, List.foldl_cons, List.foldl_nil]

end Relation

namespace Adjacency

variable {a : Adjacency}

/-- Replacing the entry of `k` by a last entry changes what `k` reads and
nothing else. -/
theorem get_filter_append (a : Adjacency) (k k' : Uuid) (s : IdSet) :
    Adjacency.get (a.filter (·.1 != k) ++ [(k, s)]) k' = if k' = k then s else a.get k' := by
  unfold get
  rw [List.lookup_append, lookup_filter_ne]
  by_cases hk : k' = k
  · subst hk
    simp
  · simp [hk, lookup_cons_ite]

theorem WF.filter_append (h : a.WF) (k : Uuid) {s : IdSet} (hs : s.WF) (hne : s.toList ≠ []) :
    Adjacency.WF (a.filter (·.1 != k) ++ [(k, s)]) := by
  refine ⟨?_, ?_, ?_⟩
  · rw [List.map_append, List.nodup_append]
    refine ⟨(List.filter_sublist.map _).nodup h.keys, by simp, ?_⟩
    intro x hx y hy
    obtain ⟨e, he, rfl⟩ := List.mem_map.1 hx
    simp only [List.map_cons, List.map_nil, List.mem_singleton] at hy
    subst hy
    simpa using (List.mem_filter.1 he).2
  · intro e he
    rcases List.mem_append.1 he with he | he
    · exact h.sets e (List.mem_of_mem_filter he)
    · rw [List.mem_singleton] at he
      exact he ▸ hs
  · intro e he
    rcases List.mem_append.1 he with he | he
    · exact h.nonempty e (List.mem_of_mem_filter he)
    · rw [List.mem_singleton] at he
      exact he ▸ hne

theorem forall_mem_edges {Q : Uuid → Uuid → Prop} :
    (∀ k s, (k, s) ∈ a → ∀ v ∈ s.toList, Q k v) ↔ ∀ k v, (k, v) ∈ edges a → Q k v := by
  simp only [edges, List.mem_flatMap, List.mem_map, Prod.mk.injEq]
  constructor
  · rintro h k v ⟨⟨k', s⟩, he, v', hv, rfl, rfl⟩
    exact h k' s he v' hv
  · intro h k s he v hv
    exact h k v ⟨_, he, v, hv, rfl, rfl⟩

/-- With one entry per node, the edges stored from `k` are the members of the
set `k` reads, in order. -/
theorem targets_edges (hk : (a.map (·.1)).Nodup) (k : Uuid) :
    targets (edges a) k = (a.get k).toList := by
  induction a with
  | nil => rfl
  | cons e a ih =>
    simp only [List.map_cons, List.nodup_cons] at hk
    have hblock : targets (e.2.toList.map (e.1, ·)) k = if k = e.1 then e.2.toList else [] := by
      by_cases hke : k = e.1
      · simp [targets, hke, List.filter_map, Function.comp_def]
      · simp [targets, List.filter_map, Function.comp_def, Ne.symm hke, hke]
    rw [edges, List.flatMap_cons, targets, List.filter_append, List.map_append, ← targets,
      ← targets, hblock, ← edges, ih hk.2]
    unfold get
    rw [lookup_cons_ite]
    by_cases hke : k = e.1
    · subst hke
      simp [lookup_eq_none_of_not_mem hk.1, IdSet.toList_empty]
    · simp [hke]

theorem WF.lists_edges (h : a.WF) : a.Lists (edges a) :=
  ⟨h, fun k => (targets_edges h.keys k).symm⟩

end Adjacency

/-- Two duplicate-free lists of equal length, one included in the other, have
the same members. -/
theorem mem_iff_of_length_eq_of_subset {α : Type} {l₁ l₂ : List α} (h₁ : l₁.Nodup)
    (h₂ : l₂.Nodup) : (l₁.length = l₂.length ∧ l₂ ⊆ l₁) ↔ ∀ x, x ∈ l₁ ↔ x ∈ l₂ := by
  constructor
  · rintro ⟨hlen, hsub⟩
    have hp : l₂.Perm l₁ := (h₂.subperm hsub).perm_of_length_le (Nat.le_of_eq hlen)
    exact fun x => hp.mem_iff.symm
  · intro hmem
    have hp : l₁.Perm l₂ := (List.perm_ext_iff_of_nodup h₁ h₂).2 hmem
    exact ⟨hp.length_eq, fun x hx => hp.mem_iff.2 hx⟩

namespace Relation

/-- The adjacency built from a listing is well formed, and each node reads
the last non-empty list given for it, later repetitions dropped. -/
theorem adjacencyOf_spec (lists : List (Uuid × List Uuid)) :
    (adjacencyOf lists).WF ∧
      ∀ k, ((adjacencyOf lists).get k).toList = (lastListFor lists k).eraseDups := by
  induction lists using List.reverseRecOn with
  | nil => exact ⟨Adjacency.wf_nil, fun k => rfl⟩
  | append_singleton lists e ih =>
    obtain ⟨k, vs⟩ := e
    obtain ⟨hw, hget⟩ := ih
    rw [adjacencyOf_append_single]
    by_cases hvs : vs = []
    · subst hvs
      exact ⟨hw, fun k' => by simp [hget, lastListFor_append_single]⟩
    · have hne : (IdSet.ofList vs).toList ≠ [] := by
        obtain ⟨x, hx⟩ := List.exists_mem_of_ne_nil vs hvs
        rw [IdSet.toList_ofList]
        exact List.ne_nil_of_mem (List.mem_eraseDups.2 hx)
      rw [if_neg (by simpa using hvs)]
      refine ⟨hw.filter_append k (IdSet.wf_ofList vs) hne, fun k' => ?_⟩
      rw [Adjacency.get_filter_append, lastListFor_append_single]
      by_cases hk : k' = k
      · simp [hk, hvs, IdSet.toList_ofList]
      · simp [hk, hget]

theorem mem_edges_adjacencyOf (lists : List (Uuid × List Uuid)) {k v : Uuid} :
    (k, v) ∈ Adjacency.edges (adjacencyOf lists) ↔ v ∈ lastListFor lists k := by
  obtain ⟨hw, hget⟩ := adjacencyOf_spec lists
  rw [hw.mem_edges, hget, List.mem_eraseDups]

/-- Reading the last list of a node back from a sorted listing gives the list
the node reads. -/
theorem lastListFor_sorted {a : Adjacency} (h : a.WF) (k : Uuid) :
    lastListFor a.sorted k = (a.get k).toList := by
  have hmem : ∀ k' l, (k', l) ∈ a.sorted.filter (fun e => e.1 == k && !e.2.isEmpty) ↔
      k' = k ∧ l = (a.get k).toList ∧ l ≠ [] := by
    intro k' l
    simp only [List.mem_filter, h.mem_sorted, Bool.and_eq_true, beq_iff_eq, Bool.not_eq_true',
      List.isEmpty_eq_false_iff]
    constructor
    · rintro ⟨⟨hl, rfl⟩, rfl, -⟩
      exact ⟨rfl, rfl, hl⟩
    · rintro ⟨rfl, rfl, hl⟩
      exact ⟨⟨hl, rfl⟩, rfl, hl⟩
  unfold lastListFor
  by_cases hne : (a.get k).toList = []
  · -- no entry is kept
    rw [hne, List.filter_eq_nil_iff.2 fun e he hp => ?_]
    · rfl
    · obtain ⟨k', l⟩ := e
      obtain ⟨-, hl, hl'⟩ := (hmem k' l).1 (List.mem_filter.2 ⟨he, hp⟩)
      exact hl' (hl.trans hne)
  · -- the sorted listing has one entry per node, so one entry is kept
    have hnd : a.sorted.Nodup := List.Nodup.of_map _ (Adjacency.sorted_keys_nodup h)
    have hone : a.sorted.filter (fun e => e.1 == k && !e.2.isEmpty) = [(k, (a.get k).toList)] := by
      refine List.perm_singleton.1 ((List.perm_ext_iff_of_nodup (hnd.filter _)
        (List.nodup_singleton _)).2 (Prod.forall.2 fun k' l => ?_))
      rw [hmem, List.mem_singleton, Prod.mk.injEq]
      constructor
      · rintro ⟨hk, hl, -⟩
        exact ⟨hk, hl⟩
      · rintro ⟨hk, hl⟩
        exact ⟨hk, hl, hl ▸ hne⟩
    rw [hone]
    rfl

/-- The adjacency rebuilt from a well-formed one's sorted listing reads what
it reads. -/
theorem get_adjacencyOf_sorted {a : Adjacency} (h : a.WF) (k : Uuid) :
    ((adjacencyOf a.sorted).get k).toList = (a.get k).toList := by
  rw [(adjacencyOf_spec _).2, lastListFor_sorted h, IdSet.eraseDups_eq_self (h.get k).nodup]

/-! ## Acceptance -/

/-- A pair of listings is accepted exactly when both sides describe the same
edges: `c` is in the last non-empty list of `p` on the children side exactly
when `p` is in the last non-empty list of `c` on the parents side. -/
theorem ofLists_eq_some_iff {C P : List (Uuid × List Uuid)} {r : Relation} :
    ofLists C P = some r ↔
      r = ⟨adjacencyOf C, adjacencyOf P⟩ ∧ ∀ p c, c ∈ lastListFor C p ↔ p ∈ lastListFor P c := by
  obtain ⟨hC, -⟩ := adjacencyOf_spec C
  obtain ⟨hP, -⟩ := adjacencyOf_spec P
  -- the test reads each edge of the parents side, flipped, on the children side
  have hincl : (∀ c ps, (c, ps) ∈ adjacencyOf P → ∀ p ∈ ps.toList,
      hasEdge ⟨adjacencyOf C, adjacencyOf P⟩ p c = true) ↔
        (Adjacency.edges (adjacencyOf P)).map Prod.swap ⊆ Adjacency.edges (adjacencyOf C) := by
    rw [Adjacency.forall_mem_edges, List.subset_def, List.forall_mem_map, Prod.forall]
    simp only [Prod.swap_prod_mk, hasEdge, (hC.get _).contains_eq, decide_eq_true_eq,
      hC.mem_edges]
  have hsame : (∀ e, e ∈ Adjacency.edges (adjacencyOf C) ↔
      e ∈ (Adjacency.edges (adjacencyOf P)).map Prod.swap) ↔
        ∀ p c, c ∈ lastListFor C p ↔ p ∈ lastListFor P c := by
    simp [mem_edges_adjacencyOf]
  have hlen : (Adjacency.edges (adjacencyOf P)).length =
      ((Adjacency.edges (adjacencyOf P)).map Prod.swap).length := (List.length_map _).symm
  unfold ofLists
  simp only [Option.ite_none_right_eq_some, Option.some.injEq, Bool.and_eq_true, beq_iff_eq,
    List.all_eq_true, Prod.forall]
  -- one count and one inclusion between duplicate-free edge lists
  rw [hincl, Adjacency.total_eq hC, Adjacency.total_eq hP, hlen,
    mem_iff_of_length_eq_of_subset hC.nodup_edges (nodup_map_swap hP.nodup_edges), hsame]
  constructor
  · rintro ⟨h, hr⟩
    exact ⟨hr.symm, h⟩
  · rintro ⟨hr, h⟩
    exact ⟨h, hr.symm⟩

/-! ## Consistent relations -/

variable {r : Relation} {LC LP : List (Uuid × Uuid)}

/-- Both sides of `r` are well formed and hold the same edges: `c` is a child
of `p` exactly when `p` is a parent of `c`. -/
structure Consistent (r : Relation) : Prop where
  children : r.children.WF
  parents : r.parents.WF
  mem_iff : ∀ p c, c ∈ r.childrenOf p ↔ p ∈ r.parentsOf c

theorem Describes.consistent (h : r.Describes LC LP) : r.Consistent := by
  refine ⟨h.children.toWF, h.parents.toWF, fun p c => ?_⟩
  rw [h.childrenOf_eq, parentsOf, h.parents.get_eq, mem_targets, mem_targets, List.mem_map_swap,
    h.mem_iff]

/-- A consistent relation describes the edges its children side stores, in
the order each parent reads them, and those its parents side stores, in the
order each child reads them. -/
theorem Consistent.describes (h : r.Consistent) :
    r.Describes (Adjacency.edges r.children) ((Adjacency.edges r.parents).map Prod.swap) := by
  have hswap : ((Adjacency.edges r.parents).map Prod.swap).map Prod.swap =
      Adjacency.edges r.parents := by
    simp [List.map_map, Function.comp_def]
  refine ⟨h.children.nodup_edges, ?_, h.children.lists_edges,
    by rw [hswap]; exact h.parents.lists_edges⟩
  refine (List.perm_ext_iff_of_nodup h.children.nodup_edges
    (nodup_map_swap h.parents.nodup_edges)).2 (Prod.forall.2 fun p c => ?_)
  rw [List.mem_map_swap, h.children.mem_edges, h.parents.mem_edges]
  exact h.mem_iff p c

theorem ofLists_consistent {C P : List (Uuid × List Uuid)} (h : ofLists C P = some r) :
    r.Consistent := by
  obtain ⟨rfl, hsym⟩ := ofLists_eq_some_iff.1 h
  obtain ⟨hC, hgetC⟩ := adjacencyOf_spec C
  obtain ⟨hP, hgetP⟩ := adjacencyOf_spec P
  refine ⟨hC, hP, fun p c => ?_⟩
  rw [childrenOf, parentsOf, hgetC, hgetP, List.mem_eraseDups, List.mem_eraseDups]
  exact hsym p c

/-- A consistent relation rebuilt from its own sorted listings is accepted and
gives every node back its children and its parents, in order. -/
theorem Consistent.rebuild (h : r.Consistent) :
    ∃ r', ofLists r.childrenLists r.parentsLists = some r' ∧
      ∀ k, r'.childrenOf k = r.childrenOf k ∧ r'.parentsOf k = r.parentsOf k := by
  refine ⟨_, ofLists_eq_some_iff.2 ⟨rfl, fun p c => ?_⟩,
    fun k => ⟨get_adjacencyOf_sorted h.children k, get_adjacencyOf_sorted h.parents k⟩⟩
  rw [childrenLists, parentsLists, lastListFor_sorted h.children, lastListFor_sorted h.parents]
  exact h.mem_iff p c

/-- The relations reached from the empty one by edits, and by rebuilding from
accepted listings. -/
inductive Reachable : Relation → Prop
  | empty : Reachable empty
  | apply {r : Relation} (e : Edit) : Reachable r → Reachable (r.apply e).2
  | ofLists {C P : List (Uuid × List Uuid)} {r : Relation} : ofLists C P = some r → Reachable r

theorem Reachable.run (h : r.Reachable) (es : List Edit) : (r.run es).2.Reachable := by
  induction es generalizing r with
  | nil => exact h
  | cons e es ih => exact ih (h.apply e)

theorem Reachable.consistent (h : r.Reachable) : r.Consistent := by
  induction h with
  | empty => exact abstracts_empty.describes.consistent
  | apply e _ ih => exact (ih.describes.apply e).2.consistent
  | ofLists h => exact ofLists_consistent h

/-- **Rebuilding accepts the listings that describe one set of edges.** A pair
of listings is accepted exactly when both sides describe the same edges, and
then every node reads the last non-empty list given for it, later
repetitions dropped; a reachable relation rebuilt from its own listings has
the same children and parents at every node, in the same order. -/
theorem ofLists_accepts_same_edges (C P : List (Uuid × List Uuid)) :
    ((ofLists C P).isSome ↔ ∀ p c, c ∈ lastListFor C p ↔ p ∈ lastListFor P c) ∧
      (∀ r, ofLists C P = some r →
        ∀ k, r.childrenOf k = (lastListFor C k).eraseDups ∧
          r.parentsOf k = (lastListFor P k).eraseDups) ∧
      ∀ g : Relation, g.Reachable → ∃ r, ofLists g.childrenLists g.parentsLists = some r ∧
        ∀ k, r.childrenOf k = g.childrenOf k ∧ r.parentsOf k = g.parentsOf k := by
  refine ⟨?_, fun r hr k => ?_, fun g hg => hg.consistent.rebuild⟩
  · rw [Option.isSome_iff_exists]
    constructor
    · rintro ⟨r, hr⟩
      exact (ofLists_eq_some_iff.1 hr).2
    · intro hsym
      exact ⟨_, ofLists_eq_some_iff.2 ⟨rfl, hsym⟩⟩
  · obtain ⟨rfl, -⟩ := ofLists_eq_some_iff.1 hr
    exact ⟨(adjacencyOf_spec C).2 k, (adjacencyOf_spec P).2 k⟩

/-- Two edges from one parent and two into one child come back in the order
they were made, and a children listing without its parents listing is
refused. -/
theorem three_edges_rebuilt_in_order :
    (∃ r, ofLists (empty.run [.addEdge (Uuid.ofNat 0) (Uuid.ofNat 3),
          .addEdge (Uuid.ofNat 0) (Uuid.ofNat 1), .addEdge (Uuid.ofNat 2) (Uuid.ofNat 1)]).2.childrenLists
        (empty.run [.addEdge (Uuid.ofNat 0) (Uuid.ofNat 3),
          .addEdge (Uuid.ofNat 0) (Uuid.ofNat 1), .addEdge (Uuid.ofNat 2) (Uuid.ofNat 1)]).2.parentsLists =
          some r ∧
        r.childrenOf (Uuid.ofNat 0) = [Uuid.ofNat 3, Uuid.ofNat 1] ∧
        r.parentsOf (Uuid.ofNat 1) = [Uuid.ofNat 0, Uuid.ofNat 2]) ∧
      ofLists [(Uuid.ofNat 0, [Uuid.ofNat 1])] [] = none := by
  obtain ⟨hsome, -, hround⟩ := ofLists_accepts_same_edges [(Uuid.ofNat 0, [Uuid.ofNat 1])] []
  refine ⟨?_, ?_⟩
  · obtain ⟨r, hr, hk⟩ := hround _ (Reachable.empty.run _)
    refine ⟨r, hr, ?_, ?_⟩
    · rw [(hk _).1]
      decide
    · rw [(hk _).2]
      decide
  · -- the edge of the children side is missing from the parents side
    have hmiss : ¬ ∀ p c, c ∈ lastListFor [(Uuid.ofNat 0, [Uuid.ofNat 1])] p ↔
        p ∈ lastListFor [] c := fun h =>
      absurd ((h (Uuid.ofNat 0) (Uuid.ofNat 1)).1 (by decide)) (by decide)
    exact Option.not_isSome_iff_eq_none.1 fun hs => hmiss (hsome.1 hs)

end Relation

end Subsurface
