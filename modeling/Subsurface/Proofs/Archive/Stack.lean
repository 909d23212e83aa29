import Subsurface.Proofs.Archive.Keys
import Subsurface.Proofs.Stack.Atomic
/-!
Reading a saved stack gives the stack back.

A stack is saved as its nodes kind by kind, the pairs of its links sorted,
the children lists of its erosions and baselaps, and whether it is built.
Reading it registers the nodes again, links the pairs one after another,
adds the erosions and baselaps edge by edge, and computes the column again
when it was built. On a stack the builders reach every step goes through:
the nodes have distinct identifiers, and the pairs of links that are
already replayed are links of the saved stack, so a pair can neither close a
cycle nor meet a node already linked on its side (`foldlM_link`). The stack
read back registers the same nodes in the same order kind by kind, has the
same links, the same erosion and baselap edges with the same children in
the same order, and the same state, top and bottom (`RestoredAs`). Its
parents lists may come in another order: they are not saved, so it is
written again as the same bytes (`load_save_stack`).
-/

open Relation (TransGen)

namespace Subsurface

theorem except_ok_bind {ε α β : Type} {a : α} {f : α → Except ε β} :
    (Except.ok a >>= f : Except ε β) = f a := rfl

namespace NodeMap

variable {m : NodeMap} {k v : Uuid}

theorem get?_eq_of_perm {m' : NodeMap} (hp : m'.Perm m) (hk : (m.map (·.1)).Nodup) (x : Uuid) :
    m'.get? x = m.get? x :=
  lookup_eq_of_perm hp hk x

theorem insert_of_not_mem (h : k ∉ m.map (·.1)) : m.insert k v = m ++ [(k, v)] := by
  rw [insert, filter_fst_ne_of_not_mem h]

end NodeMap

/-! ## Relations rebuilt from their children lists -/

/-- The edges that children lists stand for, list by list. -/
def listedEdges (lists : List (Uuid × List Uuid)) : List (Uuid × Uuid) :=
  lists.flatMap fun e => e.2.map (e.1, ·)

theorem targets_listedEdges {lists : List (Uuid × List Uuid)} (hk : (lists.map (·.1)).Nodup)
    (p : Uuid) : targets (listedEdges lists) p = (lists.lookup p).getD [] := by
  induction lists with
  | nil => rfl
  | cons e lists ih =>
    simp only [List.map_cons, List.nodup_cons] at hk
    have hblock : targets (e.2.map (e.1, ·)) p = if p = e.1 then e.2 else [] := by
      by_cases hp : p = e.1
      · simp [targets, hp, List.filter_map, Function.comp_def]
      · simp [targets, List.filter_map, Function.comp_def, Ne.symm hp, hp]
    rw [listedEdges, List.flatMap_cons, targets, List.filter_append, List.map_append, ← targets,
      ← targets, hblock, ← listedEdges, ih hk.2, lookup_cons_ite]
    by_cases hp : p = e.1
    · subst hp
      simp [lookup_eq_none_of_not_mem hk.1]
    · simp [hp]

namespace Relation

variable {r : Relation} {L : List (Uuid × Uuid)}

theorem Abstracts.foldl_addEdge (h : r.Abstracts L) (E : List (Uuid × Uuid)) (hE : (L ++ E).Nodup) :
    (E.foldl (fun r e => (r.addEdge e.1 e.2).2) r).Abstracts (L ++ E) := by
  induction E generalizing r L with
  | nil => simpa using h
  | cons e E ih =>
    have he : e ∉ L := not_mem_of_nodup_append_cons hE
    have h' := (h.addEdge e.1 e.2).2
    rw [if_neg he] at h'
    rw [List.foldl_cons]
    simpa using ih h' (by simpa using hE)

theorem relationOfChildren_eq (lists : List (Uuid × List Uuid)) :
    Archive.relationOfChildren lists =
      (listedEdges lists).foldl (fun r e => (r.addEdge e.1 e.2).2) empty := by
  unfold Archive.relationOfChildren listedEdges
  rw [List.foldl_flatMap]
  congr 1
  funext r e
  rw [List.foldl_map]

theorem Abstracts.listedEdges_perm (h : r.Abstracts L) : (listedEdges r.childrenLists).Perm L := by
  have hedges : listedEdges (r.children.map fun e => (e.1, e.2.toList)) = Adjacency.edges r.children := by
    simp [listedEdges, Adjacency.edges, List.flatMap_map]
  refine List.Perm.trans ?_ (h.children.edges_perm h.nodup)
  rw [← hedges]
  exact (List.mergeSort_perm _ _).flatMap_right _

theorem Abstracts.targets_listedEdges (h : r.Abstracts L) (p : Uuid) :
    targets (listedEdges r.childrenLists) p = targets L p := by
  unfold childrenLists
  rw [Subsurface.targets_listedEdges (Adjacency.sorted_keys_nodup h.children.toWF)]
  cases hl : r.children.sorted.lookup p with
  | none =>
    by_contra hne
    have hmem := h.children.mem_sorted.2 ⟨Ne.symm hne, rfl⟩
    rw [lookup_of_mem (Adjacency.sorted_keys_nodup h.children.toWF) hmem] at hl
    cases hl
  | some l => exact (h.children.mem_sorted.1 (mem_of_lookup hl)).2

/-- **A relation rebuilt from its children lists** keeps its edges and each
parent's children in order. -/
theorem Abstracts.relationOfChildren (h : r.Abstracts L) :
    ∃ M, (Archive.relationOfChildren r.childrenLists).Abstracts M ∧ M.Perm L ∧
      ∀ p, targets M p = targets L p := by
  have hnodup : (listedEdges r.childrenLists).Nodup := h.listedEdges_perm.nodup_iff.2 h.nodup
  refine ⟨listedEdges r.childrenLists, ?_, h.listedEdges_perm, h.targets_listedEdges⟩
  rw [relationOfChildren_eq]
  simpa using abstracts_empty.foldl_addEdge _ (by simpa using hnodup)

theorem Abstracts.hasEdge_relationOfChildren (h : r.Abstracts L) :
    (Archive.relationOfChildren r.childrenLists).hasEdge = r.hasEdge := by
  obtain ⟨M, hM, hperm, -⟩ := h.relationOfChildren
  funext p c
  rw [hM.hasEdge_eq, h.hasEdge_eq]
  exact decide_eq_decide.2 hperm.mem_iff

theorem Abstracts.childrenLists_relationOfChildren (h : r.Abstracts L) :
    (Archive.relationOfChildren r.childrenLists).childrenLists = r.childrenLists := by
  obtain ⟨M, hM, -, htargets⟩ := h.relationOfChildren
  exact h.children.sorted_eq ⟨hM.children.toWF, fun k => (hM.children.get_eq k).trans (htargets k)⟩

end Relation

/-! ## Catalogs listed kind by kind -/

namespace Catalog

variable {c : Catalog} {x : Component} {L : List Component}

theorem Distinct.get?_all (h : c.Distinct) : (⟨c.all⟩ : Catalog).get? = c.get? := by
  funext y
  have hall : (⟨c.all⟩ : Catalog).Distinct := h.all
  cases hg : c.get? y with
  | some x =>
    obtain ⟨hx, rfl⟩ := get?_eq_some hg
    exact hall.get?_of_mem (mem_all_iff.2 hx)
  | none =>
    cases hg' : (⟨c.all⟩ : Catalog).get? y with
    | none => rfl
    | some x =>
      obtain ⟨hx, rfl⟩ := get?_eq_some hg'
      rw [h.get?_of_mem (mem_all_iff.1 hx)] at hg
      cases hg

theorem Distinct.kindOf?_all (h : c.Distinct) : (⟨c.all⟩ : Catalog).kindOf? = c.kindOf? := by
  funext y
  simp only [kindOf?, h.get?_all]

theorem Distinct.contains_all (h : c.Distinct) : (⟨c.all⟩ : Catalog).contains = c.contains := by
  funext y
  rw [contains_eq_isSome, contains_eq_isSome, h.get?_all]

end Catalog

/-! ## Reading a stack back -/

namespace HorizonStack

variable {s t t0 : HorizonStack} {b : Bool}

theorem climb_congr_get? (h : ∀ x, t.aboveOf.get? x = s.aboveOf.get? x) : t.climb = s.climb := by
  funext limit fuel
  induction fuel with
  | zero => rfl
  | succ fuel ih =>
    funext acc cur
    unfold climb
    rw [h, ih]

theorem column_congr_get? (hall : t.catalog.all.map (·.id) = s.catalog.all.map (·.id))
    (ha : ∀ x, t.aboveOf.get? x = s.aboveOf.get? x) (hu : ∀ x, t.underOf.get? x = s.underOf.get? x) :
    t.column = s.column := by
  unfold column
  simp only [hall, hu, climb_congr_get? ha]

theorem computeTopAndBottom_of_column {col : List Uuid} {top bot : Uuid} (hc : s.column = .ok col)
    (hb : col.find? s.isHorizon = some bot) (ht : col.reverse.find? s.isHorizon = some top) :
    s.computeTopAndBottom = .ok { s with top := some top, bottom := some bot, state := .built } := by
  have hb' : col.find? (fun id => (s.horizon id).toBool) = some bot := hb
  have ht' : col.reverse.find? (fun id => (s.horizon id).toBool) = some top := ht
  unfold computeTopAndBottom
  simp only [hc, bind, Except.bind, hb', ht']
  rfl

/-- Registering components under new identifiers one by one, each time
marking the stack as changed, appends them to the catalog. -/
theorem foldlM_insertNode {F : HorizonStack → Component → Except Error HorizonStack}
    (hF : ∀ t x, t.catalog.contains x.id = false →
      F t x = .ok (touch { t with catalog := t.catalog.register x })) :
    ∀ (L : List Component) (t : HorizonStack), touch t = t →
      ((t.catalog.components ++ L).map (·.id)).Nodup →
      L.foldlM F t = .ok (touch { t with catalog := ⟨t.catalog.components ++ L⟩ })
  | [], t, ht, _ => by
    rw [List.foldlM_nil, List.append_nil]
    exact congrArg Except.ok ht.symm
  | x :: L, t, ht, hL => by
    rw [List.foldlM_cons, hF t x (Catalog.contains_eq_false_of_nodup hL)]
    have hL' : (((touch { t with catalog := t.catalog.register x }).catalog.components ++ L).map
        (·.id)).Nodup := by
      simpa [Catalog.register] using hL
    rw [except_ok_bind, foldlM_insertNode hF L _ rfl hL']
    simp [Catalog.register, touch]

/-- Linking pairs one after another, each a link of the acyclic column `s`,
none of whose nodes is linked yet on its side, and both registered:
every link goes through and is appended to both maps. -/
theorem foldlM_link {f : HorizonStack → Uuid × Uuid → Except Error HorizonStack}
    (hf : ∀ t p, t.catalog.contains p.1 = true → t.catalog.contains p.2 = true →
      f t p = t.link p.1 p.2)
    (hacyc : ∀ x, ¬TransGen s.aboveOf.Edge x x) :
    ∀ (rest done : List (Uuid × Uuid)) (t : HorizonStack), t.aboveOf = done.map Prod.swap →
      t.underOf = done → touch t = t → ((done ++ rest).map (·.1)).Nodup →
      ((done ++ rest).map (·.2)).Nodup →
      (∀ p ∈ done ++ rest, s.aboveOf.get? p.2 = some p.1 ∧ t.catalog.contains p.1 = true ∧
        t.catalog.contains p.2 = true) →
      rest.foldlM f t =
        .ok (touch { t with aboveOf := (done ++ rest).map Prod.swap, underOf := done ++ rest })
  | [], done, t, ha, hu, ht, _, _, _ => by
    rw [List.foldlM_nil, List.append_nil, ← ha, ← hu]
    exact congrArg Except.ok ht.symm
  | p :: rest, done, t, ha, hu, ht, hkeys, hvals, hlinks => by
    obtain ⟨hsp, hc1, hc2⟩ := hlinks p (by simp)
    -- every link made so far is a link of `s`
    have hsub : ∀ x y, t.aboveOf.Edge x y → s.aboveOf.Edge x y := by
      intro x y hxy
      unfold NodeMap.Edge NodeMap.get? at hxy
      rw [ha] at hxy
      obtain ⟨q, hq, hqxy⟩ := List.mem_map.1 (mem_of_lookup hxy)
      obtain ⟨rfl, rfl⟩ := Prod.mk.inj hqxy
      exact (hlinks q (List.mem_append_left _ hq)).1
    have hne : p.1 ≠ p.2 := by
      intro he
      exact hacyc p.2 (.single (he ▸ hsp : s.aboveOf.get? p.2 = some p.2))
    have hfar : t.isAbove p.2 p.1 = false := by
      refine Bool.eq_false_iff.2 fun habove => hacyc p.1 ?_
      exact (TransGen.mono hsub _ _ (transGen_of_isAbove habove)).tail hsp
    -- neither node of the pair is linked yet on its side
    have hfree1 : p.1 ∉ done.map (·.1) := not_mem_of_nodup_append_cons (by simpa using hkeys)
    have hvals' : (done.map (·.2) ++ p.2 :: rest.map (·.2)).Nodup := by simpa using hvals
    have hfree2 : p.2 ∉ (done.map Prod.swap).map (·.1) := by
      simpa using not_mem_of_nodup_append_cons hvals'
    have habove : t.aboveOf.get? p.2 = none := by
      rw [ha]
      exact lookup_eq_none_of_not_mem hfree2
    have hunder : t.underOf.get? p.1 = none := by
      rw [hu]
      exact lookup_eq_none_of_not_mem hfree1
    have hstep : t.withLink p.1 p.2 =
        touch { t with aboveOf := (done ++ [p]).map Prod.swap, underOf := done ++ [p] } := by
      simp only [withLink, ha, hu, NodeMap.insert_of_not_mem hfree2,
        NodeMap.insert_of_not_mem hfree1]
      simp only [List.map_append, List.map_cons, List.map_nil]
      rfl
    have hnext := foldlM_link hf hacyc rest (done ++ [p])
      (touch { t with aboveOf := (done ++ [p]).map Prod.swap, underOf := done ++ [p] }) rfl rfl rfl
      (by simpa using hkeys) (by simpa using hvals) (by simpa using hlinks)
    rw [List.foldlM_cons, hf t p hc1 hc2, link_eq_withLink hne hfar habove hunder, hstep,
      except_ok_bind, hnext]
    simp [touch]

/-! ## The pairs of links as saved -/

/-- The order the pairs of links are saved in: by upper node, then by lower node. -/
def PairLe (a b : Uuid × Uuid) : Prop :=
  a.1.toNat < b.1.toNat ∨ (a.1 = b.1 ∧ a.2.toNat ≤ b.2.toNat)

theorem pairwise_abovePairs (s : HorizonStack) : s.abovePairs.Pairwise PairLe := by
  unfold abovePairs
  refine (List.pairwise_mergeSort (fun a b c hab hbc => ?_) (fun a b => ?_) _).imp fun h => ?_
  · simp only [Bool.or_eq_true, decide_eq_true_eq, Bool.and_eq_true, beq_iff_eq] at hab hbc ⊢
    rcases hab with hab | ⟨hab1, hab2⟩ <;> rcases hbc with hbc | ⟨hbc1, hbc2⟩
    · exact .inl (Nat.lt_trans hab hbc)
    · exact .inl (hbc1 ▸ hab)
    · exact .inl (hab1 ▸ hbc)
    · exact .inr ⟨hab1.trans hbc1, Nat.le_trans hab2 hbc2⟩
  · simp only [Bool.or_eq_true, decide_eq_true_eq, Bool.and_eq_true, beq_iff_eq]
    by_cases he : a.1 = b.1
    · rw [he]
      simp only [Nat.lt_irrefl, false_or, true_and]
      omega
    · have hne : a.1.toNat ≠ b.1.toNat := fun h => he (Adjacency.toNat_injective h)
      omega
  · simpa [PairLe] using h

theorem abovePairs_eq_of_perm (h : t.underOf.Perm s.underOf) : t.abovePairs = s.abovePairs := by
  refine List.Perm.eq_of_pairwise (fun a b _ _ hab hba => ?_) (pairwise_abovePairs t)
    (pairwise_abovePairs s) (((List.mergeSort_perm _ _).trans h).trans (List.mergeSort_perm _ _).symm)
  unfold PairLe at hab hba
  rcases hab with hab | ⟨hab1, hab2⟩
  · rcases hba with hba | ⟨hba1, -⟩
    · omega
    · rw [hba1] at hab
      omega
  · rcases hba with hba | ⟨-, hba2⟩
    · rw [hab1] at hba
      omega
    · exact Prod.ext hab1 (Adjacency.toNat_injective (by omega))

theorem abovePairs_perm (s : HorizonStack) : s.abovePairs.Perm s.underOf := List.mergeSort_perm _ _

theorem nodup_abovePairs_keys (hk : s.Keyed) : (s.abovePairs.map (·.1)).Nodup :=
  ((abovePairs_perm s).map _).nodup_iff.2 hk.underOf

/-- A node is directly above at most one node, so the lower nodes of the
pairs are distinct too. -/
theorem nodup_abovePairs_values (hl : s.LinksOK) (hk : s.Keyed) :
    (s.abovePairs.map (·.2)).Nodup := by
  refine ((abovePairs_perm s).map _).nodup_iff.2 ?_
  refine (List.Nodup.of_map _ hk.underOf).map_on fun x hx y hy hxy => ?_
  have hx' : s.underOf.get? x.1 = some x.2 := lookup_of_mem hk.underOf hx
  have hy' : s.underOf.get? y.1 = some x.2 := hxy ▸ lookup_of_mem hk.underOf hy
  exact Prod.ext (hl.underOf_injective hx' hy') hxy

theorem aboveOf_of_mem_abovePairs (hl : s.LinksOK) (hk : s.Keyed) {p : Uuid × Uuid}
    (hp : p ∈ s.abovePairs) : s.aboveOf.get? p.2 = some p.1 :=
  (hl.inverse _ _).2 (lookup_of_mem hk.underOf ((abovePairs_perm s).mem_iff.1 hp))

/-! ## The stack read back -/

/-- The stack that reading back a saved stack builds before computing its
column again: the nodes listed kind by kind, the saved pairs linked in
order, and the relations rebuilt from their children lists. -/
def relinked (s : HorizonStack) : HorizonStack :=
  touch { (empty s.dim) with
    catalog := ⟨s.catalog.all⟩
    aboveOf := s.abovePairs.map Prod.swap
    underOf := s.abovePairs
    erosions := Archive.relationOfChildren s.erosions.childrenLists
    baselaps := Archive.relationOfChildren s.baselaps.childrenLists }

/-- **Reading a saved stack back never fails before the column**: every node
registers and every saved pair links. -/
theorem restore_ofStack (hl : s.LinksOK) (hk : s.Keyed) :
    (Archive.StackRecord.ofStack s).restore s.dim =
      if s.state == .built then s.relinked.computeTopAndBottom else .ok s.relinked := by
  have hall : (((empty s.dim).catalog.components ++ s.catalog.all).map (·.id)).Nodup :=
    hk.distinct.all
  unfold Archive.StackRecord.restore Archive.StackRecord.ofStack
  rw [foldlM_insertNode (fun t x hx => ?_) _ _ rfl hall, except_ok_bind,
    foldlM_link (s := s) (fun t p h1 h2 => ?_) hl.acyclic _ [] _ rfl rfl rfl ?_ ?_ ?_, except_ok_bind]
  · rfl
  · simpa using nodup_abovePairs_keys hk
  · simpa using nodup_abovePairs_values hl hk
  · intro p hp
    rw [List.nil_append] at hp
    have hcontains := hk.distinct.contains_all
    have hreg := hl.registered (aboveOf_of_mem_abovePairs hl hk hp)
    refine ⟨aboveOf_of_mem_abovePairs hl hk hp, ?_, ?_⟩
    · simpa [empty, Catalog.empty, hcontains, HorizonStack.contains] using hreg.2
    · simpa [empty, Catalog.empty, hcontains, HorizonStack.contains] using hreg.1
  · obtain ⟨x1, hx1⟩ := Catalog.get?_of_contains h1
    obtain ⟨x2, hx2⟩ := Catalog.get?_of_contains h2
    have hg1 : t.catalog.get p.1 = .ok x1 := by simp [Catalog.get, hx1]
    have hg2 : t.catalog.get p.2 = .ok x2 := by simp [Catalog.get, hx2]
    simp only [hg1, hg2, except_ok_bind]
  · rw [show t.catalog.insert x = .ok (t.catalog.register x) from if_neg (by simp [hx])]
    rfl

/-! ## What the stack read back keeps -/

theorem relinked_aboveOf (hl : s.LinksOK) (hk : s.Keyed) (x : Uuid) :
    s.relinked.aboveOf.get? x = s.aboveOf.get? x := by
  have hkeys : ((s.abovePairs.map Prod.swap).map (·.1)).Nodup := by
    rw [List.map_map]
    exact nodup_abovePairs_values hl hk
  show (s.abovePairs.map Prod.swap).lookup x = s.aboveOf.get? x
  cases hx : s.aboveOf.get? x with
  | some y =>
    have hyx : (y, x) ∈ s.abovePairs :=
      (abovePairs_perm s).mem_iff.2 (mem_of_lookup ((hl.inverse x y).1 hx))
    exact lookup_of_mem hkeys (List.mem_map.2 ⟨(y, x), hyx, rfl⟩)
  | none =>
    cases hl' : (s.abovePairs.map Prod.swap).lookup x with
    | none => rfl
    | some y =>
      obtain ⟨q, hq, hqxy⟩ := List.mem_map.1 (mem_of_lookup hl')
      obtain ⟨rfl, rfl⟩ := Prod.mk.inj hqxy
      rw [aboveOf_of_mem_abovePairs hl hk hq] at hx
      cases hx

theorem relinked_underOf (hk : s.Keyed) (x : Uuid) : s.relinked.underOf.get? x = s.underOf.get? x :=
  NodeMap.get?_eq_of_perm (abovePairs_perm s) hk.underOf x

theorem relinked_column (hl : s.LinksOK) (hk : s.Keyed) : s.relinked.column = s.column :=
  column_congr_get? (by rw [relinked, touch_catalog, Catalog.all_all])
    (relinked_aboveOf hl hk) (relinked_underOf hk)

theorem relinked_isHorizon (hk : s.Keyed) : s.relinked.isHorizon = s.isHorizon := by
  funext id
  rw [isHorizon_eq, isHorizon_eq, relinked, touch_catalog, hk.distinct.kindOf?_all]

theorem relinked_state : s.relinked.state = if s.catalog.components = [] then .empty else .building := by
  rw [relinked, touch_state, Catalog.isEmpty_eq]
  have hnil : s.catalog.all = [] ↔ s.catalog.components = [] := by
    rw [← List.length_eq_zero_iff, (Catalog.perm_all s.catalog).length_eq, List.length_eq_zero_iff]
  by_cases h : s.catalog.components = [] <;> simp [h, hnil]

/-- A stack answers as the stack `s` it was read back from: the same
dimension, the same nodes of each kind in the same order, the same links,
the same erosion and baselap edges, saved as the same lists, and the same
state, with the same top and bottom when built. -/
structure RestoredAs (s' s : HorizonStack) : Prop where
  dim : s'.dim = s.dim
  ofKind : ∀ k, s'.catalog.ofKind k = s.catalog.ofKind k
  aboveOf : ∀ x, s'.aboveOf.get? x = s.aboveOf.get? x
  underOf : ∀ x, s'.underOf.get? x = s.underOf.get? x
  abovePairs : s'.abovePairs = s.abovePairs
  erosions : s'.erosions.hasEdge = s.erosions.hasEdge
  erosionLists : s'.erosions.childrenLists = s.erosions.childrenLists
  baselaps : s'.baselaps.hasEdge = s.baselaps.hasEdge
  baselapLists : s'.baselaps.childrenLists = s.baselaps.childrenLists
  state : s'.state = s.state
  built : s.state = .built → s'.top = s.top ∧ s'.bottom = s.bottom

/-- The stack read back, with whatever state, top and bottom its column
gives it, keeps the content of the stack saved. -/
theorem restoredAs_relinked (hl : s.LinksOK) (hk : s.Keyed) {top bottom : Option Uuid}
    {state : StackState} (hstate : state = s.state)
    (hbuilt : s.state = .built → top = s.top ∧ bottom = s.bottom) :
    ({ s.relinked with top := top, bottom := bottom, state := state } : HorizonStack).RestoredAs s := by
  obtain ⟨Le, hLe, -⟩ := hk.erosions
  obtain ⟨Lb, hLb, -⟩ := hk.baselaps
  refine ⟨rfl, fun k => Catalog.ofKind_all s.catalog k, relinked_aboveOf hl hk, relinked_underOf hk,
    abovePairs_eq_of_perm (abovePairs_perm s), hLe.hasEdge_relationOfChildren,
    hLe.childrenLists_relationOfChildren, hLb.hasEdge_relationOfChildren,
    hLb.childrenLists_relationOfChildren, hstate, hbuilt⟩

theorem RestoredAs.putStack_eq (h : t.RestoredAs s) : Archive.putStack t = Archive.putStack s := by
  have hall : t.catalog.all = s.catalog.all := by
    unfold Catalog.all
    rw [show t.catalog.ofKind = s.catalog.ofKind from funext h.ofKind]
  rw [Archive.putStack_eq, Archive.putStack_eq, hall, h.abovePairs, h.erosionLists, h.baselapLists,
    h.state]

/-- **A saved stack reads back as a stack that answers alike**, the column
computed again when it was built giving the same top and bottom. -/
theorem restore_ofStack_restoredAs (hl : s.LinksOK) (hs : s.StateOK) (hk : s.Keyed) :
    ∃ s', (Archive.StackRecord.ofStack s).restore s.dim = .ok s' ∧ s'.RestoredAs s := by
  rw [restore_ofStack hl hk]
  by_cases hb : s.state = .built
  · -- the column of the stack read back is the saved stack's, with the same horizons
    obtain ⟨col, hc, hbot, htop⟩ := hs.column hb
    obtain ⟨ht, hbt⟩ := hs.built_iff.1 hb
    obtain ⟨top, htop'⟩ := Option.isSome_iff_exists.1 ht
    obtain ⟨bot, hbot'⟩ := Option.isSome_iff_exists.1 hbt
    have hcol : s.relinked.computeTopAndBottom =
        .ok { s.relinked with top := some top, bottom := some bot, state := .built } :=
      computeTopAndBottom_of_column ((relinked_column hl hk).trans hc)
        (by rw [relinked_isHorizon hk, ← hbot, hbot']) (by rw [relinked_isHorizon hk, ← htop, htop'])
    refine ⟨_, by simp [hb, hcol], restoredAs_relinked hl hk hb.symm fun _ => ⟨htop'.symm, hbot'.symm⟩⟩
  · have hstate : s.relinked.state = s.state := by
      rw [relinked_state]
      split
      · next h => exact (hs.empty_iff.2 h).symm
      · next h =>
        cases hst : s.state with
        | empty => exact absurd (hs.empty_iff.1 hst) h
        | building => rfl
        | built => exact absurd hst hb
    have hrest : HorizonStack.RestoredAs
        { s.relinked with
          top := s.relinked.top
          bottom := s.relinked.bottom
          state := s.relinked.state } s :=
      restoredAs_relinked hl hk hstate fun h => absurd h hb
    exact ⟨s.relinked, by simp [hb], hrest⟩

/-- **A saved stack loads back and saves again to the same bytes.** For every
stack the builders reach, saved to a file that fits in a 64-bit count,
loading the file succeeds with a stack that answers as the saved one does,
which is empty exactly when the saved one has no node, and which saves to
the same bytes. -/
theorem load_save_stack (h : Reachable b s) {path : String} {bytes : List UInt8}
    (hs : s.save path = .ok bytes) (hfit : Archive.Fits bytes) :
    ∃ s', load s.dim path bytes = .ok s' ∧ s'.RestoredAs s ∧
      (s'.state = .empty ↔ s.catalog.components = []) ∧ s'.save path = .ok bytes := by
  have hw := h.wellFormed
  have hpay : Archive.Fits (Archive.putStack s) := by
    rw [Archive.writeFile_eq_ok hs] at hfit
    exact hfit.right
  have hread := Archive.readFile_writeFile hs hfit (Archive.getStack_reads s hpay)
  obtain ⟨s', hr, hrest⟩ := restore_ofStack_restoredAs hw.links hw.state h.keyed
  refine ⟨s', ?_, hrest, hrest.state ▸ hw.state.empty_iff, ?_⟩
  · simp only [load, hread, hr, except_ok_bind]
  · rw [save, hrest.putStack_eq, hrest.dim]
    exact hs

theorem erodedPair_stack_reloads :
    erodedPair.abovePairs.length = 3 ∧ erodedPair.erosions.nbEdges = 1 ∧
    ∃ bytes, erodedPair.save "column.og_hst2d" = .ok bytes ∧ Archive.Fits bytes ∧
      ∃ s', load erodedPair.dim "column.og_hst2d" bytes = .ok s' ∧ s'.RestoredAs erodedPair ∧
        (s'.state = .empty ↔ erodedPair.catalog.components = []) ∧
        s'.save "column.og_hst2d" = .ok bytes := by
  -- The links of the pair are made in the order the encoder sorts them in,
  -- so the sort is rewritten away before anything is counted.
  have hsorted : erodedPair.abovePairs = erodedPair.underOf := by
    unfold abovePairs
    simp (disch := decide +kernel) only [List.mergeSort_of_pairwise]
  have hs : erodedPair.save "column.og_hst2d" =
      .ok (Archive.header "og_hst2d" ++ Archive.putStack erodedPair) :=
    Archive.writeFile_of_checks _ (by decide) (by decide +kernel)
  have hfit : Archive.Fits (Archive.header "og_hst2d" ++ Archive.putStack erodedPair) := by
    unfold Archive.Fits
    simp only [Archive.putStack, hsorted, Relation.childrenLists, Adjacency.sorted]
    decide +kernel
  exact ⟨by rw [hsorted]; decide +kernel, by decide +kernel, _, hs, hfit,
    load_save_stack erodedPair_reachable hs hfit⟩

end HorizonStack

end Subsurface
