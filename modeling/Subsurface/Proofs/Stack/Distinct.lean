import Mathlib.Data.List.Nodup
import Subsurface.Proofs.Stack.Reachable
/-!
Stacks register each identifier once.

A catalog has distinct identifiers (`Catalog.Distinct`) when no two of its
components share one. Registering a fresh component, renaming, retyping and
removing keep them distinct, and a catalog with distinct identifiers finds
every component under its own identifier (`Distinct.get?_of_mem`). Listing
the components kind by kind only reorders them (`Catalog.perm_all`).

Every stack the builder reaches has distinct identifiers
(`Reachable.distinct`): a new node takes a fresh identifier, a split three
fresh ones, and a stack built from names draws one per name without repeats.
-/

namespace Subsurface

namespace Catalog

variable {c : Catalog} {x : Component} {id : Uuid}

/-- No two components share an identifier. -/
def Distinct (c : Catalog) : Prop := (c.components.map (·.id)).Nodup

theorem count_ofKind (c : Catalog) (x : Component) (k : ComponentKind) :
    (c.ofKind k).count x = if x.kind = k then c.components.count x else 0 := by
  unfold ofKind
  split
  · next hk => exact List.count_filter (by simp [hk])
  · next hk => exact List.count_eq_zero.2 fun hx => hk (by simpa using (List.mem_filter.1 hx).2)

theorem perm_all (c : Catalog) : c.all.Perm c.components := by
  rw [List.perm_iff_count]
  intro x
  simp only [all, List.count_flatMap, Function.comp_def, count_ofKind]
  cases x.kind <;> simp [ComponentKind.all]

theorem mem_all_iff : x ∈ c.all ↔ x ∈ c.components := (perm_all c).mem_iff

theorem Distinct.all (h : c.Distinct) : (c.all.map (·.id)).Nodup :=
  ((perm_all c).map _).nodup_iff.2 h

theorem Distinct.register (h : c.Distinct) (hx : c.contains x.id = false) :
    (c.register x).Distinct := by
  unfold Distinct Catalog.register
  rw [List.map_append, List.map_singleton, List.nodup_append]
  refine ⟨h, List.nodup_singleton _, ?_⟩
  intro a ha b hb hab
  rw [List.mem_singleton] at hb
  rw [hab, hb] at ha
  obtain ⟨z, hz, hzx⟩ := List.mem_map.1 ha
  have hc : c.contains x.id = true := List.any_eq_true.2 ⟨z, hz, by simp [hzx]⟩
  rw [hx] at hc
  cases hc

theorem ids_update {f : Component → Component} (hid : ∀ z, (f z).id = z.id) :
    (c.update id f).components.map (·.id) = c.components.map (·.id) := by
  simp [update, Function.comp_def, apply_ite, hid]

theorem Distinct.update (h : c.Distinct) {f : Component → Component} (hid : ∀ z, (f z).id = z.id) :
    (c.update id f).Distinct := by
  unfold Distinct
  rw [ids_update hid]
  exact h

theorem Distinct.without (h : c.Distinct) : (c.without id).Distinct :=
  h.sublist (List.filter_sublist.map _)

/-- With distinct identifiers, a component is what its identifier finds. -/
theorem Distinct.get?_of_mem (h : c.Distinct) (hx : x ∈ c.components) : c.get? x.id = some x := by
  cases hg : c.get? x.id with
  | none =>
    unfold get? at hg
    exact absurd (List.find?_eq_none.1 hg x hx) (by simp)
  | some z =>
    obtain ⟨hz, hzx⟩ := get?_eq_some hg
    rw [List.inj_on_of_nodup_map h hz hx hzx]

theorem Distinct.relabel {s s' : HorizonStack} (h : s.catalog.Distinct)
    (hr : HorizonStack.Relabels s s') : s'.catalog.Distinct := by
  obtain ⟨x, f, hid, -, rfl⟩ := hr
  exact h.update hid

end Catalog

namespace HorizonStack

variable {b : Bool} {s s' t : HorizonStack} {unit : Uuid} {sp : UnitSplit}

theorem distinct_after (h : s.catalog.Distinct) {r : Except Error HorizonStack}
    (hok : ∀ s', r = .ok s' → s'.catalog.Distinct) : (s.after r).catalog.Distinct := by
  cases r with
  | error e => exact h
  | ok s' => exact hok s' rfl

/-- The catalog a split leaves: the unit replaced by the three new nodes, the
two new units named after it. -/
theorem splitUnit_catalog (hs : s.splitUnit unit sp = .ok s') :
    ∃ c, s.unit unit = .ok c ∧ s'.catalog =
      ((s.splitBase unit sp).catalog.update sp.unitAbove (·.rename (c.name ++ "_above"))).update
        sp.unitUnder (·.rename (c.name ++ "_under")) := by
  obtain ⟨c, t6, t7, t8, t9, t10, t11, hc, h6, h7, h8, h9, h10, h10', h11, h11', rfl⟩ :=
    splitUnit_eq_ok hs
  refine ⟨c, hc, ?_⟩
  obtain ⟨-, rfl⟩ := setUnitName_eq_ok h6
  obtain ⟨-, rfl⟩ := setUnitName_eq_ok h7
  -- the links made after the renames leave the catalog as it is
  have h10c : t10.catalog = t9.catalog := by
    cases ha : s.aboveOf.get? unit with
    | none => rw [h10' ha]
    | some a => exact (link_frame (h10 a ha)).1
  have h11c : t11.catalog = t10.catalog := by
    cases hu : s.underOf.get? unit with
    | none => rw [h11' hu]
    | some u => exact (link_frame (h11 u hu)).1
  show t11.catalog = _
  rw [h11c, h10c, (link_frame h9).1, (link_frame h8).1]

theorem distinct_splitBase (h : s.catalog.Distinct) (hf : sp.Fresh s.catalog unit) :
    (s.splitBase unit sp).catalog.Distinct :=
  ((h.without.register hf.horizon).register hf.above_after).register hf.under_after

theorem distinct_splitUnit (h : s.catalog.Distinct) (hf : sp.Fresh s.catalog unit)
    (hs : s.splitUnit unit sp = .ok s') : s'.catalog.Distinct := by
  obtain ⟨c, -, hc⟩ := splitUnit_catalog hs
  rw [hc]
  exact ((distinct_splitBase h hf).update fun z => z.id_rename _).update fun z => z.id_rename _

theorem Step.distinct (hs : Step s b s') (h : s.catalog.Distinct) : s'.catalog.Distinct := by
  cases hs with
  | addHorizon id hfresh | addUnit id hfresh => exact h.register hfresh
  | addHorizonWithId id | addUnitWithId id =>
    refine distinct_after h fun _ hs => ?_
    obtain ⟨hfresh, rfl⟩ := addNodeWithId_eq_ok hs
    exact h.register hfresh
  | setHorizonName id name =>
    exact distinct_after h fun _ hs => h.relabel (setHorizonName_relabels hs)
  | setHorizonType id ty =>
    exact distinct_after h fun _ hs => h.relabel (setHorizonType_relabels hs)
  | setUnitName id name =>
    exact distinct_after h fun _ hs => h.relabel (setUnitName_relabels hs)
  | addHorizonUnder horizon unit =>
    refine distinct_after h fun _ hs => ?_
    rw [Catalog.Distinct, (link_frame (addHorizonUnder_eq_ok hs).2).1]
    exact h
  | addHorizonAbove horizon unit =>
    refine distinct_after h fun _ hs => ?_
    rw [Catalog.Distinct, (link_frame (addHorizonAbove_eq_ok hs).2).1]
    exact h
  | addErosion erosion eroded =>
    refine distinct_after h fun _ hs => ?_
    obtain ⟨-, -, rfl⟩ := addErosion_eq_ok hs
    exact h
  | addBaselap baselapTop baselap =>
    refine distinct_after h fun _ hs => ?_
    obtain ⟨-, -, rfl⟩ := addBaselap_eq_ok hs
    exact h
  | removeHorizon id | removeUnit id =>
    refine distinct_after h fun _ hs => ?_
    obtain ⟨-, rfl⟩ := removeNode_eq_ok hs
    exact h.without
  | splitUnit unit sp hf => exact distinct_after h fun _ hs => distinct_splitUnit h hf hs
  | computeTopAndBottom =>
    refine distinct_after h fun _ hs => ?_
    obtain ⟨col, top, bot, -, -, -, rfl⟩ := computeTopAndBottom_eq_ok hs
    exact h

/-! ## Stacks built from names -/

theorem linkColumn_catalog : ∀ {ids : List Uuid} {s s' : HorizonStack}, s.linkColumn ids = .ok s' →
    s'.catalog = s.catalog
  | a :: b :: rest, s, s', h => by
    obtain ⟨t, ht, h⟩ := except_bind_eq_ok.1 h
    rw [linkColumn_catalog h, (link_frame ht).1]
  | [], s, s', h | [_], s, s', h => by
    simp only [HorizonStack.linkColumn, except_pure_eq_ok] at h
    rw [h]

/-- Registering named nodes one after another: the identifiers are the old
ones, then one per name, in order. -/
theorem ids_foldlM_register {fresh : Nat → Uuid}
    {f : HorizonStack → (ComponentKind × String) × Nat → Except Error HorizonStack}
    (hf : ∀ s e t, f s e = .ok t → Relabels (s.addNode e.1.1 (fresh e.2)) t) :
    ∀ {L : List ((ComponentKind × String) × Nat)} {s s' : HorizonStack}, L.foldlM f s = .ok s' →
      s'.catalog.components.map (·.id) = s.catalog.components.map (·.id) ++ L.map (fresh ·.2)
  | [], s, s', h => by
    simp only [List.foldlM_nil, except_pure_eq_ok] at h
    rw [h, List.map_nil, List.append_nil]
  | e :: L, s, s', h => by
    rw [List.foldlM_cons] at h
    obtain ⟨t, ht, h⟩ := except_bind_eq_ok.1 h
    obtain ⟨x, g, hid, -, rfl⟩ := hf s e t ht
    rw [ids_foldlM_register hf h, Catalog.ids_update hid]
    simp [addNode, touch, Catalog.register, Component.new]

/-- A stack built from names has one identifier per name, drawn without
repeats. -/
theorem distinct_ofNamesFromTop {dim : Nat} {hs us : List String} {fresh : Nat → Uuid}
    (hinj : Function.Injective fresh) (h : ofNamesFromTop dim hs us fresh = .ok s) :
    s.catalog.Distinct := by
  obtain ⟨outer, s1, s2, -, h1, h2, h3⟩ := ofNamesFromTop_stages h
  have hids : s1.catalog.components.map (·.id) =
      [] ++ (columnNames outer hs us).zipIdx.map (fresh ·.2) :=
    ids_foldlM_register (fun _ _ _ ht => nameNode_relabels ht) h1
  obtain ⟨col, top, bot, -, -, -, rfl⟩ := computeTopAndBottom_eq_ok h3
  show (s2.catalog.components.map (·.id)).Nodup
  rw [linkColumn_catalog h2, hids, List.nil_append]
  have hnd : ((columnNames outer hs us).zipIdx.map (·.2)).Nodup := by
    rw [List.zipIdx_map_snd]
    exact List.nodup_range'
  have hfresh := hnd.map hinj
  rw [List.map_map] at hfresh
  exact hfresh

/-! ## Every run -/

/-- **Every stack the builder reaches has distinct identifiers.** -/
theorem Reachable.distinct (h : Reachable b s) : s.catalog.Distinct := by
  induction h with
  | empty dim => exact List.nodup_nil
  | ofNamesFromTop hinj h => exact distinct_ofNamesFromTop hinj h
  | ofNamesFromBottom hinj h => exact distinct_ofNamesFromTop hinj h
  | step _ hs ih => exact hs.distinct ih
  | copy _ _ iht ihs =>
    refine distinct_after iht fun _ hc => ?_
    unfold HorizonStack.copyInto at hc
    split at hc
    · cases hc
    · cases hc
      exact ihs

end HorizonStack

end Subsurface
