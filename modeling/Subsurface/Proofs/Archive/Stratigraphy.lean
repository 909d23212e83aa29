import Subsurface.Proofs.Archive.Stack
/-!
Reading a saved stratigraphic model gives it back.

A stratigraphic model is saved as its model, its stack and its isovalues
sorted by horizon, and read back in that order, the isovalues inserted one
by one (`Archive.StratigraphicRecord.restore`). Every stratigraphic model
the builders reach holds at most one isovalue per horizon
(`StratigraphicModel.Reachable.isovaluesKeyed`): the edits write isovalues
only by inserting, erasing, filtering, rescaling or copying them. Inserting
the sorted isovalues one by one then rebuilds them as sorted, so every
horizon keeps its value. With the model and the stack read back alike, a
saved stratigraphic model loads back alike and saves again to the same
bytes (`StratigraphicModel.load_save`), and so does a geological model
(`saved_models_reload`).
-/

namespace Subsurface

namespace IsovalueMap

variable {m : IsovalueMap} {h : Uuid} {v : Binary64}

/-- At most one isovalue per horizon. -/
def Keyed (m : IsovalueMap) : Prop := (m.map (·.1)).Nodup

theorem Keyed.filter (hm : m.Keyed) (p : Uuid × Binary64 → Bool) : Keyed (m.filter p) :=
  (List.filter_sublist.map _).nodup hm

theorem Keyed.erase (hm : m.Keyed) (h : Uuid) : (m.erase h).Keyed := hm.filter _

theorem Keyed.insert (hm : m.Keyed) (h : Uuid) (v : Binary64) : (m.insert h v).Keyed := by
  unfold Keyed IsovalueMap.insert
  rw [List.map_append, List.nodup_append]
  refine ⟨hm.filter _, List.nodup_singleton _, fun a ha b hb => ?_⟩
  obtain ⟨e, he, rfl⟩ := List.mem_map.1 ha
  obtain rfl : b = h := by simpa using hb
  simpa using (List.mem_filter.1 he).2

theorem insert_of_not_mem (hk : h ∉ m.map (·.1)) : m.insert h v = m ++ [(h, v)] := by
  rw [IsovalueMap.insert, filter_fst_ne_of_not_mem hk]

theorem sorted_perm (m : IsovalueMap) : m.sorted.Perm m := List.mergeSort_perm _ _

theorem Keyed.sorted (hm : m.Keyed) : Keyed m.sorted := ((sorted_perm m).map _).nodup_iff.2 hm

theorem sorted_sorted (m : IsovalueMap) : sorted m.sorted = m.sorted := by
  refine List.mergeSort_of_pairwise (List.pairwise_mergeSort (fun a b c hab hbc => ?_) (fun a b => ?_) _)
  · simp only [decide_eq_true_eq] at hab hbc ⊢
    exact Nat.le_trans hab hbc
  · simp only [Bool.or_eq_true, decide_eq_true_eq]
    exact Nat.le_total _ _

/-- Isovalues with one entry per horizon, sorted, give every horizon the
same value. -/
theorem Keyed.get?_sorted (hm : m.Keyed) (x : Uuid) : get? m.sorted x = m.get? x := by
  rw [get?, get?, lookup_eq_of_perm (sorted_perm m) hm x]

end IsovalueMap

/-! ## Every model the builders reach keeps one isovalue per horizon -/

namespace Build

/-- Isovalues with at most one entry per horizon. -/
abbrev IsovaluesKeyed (s : StratigraphicModel) : Prop := s.isovalues.Keyed

variable {s : StratigraphicModel}

theorem keeps_onModel_isovalues (f : Model → Except Error Model) : Keeps IsovaluesKeyed (onModel f) :=
  keeps_onModel fun _ _ h _ => h

theorem keeps_onStack_isovalues (f : HorizonStack → Except Error HorizonStack) :
    Keeps IsovaluesKeyed (onStack f) :=
  keeps_onStack fun _ _ h _ => h

theorem keeps_modify_isovalues {g : StratigraphicModel → StratigraphicModel}
    (hg : ∀ s, (g s).isovalues = s.isovalues) : Keeps IsovaluesKeyed (modify g) :=
  keeps_modify fun s h => by
    show (g s).isovalues.Keyed
    rw [hg]
    exact h

theorem keeps_registerNodes_isovalues (l : List Component) : Keeps IsovaluesKeyed (registerNodes l) := by
  unfold registerNodes
  exact keeps_forM fun _ _ => keeps_onModel_isovalues _

theorem keeps_addHorizon_isovalues (id : Uuid) : Keeps IsovaluesKeyed (addHorizon id) :=
  (keeps_onModel_isovalues _).bind fun _ => keeps_onStack_isovalues _

theorem keeps_addUnit_isovalues (id : Uuid) : Keeps IsovaluesKeyed (addUnit id) :=
  (keeps_onModel_isovalues _).bind fun _ => keeps_onStack_isovalues _

theorem keeps_setHorizonName_isovalues (id : Uuid) (name : String) :
    Keeps IsovaluesKeyed (setHorizonName id name) :=
  (keeps_onModel_isovalues _).bind fun _ => keeps_get.bind fun _ =>
    (keeps_onStack_isovalues _).ite (keeps_pure _)

theorem keeps_setHorizonType_isovalues (id : Uuid) (ty : HorizonType) :
    Keeps IsovaluesKeyed (setHorizonType id ty) :=
  (keeps_onModel_isovalues _).bind fun _ => keeps_get.bind fun _ =>
    (keeps_onStack_isovalues _).ite (keeps_pure _)

theorem keeps_setUnitName_isovalues (id : Uuid) (name : String) :
    Keeps IsovaluesKeyed (setUnitName id name) :=
  (keeps_onModel_isovalues _).bind fun _ => keeps_get.bind fun _ =>
    (keeps_onStack_isovalues _).ite (keeps_pure _)

theorem keeps_removeHorizon_isovalues (id : Uuid) : Keeps IsovaluesKeyed (removeHorizon id) :=
  (keeps_onModel_isovalues _).bind fun _ => keeps_get.bind fun _ =>
    Keeps.ite_bind (keeps_onStack_isovalues _) fun _ => keeps_modify fun _ h => h.erase id

theorem keeps_removeUnit_isovalues (id : Uuid) : Keeps IsovaluesKeyed (removeUnit id) :=
  (keeps_onModel_isovalues _).bind fun _ => keeps_get.bind fun _ =>
    (keeps_onStack_isovalues _).ite (keeps_pure _)

theorem keeps_splitTail_isovalues (unit : Uuid) (sp : HorizonStack.UnitSplit) (inModel : Bool) :
    Keeps IsovaluesKeyed (splitTail unit sp inModel) :=
  (keeps_onStack_isovalues _).bind fun _ => keeps_get.bind fun _ => (keeps_check _).bind fun l =>
    Keeps.ite_bind (keeps_onModel_isovalues _) fun _ => keeps_registerNodes_isovalues l

theorem keeps_splitUnit_isovalues (unit : Uuid) (sp : HorizonStack.UnitSplit) :
    Keeps IsovaluesKeyed (splitUnit unit sp) := by
  intro s h
  rcases runOn_splitUnit unit sp s with hr | ⟨inModel, hr⟩
  · rw [hr]
    exact h
  · rw [hr]
    exact (keeps_splitTail_isovalues unit sp inModel).run h

theorem keeps_setStack_isovalues (k : HorizonStack) : Keeps IsovaluesKeyed (setStack k) :=
  keeps_get.bind fun _ => (keeps_check _).bind fun l =>
    (keeps_modify_isovalues (g := fun s => { s with stack := k }) fun _ => rfl).bind fun _ =>
      (keeps_registerNodes_isovalues l).bind fun _ => keeps_modify fun _ h => h.filter _

theorem keeps_onCell_isovalues (item : Uuid) (f : VertexAttributes → Except Error VertexAttributes) :
    Keeps IsovaluesKeyed (onCell item f) :=
  keeps_onCell_of (fun _ _ _ _ h _ => h) item f

theorem keeps_rescale_isovalues (factor : Float) : Keeps IsovaluesKeyed (rescale factor) := by
  refine keeps_rescale_of fun hs hr => ?_
  unfold Build.rescaled at hr
  obtain ⟨meshes, -, rfl⟩ := except_map_eq_ok.1 hr
  simpa [IsovalueMap.Keyed, Function.comp_def] using hs

theorem keeps_setIsovalue_isovalues (h : Uuid) (value : Float) :
    Keeps IsovaluesKeyed (setIsovalue h value) :=
  keeps_get.bind fun _ => (keeps_check _).bind fun _ => keeps_modify fun _ hs => hs.insert h _

theorem keeps_setLocator_isovalues (p : LocatorParams) : Keeps IsovaluesKeyed (setLocator p) :=
  keeps_modify_isovalues fun _ => rfl

theorem keeps_copy_isovalues {src : StratigraphicModel} (hsrc : src.isovalues.Keyed) :
    Keeps IsovaluesKeyed (copy src) :=
  keeps_get.bind fun _ => Keeps.ite_bind (keeps_throw _) fun _ =>
    (keeps_onModel_isovalues _).bind fun _ => (keeps_onStack_isovalues _).bind fun _ =>
      keeps_modify fun _ _ => hsrc

end Build

namespace StratigraphicModel

open Build

variable {s : StratigraphicModel}

/-- **Every stratigraphic model the builders reach holds at most one
isovalue per horizon.** -/
theorem Reachable.isovaluesKeyed (h : s.Reachable) : s.isovalues.Keyed := by
  induction h with
  | empty dim => exact List.nodup_nil
  | ofModel hm => exact List.nodup_nil
  | model _ hs ih => exact ih
  | copyModel _ hsrc hdim hc ih => exact ih
  | stack _ hs ih => exact ih
  | copyStack _ hsrc ih => exact ih
  | addHorizon id _ hfresh ih => exact (keeps_addHorizon_isovalues id).run ih
  | addUnit id _ hfresh ih => exact (keeps_addUnit_isovalues id).run ih
  | setHorizonName id name _ ih => exact (keeps_setHorizonName_isovalues id name).run ih
  | setHorizonType id ty _ ih => exact (keeps_setHorizonType_isovalues id ty).run ih
  | setUnitName id name _ ih => exact (keeps_setUnitName_isovalues id name).run ih
  | removeHorizon id _ ih => exact (keeps_removeHorizon_isovalues id).run ih
  | removeUnit id _ ih => exact (keeps_removeUnit_isovalues id).run ih
  | addHorizonUnder horizon unit _ ih => exact (keeps_onStack_isovalues _).run ih
  | addHorizonAbove horizon unit _ ih => exact (keeps_onStack_isovalues _).run ih
  | splitUnit unit sp _ hf ih => exact (keeps_splitUnit_isovalues unit sp).run ih
  | setStack _ hk ih => exact (keeps_setStack_isovalues _).run ih
  | setCoordinates item vertex p _ ih =>
    exact (keeps_setCoordinates_of keeps_onCell_isovalues item vertex p).run ih
  | setLocation item vertex location _ ih =>
    exact (keeps_setLocation_of keeps_onCell_isovalues item vertex location).run ih
  | setImplicit item vertex value _ ih =>
    exact (keeps_setImplicit_of keeps_onCell_isovalues item vertex value).run ih
  | implicitFromField item field _ ih =>
    exact (keeps_implicitFromField_of keeps_onCell_isovalues item field).run ih
  | locationFromAxes axis _ ih => exact (keeps_locationFromAxes_of keeps_onCell_isovalues axis).run ih
  | rescale factor _ ih => exact (keeps_rescale_isovalues factor).run ih
  | rescaleToBox _ ih => exact (keeps_rescaleToBox_of keeps_rescale_isovalues).run ih
  | setIsovalue h value _ ih => exact (keeps_setIsovalue_isovalues h value).run ih
  | setLocator p _ ih => exact (keeps_setLocator_isovalues p).run ih
  | copy _ _ hdim ih ihsrc => exact (keeps_copy_isovalues ihsrc).run ih

end StratigraphicModel


/-! ## Reading a stratigraphic model back -/

namespace Archive

/-- **A stratigraphic model's record restores it**: its model and its stack
alike, its isovalues sorted, and the default locator parameters. -/
theorem StratigraphicRecord.restore_ofModel {s : StratigraphicModel} (h : s.Inv) (hk : s.Keyed)
    (hi : s.isovalues.Keyed) (hdim : 0 < s.dim) (hsd : s.stack.dim = s.dim)
    (hmesh : ∀ p ∈ s.model.meshes, p.2.WellFormed s.dim) :
    ∃ s', (StratigraphicRecord.ofModel s).restore s.dim = .ok s' ∧ s'.model.Alike s.model ∧
      s'.stack.RestoredAs s.stack ∧ s'.isovalues = s.isovalues.sorted ∧ s'.locator = {} := by
  obtain ⟨m', hm, halike⟩ := ModelRecord.restore_ofModel h.model hk.model hdim hmesh
  obtain ⟨b, hw⟩ := h.stack
  obtain ⟨k', hk', hrest⟩ := HorizonStack.restore_ofStack_restoredAs hw.links hw.state hk.stack
  -- the stack is read back at the model's dimension, which is its own
  rw [hsd] at hk'
  have hm' : (ModelRecord.ofModel s.model).restore s.dim = .ok m' := hm
  refine ⟨⟨m', k', s.isovalues.sorted, {}⟩, ?_, halike, hrest, rfl, rfl⟩
  unfold StratigraphicRecord.restore StratigraphicRecord.ofModel
  rw [hm', except_ok_bind, hk', except_ok_bind]
  -- the sorted isovalues, inserted one by one, are rebuilt as they are
  rw [foldl_append_of_fresh (fun acc e he => ?_) _ [] (by rw [List.nil_append]; exact hi.sorted)]
  · rfl
  · rcases e with ⟨x, v⟩
    exact IsovalueMap.insert_of_not_mem he

end Archive

namespace StratigraphicModel

variable {s : StratigraphicModel}

/-- **A saved stratigraphic model loads back alike and saves again to the
same bytes.** For every stratigraphic model the builders reach, of positive
dimension, with well-formed meshes and a stack of its own dimension, saved
to a file that fits in a 64-bit count, loading the file succeeds with a
model whose geological model is alike, whose stack answers alike, whose
horizons have the same isovalues, with the default locator parameters, and
which saves to the same bytes. -/
theorem load_save (h : s.Reachable) (hdim : 0 < s.dim) (hsd : s.stack.dim = s.dim)
    (hmesh : ∀ p ∈ s.model.meshes, p.2.WellFormed s.dim) {path : String} {bytes : List UInt8}
    (hs : s.save path = .ok bytes) (hfit : Archive.Fits bytes) :
    ∃ s', load s.dim path bytes = .ok s' ∧ s'.model.Alike s.model ∧ s'.stack.RestoredAs s.stack ∧
      (∀ x, s'.isovalues.get? x = s.isovalues.get? x) ∧ s'.locator = {} ∧ s'.save path = .ok bytes := by
  have hinv := h.inv
  have hi := h.isovaluesKeyed
  have hpay : Archive.Fits (Archive.putStratigraphic s) := by
    rw [Archive.writeFile_eq_ok hs] at hfit
    exact hfit.right
  have hread := Archive.readFile_writeFile hs hfit
    (Archive.getStratigraphic_reads s hpay (hinv.model.meshRecords_inRange hdim hmesh))
  obtain ⟨s', hr, hmodel, hstack, hiso, hloc⟩ :=
    Archive.StratigraphicRecord.restore_ofModel hinv h.keyed hi hdim hsd hmesh
  refine ⟨s', ?_, hmodel, hstack, fun x => hiso ▸ hi.get?_sorted x, hloc, ?_⟩
  · simp only [load, hread, hr, except_ok_bind]
  · have hput : Archive.putStratigraphic s' = Archive.putStratigraphic s := by
      rw [Archive.putStratigraphic_eq, Archive.putStratigraphic_eq, hmodel.putModel_eq,
        hstack.putStack_eq, hiso, IsovalueMap.sorted_sorted]
    rw [save, hput, show s'.dim = s.dim from hmodel.dim]
    exact hs

end StratigraphicModel


/-! ## Saved models -/

/-- **Saved models load back alike and save again to the same bytes.** For
every geological model the model builder reaches and every stratigraphic
model the stratigraphic builders reach, of positive dimension, with
well-formed meshes (and, for a stratigraphic model, a stack of its own
dimension), saved to a file that fits in a 64-bit count: loading the file
succeeds with a model that has the same components kind by kind in the same
order, the same relations, meshes and reference system; a stratigraphic
model comes back with a stack that answers alike, the same isovalue for
every horizon and the default locator parameters; and the model loaded
saves to the same bytes. -/
theorem saved_models_reload :
    (∀ {m : Model} {path : String} {bytes : List UInt8}, m.Reachable → 0 < m.dim →
      (∀ p ∈ m.meshes, p.2.WellFormed m.dim) → m.save path = .ok bytes → Archive.Fits bytes →
      ∃ m', Model.load m.dim path bytes = .ok m' ∧ m'.Alike m ∧ m'.save path = .ok bytes) ∧
    (∀ {s : StratigraphicModel} {path : String} {bytes : List UInt8}, s.Reachable → 0 < s.dim →
      s.stack.dim = s.dim → (∀ p ∈ s.model.meshes, p.2.WellFormed s.dim) →
      s.save path = .ok bytes → Archive.Fits bytes →
      ∃ s', StratigraphicModel.load s.dim path bytes = .ok s' ∧ s'.model.Alike s.model ∧
        s'.stack.RestoredAs s.stack ∧ (∀ x, s'.isovalues.get? x = s.isovalues.get? x) ∧
        s'.locator = {} ∧ s'.save path = .ok bytes) :=
  ⟨fun h hdim hmesh hs hfit => Model.load_save h.inv h.distinct hdim hmesh hs hfit,
    fun h hdim hsd hmesh hs hfit => StratigraphicModel.load_save h hdim hsd hmesh hs hfit⟩

theorem layeredSection_meshes_wellFormed :
    ∀ p ∈ Model.layeredSection.meshes, p.2.WellFormed Model.layeredSection.dim := by
  intro p hp
  simp only [Model.layeredSection, List.mem_cons, List.not_mem_nil, or_false] at hp
  rcases hp with rfl | rfl | rfl <;>
    exact ⟨by decide +kernel, by decide +kernel, by decide +kernel, by decide +kernel, by decide +kernel⟩

theorem layered_sections_reload :
    (∃ bytes, Model.layeredSection.save "section.og_xsctn" = .ok bytes ∧ Archive.Fits bytes ∧
      ∃ m', Model.load Model.layeredSection.dim "section.og_xsctn" bytes = .ok m' ∧
        m'.Alike Model.layeredSection ∧ m'.save "section.og_xsctn" = .ok bytes) ∧
    (∃ bytes, StratigraphicModel.layeredStrat.save "section.og_stgs" = .ok bytes ∧ Archive.Fits bytes ∧
      ∃ s', StratigraphicModel.load StratigraphicModel.layeredStrat.dim "section.og_stgs" bytes = .ok s' ∧
        s'.model.Alike StratigraphicModel.layeredStrat.model ∧
        s'.stack.RestoredAs StratigraphicModel.layeredStrat.stack ∧
        (∀ x, s'.isovalues.get? x = StratigraphicModel.layeredStrat.isovalues.get? x) ∧
        s'.locator = {} ∧ s'.save "section.og_stgs" = .ok bytes) := by
  have hms : Model.layeredSection.save "section.og_xsctn" =
      .ok (Archive.header "og_xsctn" ++ Archive.putModel Model.layeredSection) :=
    Archive.writeFile_of_checks _ (by decide) (by decide +kernel)
  have hss : StratigraphicModel.layeredStrat.save "section.og_stgs" =
      .ok (Archive.header "og_stgs" ++ Archive.putStratigraphic StratigraphicModel.layeredStrat) :=
    Archive.writeFile_of_checks _ (by decide) (by decide +kernel)
  -- The encoders sort each table by identifier; the section's tables are
  -- built sorted, so the sorts are rewritten away before the sizes are counted.
  have hmf : Archive.Fits (Archive.header "og_xsctn" ++ Archive.putModel Model.layeredSection) := by
    unfold Archive.Fits
    simp only [Archive.putModel, Archive.putRelation, Relation.childrenLists,
      Relation.parentsLists, Adjacency.sorted]
    simp (disch := decide +kernel) only [List.mergeSort_of_pairwise]
    decide +kernel
  have hsf : Archive.Fits
      (Archive.header "og_stgs" ++ Archive.putStratigraphic StratigraphicModel.layeredStrat) := by
    unfold Archive.Fits
    simp only [Archive.putStratigraphic, Archive.putModel, Archive.putRelation,
      Relation.childrenLists, Relation.parentsLists, Adjacency.sorted]
    simp (disch := decide +kernel) only [List.mergeSort_of_pairwise]
    decide +kernel
  exact ⟨⟨_, hms, hmf, saved_models_reload.1 Model.layeredSection_reachable (by decide)
      layeredSection_meshes_wellFormed hms hmf⟩,
    ⟨_, hss, hsf, saved_models_reload.2 StratigraphicModel.layeredStrat_reachable (by decide +kernel)
      (by decide +kernel) layeredSection_meshes_wellFormed hss hsf⟩⟩

end Subsurface
