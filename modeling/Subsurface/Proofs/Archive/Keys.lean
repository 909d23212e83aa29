import Subsurface.Proofs.Archive.Model
/-!
Every store the builders reach holds one entry per key.

Reading a stack back registers its nodes again, replays its links one pair
at a time and adds its erosions and baselaps edge by edge; reading a model
back registers its components again. That goes through only when the
catalogs register each identifier once, when the map from a node to the
node under it has one entry per node, and when the erosions and baselaps
each keep a duplicate-free edge list (`HorizonStack.Keyed`). Every call of
the stack builder keeps these (`HorizonStack.Keyed.step`), so every stack
it reaches has them (`HorizonStack.Reachable.keyed`), and so does the stack
of every stratigraphic model the builders reach, whose geological model
registers each identifier once as well (`StratigraphicModel.Reachable.keyed`).
-/

namespace Subsurface

namespace NodeMap

variable {m : NodeMap} {k v : Uuid}

theorem nodup_keys_filter (h : (m.map (·.1)).Nodup) (p : Uuid × Uuid → Bool) :
    ((m.filter p).map (·.1)).Nodup :=
  h.sublist (List.filter_sublist.map _)

theorem nodup_keys_insert (h : (m.map (·.1)).Nodup) (k v : Uuid) :
    ((m.insert k v).map (·.1)).Nodup := by
  unfold insert
  rw [List.map_append, List.nodup_append]
  refine ⟨nodup_keys_filter h _, List.nodup_singleton _, fun a ha b hb hab => ?_⟩
  obtain ⟨e, he, rfl⟩ := List.mem_map.1 ha
  rw [List.map_singleton, List.mem_singleton] at hb
  have := (List.mem_filter.1 he).2
  simp [hab, hb] at this

theorem nodup_keys_erase (h : (m.map (·.1)).Nodup) (k : Uuid) : ((m.erase k).2.map (·.1)).Nodup :=
  nodup_keys_filter h _

theorem nodup_keys_eraseSome (h : (m.map (·.1)).Nodup) (o : Option Uuid) :
    ((m.eraseSome o).map (·.1)).Nodup := by
  cases o with
  | none => exact h
  | some k => exact nodup_keys_erase h k

end NodeMap

namespace HorizonStack

variable {s s' t : HorizonStack} {a u n : Uuid} {b : Bool}

/-- The stores of a stack that reading it back relies on hold one entry per
key: the catalog registers each identifier once, the map to the node under
has one entry per node, and the erosions and the baselaps each keep a
duplicate-free edge list. -/
structure Keyed (s : HorizonStack) : Prop where
  distinct : s.catalog.Distinct
  underOf : (s.underOf.map (·.1)).Nodup
  erosions : s.erosions.AllEdges fun _ _ => True
  baselaps : s.baselaps.AllEdges fun _ _ => True

theorem keyed_empty (dim : Nat) : (empty dim).Keyed :=
  ⟨List.nodup_nil, List.nodup_nil, Relation.allEdges_empty, Relation.allEdges_empty⟩

/-- Only the catalog's identifiers, the under-map and the two relations
matter. -/
theorem Keyed.congr (h : s.Keyed) (hc : s'.catalog.Distinct) (hu : s'.underOf = s.underOf)
    (he : s'.erosions = s.erosions) (hb : s'.baselaps = s.baselaps) : s'.Keyed :=
  ⟨hc, hu ▸ h.underOf, he ▸ h.erosions, hb ▸ h.baselaps⟩

theorem Keyed.touch (h : s.Keyed) : (touch s).Keyed :=
  h.congr h.distinct rfl rfl rfl

theorem Keyed.addNode (h : s.Keyed) {k : ComponentKind} (hfresh : s.catalog.contains a = false) :
    (s.addNode k a).Keyed :=
  h.congr (h.distinct.register hfresh) rfl rfl rfl

theorem Keyed.relabel (h : s.Keyed) (hr : Relabels s s') : s'.Keyed := by
  obtain ⟨x, f, hid, -, rfl⟩ := hr
  exact h.congr (h.distinct.update hid) rfl rfl rfl

theorem nodup_underOf_link (h : (s.underOf.map (·.1)).Nodup) (hl : s.link a u = .ok s') :
    (s'.underOf.map (·.1)).Nodup := by
  rcases link_eq_ok hl with ⟨-, rfl⟩ | ⟨-, -, -, -, rfl⟩
  · exact h
  · exact NodeMap.nodup_keys_insert h _ _

theorem nodup_underOf_linkColumn : ∀ {ids : List Uuid} {s s' : HorizonStack},
    (s.underOf.map (·.1)).Nodup → s.linkColumn ids = .ok s' → (s'.underOf.map (·.1)).Nodup
  | a :: b :: rest, s, s', h, hl => by
    obtain ⟨t, ht, hl⟩ := except_bind_eq_ok.1 hl
    exact nodup_underOf_linkColumn (nodup_underOf_link h ht) hl
  | [], s, s', h, hl | [_], s, s', h, hl => by
    simp only [HorizonStack.linkColumn, except_pure_eq_ok] at hl
    exact hl ▸ h

theorem Keyed.link (h : s.Keyed) (hl : s.link a u = .ok s') : s'.Keyed := by
  obtain ⟨hc, he, hb⟩ := link_frame hl
  exact ⟨hc ▸ h.distinct, nodup_underOf_link h.underOf hl, he ▸ h.erosions, hb ▸ h.baselaps⟩

theorem Keyed.unlinkNode (h : s.Keyed) (n : Uuid) : (s.unlinkNode n).Keyed := by
  rw [unlinkNode_eq]
  exact ⟨h.distinct, NodeMap.nodup_keys_erase (NodeMap.nodup_keys_eraseSome h.underOf _) n,
    (h.erosions.removeNode n).mono fun _ _ _ => trivial,
    (h.baselaps.removeNode n).mono fun _ _ _ => trivial⟩

theorem Keyed.removeNode (h : s.Keyed) {k : ComponentKind} (hr : s.removeNode n k = .ok s') :
    s'.Keyed := by
  obtain ⟨-, rfl⟩ := removeNode_eq_ok hr
  have : ({ s.unlinkNode n with catalog := s.catalog.without n } : HorizonStack).Keyed :=
    (h.unlinkNode n).congr h.distinct.without rfl rfl rfl
  exact this.touch

theorem Keyed.computeTopAndBottom (h : s.Keyed) (hs : s.computeTopAndBottom = .ok s') : s'.Keyed := by
  obtain ⟨col, top, bot, -, -, -, rfl⟩ := computeTopAndBottom_eq_ok hs
  exact h.congr h.distinct rfl rfl rfl

/-- A split keeps the stores keyed: its base unlinks the unit, its links
insert, and the relations it hands over are added edge by edge. -/
theorem Keyed.splitUnit (h : s.Keyed) {unit : Uuid} {sp : UnitSplit} (hf : sp.Fresh s.catalog unit)
    (hs : s.splitUnit unit sp = .ok s') : s'.Keyed := by
  have hd := distinct_splitUnit h.distinct hf hs
  obtain ⟨c, t6, t7, t8, t9, t10, t11, -, h6, h7, h8, h9, h10, h10', h11, h11', rfl⟩ :=
    splitUnit_eq_ok hs
  have k5 : (s.splitBase unit sp).Keyed :=
    (h.unlinkNode unit).congr (distinct_splitBase h.distinct hf) rfl rfl rfl
  have k9 : t9.Keyed := (((k5.relabel (setUnitName_relabels h6)).relabel
    (setUnitName_relabels h7)).link h8).link h9
  have k10 : t10.Keyed := by
    cases ha : s.aboveOf.get? unit with
    | none => exact h10' ha ▸ k9
    | some a => exact k9.link (h10 a ha)
  have k11 : t11.Keyed := by
    cases hu : s.underOf.get? unit with
    | none => exact h11' hu ▸ k10
    | some u => exact k10.link (h11 u hu)
  exact ⟨hd, k11.underOf, k11.erosions.foldl_addEdge (fun e => (e, sp.unitAbove)) _ fun _ _ => trivial,
    k11.baselaps.foldl_addEdge (fun b => (sp.unitUnder, b)) _ fun _ _ => trivial⟩

theorem Keyed.after (h : s.Keyed) {r : Except Error HorizonStack} (hok : ∀ s', r = .ok s' → s'.Keyed) :
    (s.after r).Keyed := by
  cases r with
  | error e => exact h
  | ok s' => exact hok s' rfl

/-- **Every call of the stack builder keeps the stores keyed.** -/
theorem Keyed.step (h : s.Keyed) (hs : Step s b s') : s'.Keyed := by
  cases hs with
  | addHorizon id hfresh | addUnit id hfresh => exact h.addNode hfresh
  | addHorizonWithId id | addUnitWithId id =>
    refine h.after fun _ hs => ?_
    obtain ⟨hfresh, rfl⟩ := addNodeWithId_eq_ok hs
    exact h.addNode hfresh
  | setHorizonName id name => exact h.after fun _ hs => h.relabel (setHorizonName_relabels hs)
  | setHorizonType id ty => exact h.after fun _ hs => h.relabel (setHorizonType_relabels hs)
  | setUnitName id name => exact h.after fun _ hs => h.relabel (setUnitName_relabels hs)
  | addHorizonUnder horizon unit => exact h.after fun _ hs => h.link (addHorizonUnder_eq_ok hs).2
  | addHorizonAbove horizon unit => exact h.after fun _ hs => h.link (addHorizonAbove_eq_ok hs).2
  | addErosion erosion eroded =>
    refine h.after fun _ hs => ?_
    obtain ⟨-, -, rfl⟩ := addErosion_eq_ok hs
    exact ⟨h.distinct, h.underOf, h.erosions.addEdge trivial, h.baselaps⟩
  | addBaselap baselapTop baselap =>
    refine h.after fun _ hs => ?_
    obtain ⟨-, -, rfl⟩ := addBaselap_eq_ok hs
    exact ⟨h.distinct, h.underOf, h.erosions, h.baselaps.addEdge trivial⟩
  | removeHorizon id | removeUnit id => exact h.after fun _ hs => h.removeNode hs
  | splitUnit unit sp hf => exact h.after fun _ hs => h.splitUnit hf hs
  | computeTopAndBottom => exact h.after fun _ hs => h.computeTopAndBottom hs

theorem Keyed.copyInto (hsrc : s.Keyed) (hc : t.copyInto s = .ok s') : s'.Keyed := by
  unfold HorizonStack.copyInto at hc
  split at hc
  · cases hc
  · cases hc
    exact hsrc.congr hsrc.distinct rfl rfl rfl

/-- A stack built from names registers each name once, links its column
one pair at a time and has no erosion or baselap. -/
theorem keyed_ofNamesFromTop {dim : Nat} {hs us : List String} {fresh : Nat → Uuid}
    (hinj : Function.Injective fresh) (h : ofNamesFromTop dim hs us fresh = .ok s) : s.Keyed := by
  have hd := distinct_ofNamesFromTop hinj h
  have hr := (ofNamesFromTop_eq_ok hinj h).2.2.1
  refine ⟨hd, ?_, hr.erosions.mono fun _ _ _ => trivial, hr.baselaps.mono fun _ _ _ => trivial⟩
  obtain ⟨outer, s1, s2, -, h1, h2, h3⟩ := ofNamesFromTop_stages h
  -- naming a node changes no link
  have hu1 : (s1.underOf.map (·.1)).Nodup := by
    refine foldlM_except_inv (P := fun t : HorizonStack => (t.underOf.map (·.1)).Nodup)
      (fun t e t' _ ht hP => ?_) (keyed_empty dim).underOf h1
    obtain ⟨x, g, -, -, rfl⟩ := nameNode_relabels ht
    exact hP
  obtain ⟨col, top, bot, -, -, -, rfl⟩ := computeTopAndBottom_eq_ok h3
  -- the column computed leaves the links as linking made them
  have hu2 := nodup_underOf_linkColumn hu1 h2
  exact hu2

/-- **Every stack the builder reaches keeps its stores keyed.** -/
theorem Reachable.keyed (h : Reachable b s) : s.Keyed := by
  induction h with
  | empty dim => exact keyed_empty dim
  | ofNamesFromTop hinj h | ofNamesFromBottom hinj h => exact keyed_ofNamesFromTop hinj h
  | step _ hs ih => exact ih.step hs
  | copy _ _ iht ihs => exact iht.after fun _ hc => ihs.copyInto hc

end HorizonStack

namespace StratigraphicModel

/-- The stores of a stratigraphic model that reading it back relies on hold
one entry per key: its geological model registers each identifier once and
its stack is keyed. -/
structure Keyed (s : StratigraphicModel) : Prop where
  model : s.model.catalog.Distinct
  stack : s.stack.Keyed

end StratigraphicModel

namespace Build

open StratigraphicModel (Keyed)

variable {s : StratigraphicModel} {id unit : Uuid} {sp : HorizonStack.UnitSplit}

theorem keeps_onModel_keyed {f : Model → Except Error Model}
    (hf : ∀ m m', m.catalog.Distinct → f m = .ok m' → m'.catalog.Distinct) :
    Keeps Keyed (onModel f) :=
  keeps_onModel fun s m h hm => ⟨hf s.model m h.model hm, h.stack⟩

theorem keeps_onModel_step {f : Model → Except Error Model}
    (hf : ∀ m m', f m = .ok m' → ∃ locked, Model.Step locked m m') : Keeps Keyed (onModel f) :=
  keeps_onModel_keyed fun m m' hd hm => by
    obtain ⟨locked, hs⟩ := hf m m' hm
    exact hs.distinct hd

theorem keeps_onStack_keyed {f : HorizonStack → Except Error HorizonStack}
    (hf : ∀ k k', k.Keyed → f k = .ok k' → k'.Keyed) : Keeps Keyed (onStack f) :=
  keeps_onStack fun s k h hk => ⟨h.model, hf s.stack k h.stack hk⟩

theorem keeps_onStack_step_keyed {f : HorizonStack → Except Error HorizonStack}
    (hf : ∀ k, ∃ b, HorizonStack.Step k b (k.after (f k))) : Keeps Keyed (onStack f) :=
  keeps_onStack_keyed fun k k' h hk => by
    obtain ⟨b, hs⟩ := hf k
    rw [hk] at hs
    exact h.step hs

theorem keeps_modify_keyed {g : StratigraphicModel → StratigraphicModel}
    (hm : ∀ s, (g s).model = s.model) (hk : ∀ s, (g s).stack = s.stack) : Keeps Keyed (modify g) :=
  keeps_modify fun s h => ⟨by rw [hm]; exact h.model, by rw [hk]; exact h.stack⟩

theorem keeps_registerNodes_keyed (l : List Component) : Keeps Keyed (registerNodes l) := by
  unfold registerNodes
  refine keeps_forM fun c _ => keeps_onModel_keyed fun m m' h hs => ?_
  obtain ⟨cat, hcat, hs⟩ := except_bind_eq_ok.1 hs
  obtain ⟨hfresh, rfl⟩ := Catalog.insert_eq_ok hcat
  obtain rfl := except_pure_eq_ok.1 hs
  exact h.register hfresh

theorem distinct_removeCollection {m m' : Model} {locked : Bool} {k : ComponentKind}
    (h : m.catalog.Distinct) (hs : m.removeCollection locked id k = .ok m') : m'.catalog.Distinct := by
  obtain ⟨-, rfl⟩ := Model.removeCollection_eq_ok hs
  exact h.without

theorem keyed_addNode (h : s.Keyed) {k : ComponentKind} (hk : k = .horizon ∨ k = .stratigraphicUnit)
    (hfresh : s.model.catalog.contains id = false) :
    ((do onModel fun m => pure (m.addCollection k id)
         onStack (·.addNodeWithId k id) : Build Unit).runOn s).2.Keyed := by
  rw [runOn_bind, runOn_onModel]
  have hc : k.isCollection = true := by rcases hk with rfl | rfl <;> rfl
  have hm : Keyed { s with model := s.model.addCollection k id } :=
    ⟨(Model.Step.addCollection hc hfresh : Model.Step true _ _).distinct h.model, h.stack⟩
  refine keeps_onStack_step_keyed (fun t => ?_) _ hm
  rcases hk with rfl | rfl
  · exact ⟨true, .addHorizonWithId id⟩
  · exact ⟨true, .addUnitWithId id⟩

theorem keeps_setHorizonName_keyed (id : Uuid) (name : String) :
    Keeps Keyed (setHorizonName id name) := by
  unfold setHorizonName
  refine (keeps_onModel_step fun _ _ hs => ⟨_, .setName hs⟩).bind fun _ =>
    keeps_get.bind fun _ => ?_
  exact (keeps_onStack_step_keyed fun _ => ⟨true, .setHorizonName id name⟩).ite (keeps_pure _)

theorem keeps_setHorizonType_keyed (id : Uuid) (ty : HorizonType) :
    Keeps Keyed (setHorizonType id ty) := by
  unfold setHorizonType
  refine (keeps_onModel_step fun _ _ hs => ⟨_, .setHorizonType hs⟩).bind fun _ =>
    keeps_get.bind fun _ => ?_
  exact (keeps_onStack_step_keyed fun _ => ⟨true, .setHorizonType id ty⟩).ite (keeps_pure _)

theorem keeps_setUnitName_keyed (id : Uuid) (name : String) : Keeps Keyed (setUnitName id name) := by
  unfold setUnitName
  refine (keeps_onModel_step fun _ _ hs => ⟨_, .setName hs⟩).bind fun _ =>
    keeps_get.bind fun _ => ?_
  exact (keeps_onStack_step_keyed fun _ => ⟨true, .setUnitName id name⟩).ite (keeps_pure _)

theorem keeps_removeHorizon_keyed (id : Uuid) : Keeps Keyed (removeHorizon id) := by
  unfold removeHorizon
  refine (keeps_onModel_keyed fun _ _ h hs => distinct_removeCollection h hs).bind fun _ =>
    keeps_get.bind fun _ => ?_
  exact Keeps.ite_bind (keeps_onStack_step_keyed fun _ => ⟨true, .removeHorizon id⟩) fun _ =>
    keeps_modify_keyed (fun _ => rfl) fun _ => rfl

theorem keeps_removeUnit_keyed (id : Uuid) : Keeps Keyed (removeUnit id) := by
  unfold removeUnit
  refine (keeps_onModel_keyed fun _ _ h hs => distinct_removeCollection h hs).bind fun _ =>
    keeps_get.bind fun _ => ?_
  exact (keeps_onStack_step_keyed fun _ => ⟨true, .removeUnit id⟩).ite (keeps_pure _)

/-- A split either fails on its check of the unit, keeping the model, or runs
its tail on the model it starts from. -/
theorem runOn_splitUnit (unit : Uuid) (sp : HorizonStack.UnitSplit) (s : StratigraphicModel) :
    ((splitUnit unit sp).runOn s).2 = s ∨
      ∃ inModel, ((splitUnit unit sp).runOn s).2 = ((splitTail unit sp inModel).runOn s).2 := by
  rw [splitUnit_eq, runOn_bind, runOn_get]
  dsimp only
  split
  · rw [runOn_bind, runOn_get]
    dsimp only
    rw [runOn_bind, runOn_check]
    cases s.model.componentOfKind unit .stratigraphicUnit with
    | error e => exact .inl rfl
    | ok c => exact .inr ⟨_, rfl⟩
  · exact .inr ⟨_, rfl⟩

theorem keyed_splitTail (h : s.Keyed) (hf : sp.Fresh s.stack.catalog unit) (inModel : Bool) :
    ((splitTail unit sp inModel).runOn s).2.Keyed := by
  unfold splitTail
  rw [runOn_bind, runOn_onStack]
  cases hs : s.stack.splitUnit unit sp with
  | error e => exact h
  | ok k =>
    have hk : Keyed { s with stack := k } := ⟨h.model, h.stack.splitUnit hf hs⟩
    dsimp only
    refine Keeps.run (keeps_get_bind fun t ht => keeps_check_bind (fun l _ => ?_) t ht) hk
    exact Keeps.ite_bind (keeps_onModel_keyed fun _ _ h hr => distinct_removeCollection h hr)
      fun _ => keeps_registerNodes_keyed l

theorem keyed_splitUnit (h : s.Keyed) (hf : sp.Fresh s.stack.catalog unit) :
    ((splitUnit unit sp).runOn s).2.Keyed := by
  rcases runOn_splitUnit unit sp s with hr | ⟨inModel, hr⟩
  · rw [hr]
    exact h
  · rw [hr]
    exact keyed_splitTail h hf inModel

theorem keeps_setStack_keyed {k : HorizonStack} (hk : k.Keyed) : Keeps Keyed (setStack k) := by
  unfold setStack
  refine keeps_get_bind fun s hs => keeps_check_bind (fun l _ => ?_) s hs
  exact (keeps_modify fun t ht => ⟨ht.model, hk⟩).bind fun _ => (keeps_registerNodes_keyed l).bind
    fun _ => keeps_modify_keyed (fun _ => rfl) fun _ => rfl

theorem keeps_onCell_keyed (item : Uuid) (f : VertexAttributes → Except Error VertexAttributes) :
    Keeps Keyed (onCell item f) :=
  keeps_onCell_of (fun _ _ _ _ h he =>
    ⟨(Model.Step.editAttributes he : Model.Step true _ _).distinct h.model, h.stack⟩) item f

theorem keeps_rescale_keyed (factor : Float) : Keeps Keyed (rescale factor) := by
  refine keeps_rescale_of fun hs hr => ?_
  unfold Build.rescaled at hr
  obtain ⟨meshes, -, rfl⟩ := except_map_eq_ok.1 hr
  exact ⟨hs.model, hs.stack⟩

theorem keeps_setIsovalue_keyed (h : Uuid) (value : Float) : Keeps Keyed (setIsovalue h value) := by
  unfold setIsovalue
  exact keeps_get.bind fun _ => (keeps_check _).bind fun _ =>
    keeps_modify_keyed (fun _ => rfl) fun _ => rfl

theorem keeps_setLocator_keyed (p : LocatorParams) : Keeps Keyed (setLocator p) :=
  keeps_modify_keyed (fun _ => rfl) fun _ => rfl

theorem keeps_copy_keyed {src : StratigraphicModel} (hsrc : src.Keyed) : Keeps Keyed (copy src) := by
  unfold copy
  refine keeps_get.bind fun _ => Keeps.ite_bind (keeps_throw _) fun _ => ?_
  refine (keeps_onModel_keyed fun m m' _ hm => ?_).bind fun _ =>
    (keeps_onStack_keyed fun k k' _ hk => hsrc.stack.copyInto hk).bind fun _ =>
    keeps_modify_keyed (fun _ => rfl) fun _ => rfl
  rw [Model.copyInto_eq_ok hm]
  exact hsrc.model

end Build

namespace StratigraphicModel

open Build

variable {s : StratigraphicModel}

/-- **Every stratigraphic model the builders reach keeps its stores keyed.** -/
theorem Reachable.keyed (h : s.Reachable) : s.Keyed := by
  induction h with
  | empty dim => exact ⟨List.nodup_nil, HorizonStack.keyed_empty dim⟩
  | ofModel hm => exact ⟨hm.distinct, HorizonStack.keyed_empty _⟩
  | model _ hs ih => exact ⟨hs.distinct ih.model, ih.stack⟩
  | copyModel _ hsrc hdim hc ih => exact ⟨Model.copyInto_eq_ok hc ▸ hsrc.distinct, ih.stack⟩
  | stack _ hs ih => exact ⟨ih.model, ih.stack.step hs⟩
  | copyStack _ hsrc ih => exact ⟨ih.model, ih.stack.after fun _ hc => hsrc.keyed.copyInto hc⟩
  | addHorizon id _ hfresh ih => exact keyed_addNode ih (.inl rfl) hfresh
  | addUnit id _ hfresh ih => exact keyed_addNode ih (.inr rfl) hfresh
  | setHorizonName id name _ ih => exact (keeps_setHorizonName_keyed id name).run ih
  | setHorizonType id ty _ ih => exact (keeps_setHorizonType_keyed id ty).run ih
  | setUnitName id name _ ih => exact (keeps_setUnitName_keyed id name).run ih
  | removeHorizon id _ ih => exact (keeps_removeHorizon_keyed id).run ih
  | removeUnit id _ ih => exact (keeps_removeUnit_keyed id).run ih
  | addHorizonUnder horizon unit _ ih =>
    exact (keeps_onStack_step_keyed fun _ => ⟨true, .addHorizonUnder horizon unit⟩).run ih
  | addHorizonAbove horizon unit _ ih =>
    exact (keeps_onStack_step_keyed fun _ => ⟨true, .addHorizonAbove horizon unit⟩).run ih
  | splitUnit unit sp _ hf ih => exact keyed_splitUnit ih hf
  | setStack _ hk ih => exact (keeps_setStack_keyed hk.keyed).run ih
  | setCoordinates item vertex p _ ih =>
    exact (keeps_setCoordinates_of keeps_onCell_keyed item vertex p).run ih
  | setLocation item vertex location _ ih =>
    exact (keeps_setLocation_of keeps_onCell_keyed item vertex location).run ih
  | setImplicit item vertex value _ ih =>
    exact (keeps_setImplicit_of keeps_onCell_keyed item vertex value).run ih
  | implicitFromField item field _ ih =>
    exact (keeps_implicitFromField_of keeps_onCell_keyed item field).run ih
  | locationFromAxes axis _ ih => exact (keeps_locationFromAxes_of keeps_onCell_keyed axis).run ih
  | rescale factor _ ih => exact (keeps_rescale_keyed factor).run ih
  | rescaleToBox _ ih => exact (keeps_rescaleToBox_of keeps_rescale_keyed).run ih
  | setIsovalue h value _ ih => exact (keeps_setIsovalue_keyed h value).run ih
  | setLocator p _ ih => exact (keeps_setLocator_keyed p).run ih
  | copy _ _ hdim ih ihsrc => exact (keeps_copy_keyed ihsrc).run ih

end StratigraphicModel

end Subsurface
