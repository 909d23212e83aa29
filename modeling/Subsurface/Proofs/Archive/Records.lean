import Subsurface.Archive.Stratigraphy
import Subsurface.Proofs.Archive.Codec
import Subsurface.Proofs.Catalog
/-!
Every archive reader reads back the record its writer wrote.

A model, a stack and a stratigraphic model are each written as a record of
plain lists (`ModelRecord.ofModel`, `StackRecord.ofStack`,
`StratigraphicRecord.ofModel`), field by field, and read back field by
field. Each reader reads back the record of what was written as long as the
bytes fit in a 64-bit count and every number stored in eight bytes fits in
them (`getModel_reads`, `getStack_reads`, `getStratigraphic_reads`). A file
is its header and then its payload, so reading a written file reads back
the payload (`readFile_writeFile`).
-/

namespace Subsurface

theorem FaultType.getD_index (t : FaultType) : FaultType.all.getD t.index .noType = t := by
  cases t <;> rfl

theorem FaultType.index_lt (t : FaultType) : t.index < FaultType.all.length := by
  cases t <;> decide

theorem HorizonType.getD_index (t : HorizonType) : HorizonType.all.getD t.index .noType = t := by
  cases t <;> rfl

theorem HorizonType.index_lt (t : HorizonType) : t.index < HorizonType.all.length := by
  cases t <;> decide

theorem ComponentKind.getD_index (k : ComponentKind) : ComponentKind.all.getD k.index .fault = k := by
  cases k <;> rfl

theorem ComponentKind.index_lt (k : ComponentKind) : k.index < ComponentKind.all.length := by
  cases k <;> decide

namespace Archive

open Decoder

/-! ## Records of what is written -/

/-- The stored form of both sides of a relation. -/
def RelationRecord.ofRelation (r : Relation) : RelationRecord := ⟨r.childrenLists, r.parentsLists⟩

/-- The stored form of a model: its components kind by kind, its relations,
the meshes of its items and its reference system. -/
def ModelRecord.ofModel (m : Model) : ModelRecord :=
  ⟨m.catalog.all, .ofRelation m.membership, .ofRelation m.boundaries, .ofRelation m.internals,
    m.itemMeshes.map fun p => MeshRecord.ofMesh p.1 p.2, m.crs⟩

/-- The stored form of a stack. -/
def StackRecord.ofStack (s : HorizonStack) : StackRecord :=
  ⟨s.catalog.all, s.abovePairs, s.erosions.childrenLists, s.baselaps.childrenLists,
    s.state == .built⟩

/-- The stored form of a stratigraphic model. -/
def StratigraphicRecord.ofModel (s : StratigraphicModel) : StratigraphicRecord :=
  ⟨.ofModel s.model, .ofStack s.stack, s.isovalues.sorted⟩

/-! ## Components -/

theorem getComponentType_reads (t : ComponentType) :
    getComponentType.Reads (putComponentType t) t := by
  unfold getComponentType
  cases t with
  | fault t =>
    refine Reads.bind (getVariant_reads (by decide : 0 < 2) (by decide)) ?_
    have h := (getVariant_reads t.index_lt (Nat.lt_trans t.index_lt (by decide))).map
      (g := fun i => ComponentType.fault (FaultType.all.getD i .noType))
    rwa [FaultType.getD_index] at h
  | horizon t =>
    refine Reads.bind (getVariant_reads (by decide : 1 < 2) (by decide)) ?_
    have h := (getVariant_reads t.index_lt (Nat.lt_trans t.index_lt (by decide))).map
      (g := fun i => ComponentType.horizon (HorizonType.all.getD i .noType))
    rwa [HorizonType.getD_index] at h

theorem getComponent_reads (c : Component) (h : Fits (putComponent c)) :
    getComponent.Reads (putComponent c) c := by
  unfold getComponent putComponent at *
  simp only [List.append_assoc] at h ⊢
  refine Reads.bind (getUuid_reads c.id) (Reads.bind (getVariant_reads c.kind.index_lt
    (Nat.lt_trans c.kind.index_lt (by decide))) (Reads.bind (getString_reads h.right.right.left)
    (Reads.bind_end (getOption_reads fun t _ => getComponentType_reads t) ?_)))
  rw [ComponentKind.getD_index]
  exact reads_pure c

/-! ## Relations -/

theorem putLists_eq (lists : List (Uuid × List Uuid)) :
    putLists lists = putList (fun e => putUuid e.1 ++ putList putUuid e.2) lists := rfl

theorem putUuid_ne_nil (u : Uuid) : putUuid u ≠ [] := by
  simp [putUuid, putU64, littleEndian]

theorem getLists_reads (lists : List (Uuid × List Uuid)) (h : Fits (putLists lists)) :
    getLists.Reads (putLists lists) lists := by
  rw [putLists_eq] at *
  unfold getLists
  refine getList_reads (fun e _ => by simp [putUuid_ne_nil]) h fun e _ he => ?_
  refine Reads.bind (getUuid_reads e.1) (Reads.bind_end (getList_reads (fun u _ => putUuid_ne_nil u)
    he.right fun u _ _ => getUuid_reads u) (reads_pure _))

theorem getRelation_reads (r : Relation) (h : Fits (putRelation r)) :
    getRelation.Reads (putRelation r) (.ofRelation r) := by
  unfold getRelation putRelation at *
  exact Reads.bind (getLists_reads _ h.left)
    (Reads.bind_end (getLists_reads _ h.right) (reads_pure _))

/-! ## Meshes -/

/-- The numbers a stored mesh writes in eight bytes fit in them: its simplex
size, its vertex indices and its attribute dimensions. -/
structure MeshRecord.InRange (r : MeshRecord) : Prop where
  simplexSize : r.simplexSize < 2 ^ 64
  elements : ∀ v ∈ r.elements, v < 2 ^ 64
  dimensions : ∀ a ∈ r.attributes, a.dimension < 2 ^ 64

theorem putU64_ne_nil (v : Nat) : putU64 v ≠ [] := by
  simp [putU64, littleEndian]

theorem putFloat_ne_nil (x : Binary64) : putFloat x ≠ [] := putU64_ne_nil _

theorem putBool_ne_nil (b : Bool) : putBool b ≠ [] := by
  simp [putBool]

theorem putString_ne_nil (s : String) : putString s ≠ [] := by
  simp [putString, putU64_ne_nil]

theorem putList_ne_nil {α : Type} (f : α → List UInt8) (xs : List α) : putList f xs ≠ [] := by
  simp [putList, putU64_ne_nil]

theorem putList_map {α β : Type} (f : β → List UInt8) (g : α → β) (xs : List α) :
    putList f (xs.map g) = putList (fun x => f (g x)) xs := by
  simp [putList, List.flatMap_map]

theorem getAttribute_reads (a : AttributeRecord) (h : Fits (putAttribute a))
    (hd : a.dimension < 2 ^ 64) : getAttribute.Reads (putAttribute a) a := by
  unfold getAttribute putAttribute at *
  simp only [List.append_assoc] at h ⊢
  exact Reads.bind (getString_reads h.left) (Reads.bind (getU64_reads hd)
    (Reads.bind (getList_reads (fun x _ => putFloat_ne_nil x) h.right.right.left
      fun x _ _ => getFloat_reads x)
    (Reads.bind_end (getList_reads (fun b _ => putBool_ne_nil b) h.right.right.right
      fun b _ _ => getBool_reads b) (reads_pure a))))

theorem getMesh_reads (r : MeshRecord) (h : Fits (putMesh r)) (hr : r.InRange) :
    getMesh.Reads (putMesh r) r := by
  unfold getMesh putMesh at *
  simp only [List.append_assoc] at h ⊢
  exact Reads.bind (getUuid_reads r.id) (Reads.bind (getU64_reads hr.simplexSize)
    (Reads.bind (getList_reads (fun x _ => putFloat_ne_nil x) h.right.right.left
      fun x _ _ => getFloat_reads x)
    (Reads.bind (getList_reads (fun v _ => putU64_ne_nil v) h.right.right.right.left
      fun v hv _ => getU64_reads (hr.elements v hv))
    (Reads.bind_end (getList_reads (fun a _ => by simp [putAttribute, putString_ne_nil])
      h.right.right.right.right fun a ha hfit => getAttribute_reads a hfit (hr.dimensions a ha))
      (reads_pure r)))))

/-! ## Models -/

theorem getCrs_reads (c : CrsInfo) (h : Fits (putCrs c)) : getCrs.Reads (putCrs c) c := by
  unfold getCrs putCrs at *
  simp only [List.append_assoc] at h ⊢
  exact Reads.bind (getString_reads h.left) (Reads.bind (getString_reads h.right.left)
    (Reads.bind_end (getString_reads h.right.right) (reads_pure c)))

theorem putModel_eq (m : Model) : putModel m =
    putList putComponent m.catalog.all ++ (putRelation m.membership ++ (putRelation m.boundaries ++
      (putRelation m.internals ++ (putList putMesh (ModelRecord.ofModel m).meshes ++
        putOption putCrs m.crs)))) := by
  rw [ModelRecord.ofModel, putList_map]
  simp only [putModel, List.append_assoc]

/-- A model's payload reads back its record when the meshes' numbers fit. -/
theorem getModel_reads (m : Model) (h : Fits (putModel m))
    (hmesh : ∀ r ∈ (ModelRecord.ofModel m).meshes, Fits (putMesh r) → r.InRange) :
    getModel.Reads (putModel m) (.ofModel m) := by
  unfold getModel
  rw [putModel_eq] at *
  refine Reads.bind (getList_reads (fun c _ => by simp [putComponent, putUuid_ne_nil]) h.left
      fun c _ hc => getComponent_reads c hc)
    (Reads.bind (getRelation_reads _ h.right.left) (Reads.bind (getRelation_reads _ h.right.right.left)
    (Reads.bind (getRelation_reads _ h.right.right.right.left)
    (Reads.bind (getList_reads (fun r _ => by simp [putMesh, putUuid_ne_nil]) h.right.right.right.right.left
      fun r hr hfit => getMesh_reads r hfit (hmesh r hr hfit))
    (Reads.bind_end (getOption_reads fun c hc => ?_) (reads_pure _))))))
  have hfit := h.right.right.right.right.right
  rw [hc] at hfit
  exact getCrs_reads c (@Fits.right [1] _ hfit)

/-! ## Stacks and stratigraphic models -/

theorem putStack_eq (s : HorizonStack) : putStack s =
    putList putComponent s.catalog.all ++ (putList (fun p => putUuid p.1 ++ putUuid p.2) s.abovePairs ++
      (putLists s.erosions.childrenLists ++ (putLists s.baselaps.childrenLists ++
        putBool (s.state == .built)))) := by
  simp only [putStack, List.append_assoc]

theorem getPair_reads (p : Uuid × Uuid) :
    (do let a ← getUuid; let u ← getUuid; pure (a, u) : Decoder (Uuid × Uuid)).Reads
      (putUuid p.1 ++ putUuid p.2) p :=
  Reads.bind (getUuid_reads p.1) (Reads.bind_end (getUuid_reads p.2) (reads_pure p))

theorem getStack_reads (s : HorizonStack) (h : Fits (putStack s)) :
    getStack.Reads (putStack s) (.ofStack s) := by
  unfold getStack
  rw [putStack_eq] at *
  exact Reads.bind (getList_reads (fun c _ => by simp [putComponent, putUuid_ne_nil]) h.left
      fun c _ hc => getComponent_reads c hc)
    (Reads.bind (getList_reads (fun p _ => by simp [putUuid_ne_nil]) h.right.left
      fun p _ _ => getPair_reads p)
    (Reads.bind (getLists_reads _ h.right.right.left)
    (Reads.bind (getLists_reads _ h.right.right.right.left)
    (Reads.bind_end (getBool_reads _) (reads_pure _)))))

theorem putStratigraphic_eq (s : StratigraphicModel) : putStratigraphic s =
    putModel s.model ++ (putStack s.stack ++
      putList (fun p => putUuid p.1 ++ putFloat p.2) s.isovalues.sorted) := by
  simp only [putStratigraphic, List.append_assoc]

/-- A stratigraphic model's payload reads back its record when the meshes'
numbers fit. -/
theorem getStratigraphic_reads (s : StratigraphicModel) (h : Fits (putStratigraphic s))
    (hmesh : ∀ r ∈ (ModelRecord.ofModel s.model).meshes, Fits (putMesh r) → r.InRange) :
    getStratigraphic.Reads (putStratigraphic s) (.ofModel s) := by
  unfold getStratigraphic
  rw [putStratigraphic_eq] at *
  exact Reads.bind (getModel_reads s.model h.left hmesh) (Reads.bind (getStack_reads s.stack h.right.left)
    (Reads.bind_end (getList_reads (fun p _ => by simp [putUuid_ne_nil]) h.right.right
      fun p _ _ => Reads.bind (getUuid_reads p.1) (Reads.bind_end (getFloat_reads p.2) (reads_pure p)))
      (reads_pure _)))

/-! ## Files -/

theorem getHeader_reads {ext : String} (h : Fits (putString ext)) :
    (do let m ← getBytes 4; let e ← getString; let v ← getU32; pure (m, e, v) :
      Decoder (List UInt8 × String × Nat)).Reads (header ext) (magic, ext, formatVersion) := by
  unfold header
  rw [List.append_assoc]
  exact Reads.bind (getBytes_reads rfl) (Reads.bind (getString_reads h)
    (Reads.bind_end (getU32_reads (by decide)) (reads_pure _)))

theorem writeFile_eq_ok {path ext : String} {payload bytes : List UInt8}
    (hw : writeFile path ext payload = .ok bytes) : bytes = header ext ++ payload := by
  obtain ⟨-, -, hw⟩ := except_bind_eq_ok.1 hw
  obtain ⟨-, -, hw⟩ := except_bind_eq_ok.1 hw
  exact (except_pure_eq_ok.1 hw).symm

theorem writeFile_of_checks {path ext : String} (payload : List UInt8)
    (hext : checkExtension path ext = .ok ()) (hcre : checkCreation path = .ok ()) :
    writeFile path ext payload = .ok (header ext ++ payload) := by
  rw [writeFile, hext, hcre]
  rfl

/-- **Reading a written file reads back its payload**, when the file fits. -/
theorem readFile_writeFile {α : Type} {path ext : String} {payload bytes : List UInt8}
    {d : Decoder α} {a : α} (hw : writeFile path ext payload = .ok bytes) (hfit : Fits bytes)
    (hd : d.Reads payload a) : readFile path ext d bytes = .ok a := by
  obtain ⟨u, hext, hw⟩ := except_bind_eq_ok.1 hw
  obtain ⟨-, -, hw⟩ := except_bind_eq_ok.1 hw
  obtain rfl := except_pure_eq_ok.1 hw
  have hhead := @getHeader_reads ext (Fits.right (Fits.left (Fits.left hfit))) payload
  have hpay := hd []
  rw [List.append_nil] at hpay
  unfold readFile
  rw [hext]
  rw [hhead]
  simp [encodingError, Except.mapError, hpay, bind, Except.bind]

end Archive

end Subsurface
