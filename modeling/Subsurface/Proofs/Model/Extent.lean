import Subsurface.Proofs.Geometry.Span
import Subsurface.Proofs.Catalog
import Subsurface.Stratigraphy.Coordinates
/-!
The extent of a model.

The box of a model joins the boxes of its item meshes, and its stratigraphic
box joins the boxes of the stratigraphic points of its cells, skipping those
without both attributes. Both are folds of `merge`, which grows an optional
box by an optional box; an optional box `Covers` the points it spans, none
covering no point. Since a box spans the points fed to it whatever the order
(`Spans.agree`), neither extent depends on the order of the meshes or of the
cells: any other order gives a box alike axis by axis, and the stratigraphic
one fails in one order exactly when it fails in the other.
-/

namespace Subsurface

namespace Box

/-- The optional box `acc` grown by the optional box `c`. -/
def merge (acc c : Option (Box Float)) : Option (Box Float) :=
  c.elim acc fun b => some (acc.elim b fun a => a.addBox b)

/-- The optional box `x` spans the points `P`; no box spans no point. -/
def Covers : Option (Box Float) → List (Point Float) → Prop
  | none, P => P = []
  | some b, P => Spans b P

theorem covers_none : Covers none [] := rfl

theorem covers_ofPoints : ∀ P : List (Point Float), Covers (ofPoints P) P
  | [] => rfl
  | p :: ps => by
    obtain ⟨b, hb, hs⟩ := ofPoints_spans p ps
    rw [hb]
    exact hs

theorem Covers.merge {acc c : Option (Box Float)} {P Q : List (Point Float)} (hacc : Covers acc P)
    (hc : Covers c Q) : Covers (Box.merge acc c) (P ++ Q) := by
  cases c with
  | none =>
    have hQ : Q = [] := hc
    rw [hQ, List.append_nil]
    exact hacc
  | some c =>
    cases acc with
    | none =>
      have hP : P = [] := hacc
      rw [hP, List.nil_append]
      exact hc
    | some a => exact Spans.addBox hacc hc

theorem Covers.congr {x : Option (Box Float)} {P Q : List (Point Float)} (h : Covers x P)
    (hPQ : ∀ p, p ∈ P ↔ p ∈ Q) : Covers x Q := by
  cases x with
  | none =>
    have hP : P = [] := h
    show Q = []
    exact List.eq_nil_iff_forall_not_mem.2 fun p hp => by simp [hP] at hPQ; exact hPQ p hp
  | some b => exact Spans.congr h hPQ

theorem Covers.agree {x y : Option (Box Float)} {P Q : List (Point Float)} (hx : Covers x P)
    (hy : Covers y Q) (hPQ : ∀ p, p ∈ P ↔ p ∈ Q) : Option.Rel Agree x y := by
  cases x with
  | none =>
    cases y with
    | none => exact .none
    | some c =>
      have hP : P = [] := hx
      obtain ⟨q, hq, _⟩ := Spans.size_eq hy
      rw [← hPQ q, hP] at hq
      cases hq
  | some b =>
    cases y with
    | none =>
      have hQ : Q = [] := hy
      obtain ⟨p, hp, _⟩ := Spans.size_eq hx
      rw [hPQ p, hQ] at hp
      cases hp
    | some c => exact .some (Spans.agree hx hy hPQ)

theorem covers_foldl_merge : ∀ (pss : List (List (Point Float))) {acc : Option (Box Float)}
    {P : List (Point Float)}, Covers acc P →
      Covers (pss.foldl (fun a ps => Box.merge a (ofPoints ps)) acc) (P ++ pss.flatten)
  | [], _, P, h => by rw [List.flatten_nil, List.append_nil]; exact h
  | ps :: pss, _, P, h => by
    rw [List.foldl_cons, List.flatten_cons, ← List.append_assoc]
    exact covers_foldl_merge pss (h.merge (covers_ofPoints ps))

end Box

open Box Stratigraphy

namespace Model

/-! ## The box of the item meshes -/

/-- The points of every item mesh, mesh by mesh. -/
def meshPoints (m : Model) : List (Point Float) := m.meshes.flatMap fun e => e.2.points.toList

theorem boundingBox_eq_foldl_merge (m : Model) :
    m.boundingBox = ((m.meshes.map fun e => e.2.boundingBox).foldl Box.merge none) := by
  -- a mesh without a box leaves the fold as it was, so only the boxes count
  have hskip : ∀ (L : MeshTable) (acc : Option (Box Float)),
      (L.map fun e => e.2.boundingBox).foldl Box.merge acc =
        ((L.filterMap fun e => e.2.boundingBox).map some).foldl Box.merge acc := by
    intro L
    induction L with
    | nil => intro acc; rfl
    | cons e L ih =>
      intro acc
      cases he : e.2.boundingBox with
      | none => simp only [List.map_cons, List.foldl_cons, List.filterMap_cons, he, ih]; rfl
      | some c => simp only [List.map_cons, List.foldl_cons, List.filterMap_cons, he, ih,
          List.map_cons]
  rw [hskip, boundingBox]
  cases m.meshes.filterMap fun e => e.2.boundingBox with
  | nil => rfl
  | cons b bs =>
    rw [List.map_cons, List.foldl_cons, List.foldl_map]
    exact (List.foldl_hom some fun _ _ => rfl).symm

theorem boundingBox_covers (m : Model) : Covers m.boundingBox m.meshPoints := by
  rw [boundingBox_eq_foldl_merge, meshPoints, List.flatMap_def, List.foldl_map]
  have h := covers_foldl_merge (m.meshes.map fun e => e.2.points.toList) covers_none
  rw [List.foldl_map, List.nil_append] at h
  exact h

theorem boundingBox_perm (m : Model) {meshes : MeshTable} (h : meshes.Perm m.meshes) :
    Option.Rel Agree { m with meshes := meshes }.boundingBox m.boundingBox := by
  refine (boundingBox_covers _).agree (boundingBox_covers m) fun p => ?_
  simp only [meshPoints, List.mem_flatMap]
  exact exists_congr fun e => and_congr_left fun _ => h.mem_iff

/-! ## The box of the stratigraphic points -/

/-- The stratigraphic points of the vertices of the cell `c`, none when its
mesh lacks one of the two attributes. -/
def cellPoints (m : Model) (c : Component) : Except Error (List (Point Float)) := do
  let mesh ← m.cellMesh c.id
  if !hasStratigraphy mesh then pure []
  else (List.range mesh.nbVertices).mapM (vertexPoint m.dim c.id mesh)

theorem itemBox_eq (d : Nat) (item : Uuid) (mesh : SimplexMesh) :
    itemBox d item mesh = ofPoints <$> (List.range mesh.nbVertices).mapM (vertexPoint d item mesh) := by
  unfold itemBox
  simp only [bind_pure_comp]
  rw [foldlM_map_eq_map_mapM]
  congr 1
  funext ps
  cases ps with
  | nil => rfl
  | cons p ps =>
    rw [List.foldl_cons]
    exact List.foldl_hom some fun _ _ => rfl

theorem addCellBox_eq (m : Model) (acc : Option (Box Float)) (c : Component) :
    m.addCellBox acc c = (fun ps => Box.merge acc (ofPoints ps)) <$> m.cellPoints c := by
  unfold addCellBox cellPoints
  cases m.cellMesh c.id with
  | error e => rfl
  | ok mesh =>
    rw [except_bind_of_eq_ok rfl, except_bind_of_eq_ok rfl]
    cases hs : hasStratigraphy mesh with
    | false => rfl
    | true =>
      simp only [Bool.not_true, Bool.false_eq_true, if_false, itemBox_eq]
      cases (List.range mesh.nbVertices).mapM (vertexPoint m.dim c.id mesh) with
      | error e => rfl
      | ok ps =>
        cases hb : ofPoints ps <;> cases acc <;>
          simp [hb, Box.merge, Functor.map, Except.map, bind, Except.bind, pure, Except.pure]

/-- Joining the cells' boxes in turn is gathering the cells' points, then
merging their boxes. -/
theorem foldlM_addCellBox (m : Model) (cs : List Component) (acc : Option (Box Float)) :
    cs.foldlM m.addCellBox acc =
      (fun pss => pss.foldl (fun a ps => Box.merge a (ofPoints ps)) acc) <$> cs.mapM m.cellPoints := by
  have hstep : m.addCellBox = fun a c => (fun ps => Box.merge a (ofPoints ps)) <$> m.cellPoints c := by
    funext a c
    exact addCellBox_eq m a c
  rw [hstep]
  exact foldlM_map_eq_map_mapM cs acc

/-- The stratigraphic box of cells that all have their points spans those
points; it fails exactly when the points of some cell do. -/
theorem foldlM_addCellBox_covers (m : Model) (cs : List Component) :
    ((∃ x, cs.foldlM m.addCellBox none = .ok x) ↔ ∀ c ∈ cs, ∃ ps, m.cellPoints c = .ok ps) ∧
      ∀ x, cs.foldlM m.addCellBox none = .ok x →
        ∃ pss, cs.mapM m.cellPoints = .ok pss ∧ Covers x pss.flatten := by
  rw [foldlM_addCellBox]
  refine ⟨⟨fun ⟨x, hx⟩ => ?_, fun h => ?_⟩, fun x hx => ?_⟩
  · obtain ⟨pss, hpss, _⟩ := except_map_eq_ok.1 hx
    exact forall_ok_of_mapM_ok hpss
  · obtain ⟨pss, hpss⟩ := exists_mapM_eq_ok h
    exact ⟨_, by rw [hpss]; rfl⟩
  · obtain ⟨pss, hpss, rfl⟩ := except_map_eq_ok.1 hx
    exact ⟨pss, hpss, covers_foldl_merge pss covers_none⟩

/-- The stratigraphic box of the cells taken in another order fails when
and only when it fails in theirs, and is alike otherwise. -/
theorem foldlM_addCellBox_perm (m : Model) {cs cs' : List Component} (hperm : cs.Perm cs') :
    ((∃ x, cs.foldlM m.addCellBox none = .ok x) ↔ ∃ y, cs'.foldlM m.addCellBox none = .ok y) ∧
      ∀ x y, cs.foldlM m.addCellBox none = .ok x → cs'.foldlM m.addCellBox none = .ok y →
        Option.Rel Agree x y := by
  obtain ⟨hok, hcov⟩ := foldlM_addCellBox_covers m cs
  obtain ⟨hok', hcov'⟩ := foldlM_addCellBox_covers m cs'
  refine ⟨by rw [hok, hok']; exact forall_congr' fun c => imp_congr_left hperm.mem_iff, ?_⟩
  intro x y hx hy
  obtain ⟨pss, hpss, hx⟩ := hcov x hx
  obtain ⟨pss', hpss', hy⟩ := hcov' y hy
  refine hx.agree hy fun p => ?_
  rw [mem_flatten_of_mapM_eq_ok hpss, mem_flatten_of_mapM_eq_ok hpss']
  exact exists_congr fun c => and_congr_left fun _ => hperm.mem_iff

/-- The stratigraphic box of the whole model does not depend on the order of
its cells. -/
theorem stratigraphicBox_perm (m : Model) {cs : List Component}
    (h : cs.Perm (m.components (cellKind m.dim))) :
    ((∃ x, cs.foldlM m.addCellBox none = .ok x) ↔ ∃ y, m.stratigraphicBox none = .ok y) ∧
      ∀ x y, cs.foldlM m.addCellBox none = .ok x → m.stratigraphicBox none = .ok y →
        Option.Rel Agree x y :=
  foldlM_addCellBox_perm m h

end Model

/-- Boxes of doubles span the points fed to them, in any order and grouping
of the calls: every sequence of calls builds a box whose corners are, axis by
axis, a least and a greatest coordinate of the points fed, NaN only when all
are, and which holds without tolerance each point fed whose coordinates are
numbers; two sequences feeding the same points build alike boxes; and neither
the box of a model's meshes nor its stratigraphic box depends on the order of
the meshes or of the cells. -/
theorem boxes_span_points_in_any_order :
    (∀ e : Build, ∃ b, e.box = some b ∧ Spans b e.fed ∧
      ∀ p ∈ e.fed, (∀ i < p.size, (p.coord i).isNaN = false) → b.contains p 0 = true) ∧
    (∀ e e' : Build, (∀ p, p ∈ e.fed ↔ p ∈ e'.fed) → Option.Rel Agree e.box e'.box) ∧
    (∀ (m : Model) (meshes : MeshTable), meshes.Perm m.meshes →
      Option.Rel Agree { m with meshes := meshes }.boundingBox m.boundingBox) ∧
    ∀ (m : Model) (cs : List Component), cs.Perm (m.components (Model.cellKind m.dim)) →
      ((∃ x, cs.foldlM m.addCellBox none = .ok x) ↔ ∃ y, m.stratigraphicBox none = .ok y) ∧
      ∀ x y, cs.foldlM m.addCellBox none = .ok x → m.stratigraphicBox none = .ok y →
        Option.Rel Agree x y := by
  refine ⟨fun e => ?_, fun e e' h => ?_, fun m _ h => Model.boundingBox_perm m h,
    fun m _ h => Model.stratigraphicBox_perm m h⟩
  · obtain ⟨b, hb, hs⟩ := e.spans
    exact ⟨b, hb, hs, fun p hp hnum => hs.contains hp hnum⟩
  · obtain ⟨b, hb, hs⟩ := e.spans
    obtain ⟨b', hb', hs'⟩ := e'.spans
    rw [hb, hb']
    exact .some (hs.agree hs' h)

end Subsurface
