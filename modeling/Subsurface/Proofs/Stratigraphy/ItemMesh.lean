import Subsurface.Stratigraphy.ItemMesh
import Subsurface.Proofs.Stratigraphy.MappedElements
import Subsurface.Proofs.Stratigraphy.Reachable
/-!
Facet meshes carried into stratigraphic space.

The matches of a facet vertex are parent vertices within the tolerance of
it, as the distance is computed (`near_of_mem_coincidentVertices`). A side
records, for a facet vertex, only a match that an enclosing element chose,
and the first such record is kept (`getD_claimAll_eq_some`,
`claimAll_keeps`). So every vertex of a rebuilt facet sits at the
stratigraphic point of one of its matches, and on an internal facet a
vertex that an enclosing element in front of the facet chooses for takes
the front position from such an element.

A rebuilt facet fails at its first vertex that has no match or whose match
has no stratigraphic point, with the error of that vertex
(`rebuildFacet_eq_error_of_unmatched`).
-/

namespace Subsurface

section Fold

variable {α β : Type} {f : β → α → β} {l : List α}

theorem foldl_invariant {I : β → Prop} (hf : ∀ b a, a ∈ l → I b → I (f b a)) :
    ∀ {b : β}, I b → I (l.foldl f b) := by
  induction l with
  | nil => exact fun hb => hb
  | cons x l ih =>
    intro b hb
    rw [List.foldl_cons]
    exact ih (fun b a ha => hf b a (List.mem_cons_of_mem x ha)) (hf b x List.mem_cons_self hb)

/-- What one step of a fold brings about, and every step keeps, holds at
its end. -/
theorem foldl_of_mem {I Q : β → Prop} (hI : ∀ b a, a ∈ l → I b → I (f b a))
    (hQ : ∀ b a, a ∈ l → I b → Q b → Q (f b a)) {a : α} (ha : a ∈ l) (hset : ∀ b, I b → Q (f b a)) :
    ∀ {b : β}, I b → Q (l.foldl f b) := by
  induction l with
  | nil => exact absurd ha List.not_mem_nil
  | cons x l ih =>
    intro b hb
    rw [List.foldl_cons]
    have hI' : ∀ b a, a ∈ l → I b → I (f b a) := fun b a ha => hI b a (List.mem_cons_of_mem x ha)
    have hQ' : ∀ b a, a ∈ l → I b → Q b → Q (f b a) := fun b a ha => hQ b a (List.mem_cons_of_mem x ha)
    rcases List.mem_cons.1 ha with rfl | ha
    · -- the step that brings `Q` about is the first; the rest of the fold keeps it
      have hstep : I (f b a) ∧ Q (f b a) := ⟨hI b a List.mem_cons_self hb, hset b hb⟩
      exact (@foldl_invariant α β f l (fun b => I b ∧ Q b)
        (fun b a' ha' hb' => ⟨hI' b a' ha' hb'.1, hQ' b a' ha' hb'.1 hb'.2⟩) _ hstep).2
    · exact ih hI' hQ' ha (hI b x List.mem_cons_self hb)

end Fold

namespace Stratigraphy

/-! ## Matches -/

section Matches

variable {items : Array Point} {parents : Array (Array Binary64)} {t : Float}

/-- A match of a facet vertex is a parent vertex within the tolerance of it,
as the distance is computed. -/
theorem near_of_mem_coincidentVertices {v pv : Nat}
    (h : pv ∈ (coincidentVertices items parents t).getD v []) :
    ∃ (hv : v < items.size) (hpv : pv < parents.size),
      Point.distance items[v] (Point.ofEncoded parents[pv]) ≤ t := by
  unfold coincidentVertices at h
  rw [Array.getD_eq_getD_getElem?, Array.getElem?_map] at h
  by_cases hv : v < items.size
  · rw [Array.getElem?_eq_getElem hv] at h
    simp only [Option.map_some, Option.getD_some, List.mem_map] at h
    obtain ⟨⟨dist, p⟩, hx, rfl⟩ := h
    rw [(List.mergeSort_perm _ _).mem_iff, List.mem_filter, List.mem_map] at hx
    obtain ⟨⟨q, hq, hqeq⟩, hle⟩ := hx
    simp only [Prod.mk.injEq] at hqeq
    obtain ⟨rfl, rfl⟩ := hqeq
    -- the window is a run of the parent vertices in the order of their first coordinate
    have hq' : q ∈ List.range parents.size :=
      (List.mergeSort_perm _ _).mem_iff.1 (List.mem_of_mem_drop ((List.takeWhile_sublist _).subset hq))
    have hpv : q < parents.size := List.mem_range.1 hq'
    refine ⟨hv, hpv, ?_⟩
    simpa [Array.getElem?_eq_getElem hpv] using hle
  · rw [Array.getElem?_eq_none (Nat.le_of_not_lt hv)] at h
    exact absurd h List.not_mem_nil

end Matches

/-! ## Recording choices -/

section Claims

variable {side : Array (Option Nat)} {fv pv u q : Nat} {fvs chosen : List Nat}

theorem getD_claim : (claim side fv pv).getD u none =
    if fv = u ∧ u < side.size then (side.getD u none).or (some pv) else side.getD u none := by
  unfold claim
  rw [Array.getD_eq_getD_getElem?, Array.getElem?_modify, Array.getD_eq_getD_getElem?]
  by_cases hfu : fv = u
  · subst hfu
    by_cases hu : fv < side.size
    · rw [Array.getElem?_eq_getElem hu]
      cases side[fv] <;> simp [hu]
    · rw [Array.getElem?_eq_none (Nat.le_of_not_lt hu)]
      simp [hu]
  · simp [hfu]

@[simp] theorem size_claim : (claim side fv pv).size = side.size := Array.size_modify

theorem claim_keeps (h : side.getD u none = some q) : (claim side fv pv).getD u none = some q := by
  rw [getD_claim]
  split <;> simp [h]

theorem getD_claim_eq_some (h : (claim side fv pv).getD u none = some q) :
    side.getD u none = some q ∨ u = fv ∧ q = pv := by
  rw [getD_claim] at h
  split at h
  · rename_i hu
    cases hs : side.getD u none with
    | none =>
      rw [hs, Option.none_or, Option.some.injEq] at h
      exact .inr ⟨hu.1.symm, h.symm⟩
    | some q' =>
      rw [hs, Option.some_or] at h
      exact .inl h
  · exact .inl h

theorem isSome_claim (h : fv < side.size) : ((claim side fv pv).getD fv none).isSome := by
  rw [getD_claim, if_pos ⟨rfl, h⟩]
  cases side.getD fv none <;> rfl

@[simp] theorem claimAll_cons_cons :
    claimAll side (fv :: fvs) (pv :: chosen) = claimAll (claim side fv pv) fvs chosen := rfl

@[simp] theorem claimAll_nil_left : claimAll side [] chosen = side := rfl

@[simp] theorem claimAll_nil_right : claimAll side fvs [] = side := by
  cases fvs <;> rfl

@[simp] theorem size_claimAll : (claimAll side fvs chosen).size = side.size := by
  induction fvs generalizing side chosen with
  | nil => rfl
  | cons fv fvs ih =>
    cases chosen with
    | nil => rfl
    | cons pv chosen => rw [claimAll_cons_cons, ih, size_claim]

/-- Claims never take a filled slot. -/
theorem claimAll_keeps (h : side.getD u none = some q) :
    (claimAll side fvs chosen).getD u none = some q := by
  induction fvs generalizing side chosen with
  | nil => exact h
  | cons fv fvs ih =>
    cases chosen with
    | nil => exact h
    | cons pv chosen => exact ih (claim_keeps h)

/-- What a run of claims records for a vertex was there before or is one of
the choices made for it. -/
theorem getD_claimAll_eq_some (h : (claimAll side fvs chosen).getD u none = some q) :
    side.getD u none = some q ∨ (u, q) ∈ fvs.zip chosen := by
  induction fvs generalizing side chosen with
  | nil => exact .inl h
  | cons fv fvs ih =>
    cases chosen with
    | nil => exact .inl h
    | cons pv chosen =>
      rw [List.zip_cons_cons, List.mem_cons]
      rcases ih h with h | h
      · rcases getD_claim_eq_some h with h | ⟨rfl, rfl⟩
        · exact .inl h
        · exact .inr (.inl rfl)
      · exact .inr (.inr h)

theorem isSome_claimAll_of_isSome (h : (side.getD u none).isSome) :
    ((claimAll side fvs chosen).getD u none).isSome := by
  obtain ⟨q, hq⟩ := Option.isSome_iff_exists.1 h
  rw [claimAll_keeps hq]
  rfl

/-- A run of claims leaves a choice, made for a vertex that has a slot, in
that slot. -/
theorem isSome_claimAll (h : (u, q) ∈ fvs.zip chosen) (hu : u < side.size) :
    ((claimAll side fvs chosen).getD u none).isSome := by
  induction fvs generalizing side chosen with
  | nil => exact absurd h List.not_mem_nil
  | cons fv fvs ih =>
    cases chosen with
    | nil => exact absurd h List.not_mem_nil
    | cons pv chosen =>
      rw [List.zip_cons_cons, List.mem_cons] at h
      rw [claimAll_cons_cons]
      rcases h with h | h
      · simp only [Prod.mk.injEq] at h
        obtain ⟨rfl, rfl⟩ := h
        exact isSome_claimAll_of_isSome (isSome_claim hu)
      · exact ih h (by rwa [size_claim])

end Claims

/-! ## Enclosing elements -/

section Enclosing

variable {fvs chosen : List Nat} {P : SimplexMesh} {incident cand : Array (List Nat)} {c fv pv : Nat}

/-- An enclosing element chooses, for each facet vertex, one of its own
vertices among the matches of that facet vertex. -/
theorem mem_enclosingElements (h : (c, chosen) ∈ enclosingElements fvs P incident cand) :
    ∃ pvs, P.elementVertices? c = some pvs ∧
      List.Forall₂ (fun fv pv => pv ∈ pvs ∧ pv ∈ cand.getD fv []) fvs chosen := by
  unfold enclosingElements at h
  split at h
  · exact absurd h List.not_mem_nil
  · obtain ⟨candidate, -, hc⟩ := List.mem_filterMap.1 h
    obtain ⟨pvs, hpvs, hc⟩ := Option.bind_eq_some_iff.1 hc
    obtain ⟨ch, hch, hc⟩ := Option.bind_eq_some_iff.1 hc
    cases hc
    refine ⟨pvs, hpvs, (forall₂_of_mapM_eq_some hch).imp fun fv pv hpv => ?_⟩
    exact ⟨List.mem_of_find?_eq_some hpv, by simpa using List.find?_some hpv⟩

theorem choice_mem_matches (h : (c, chosen) ∈ enclosingElements fvs P incident cand)
    (hz : (fv, pv) ∈ fvs.zip chosen) : pv ∈ cand.getD fv [] := by
  obtain ⟨pvs, -, h⟩ := mem_enclosingElements h
  exact ((List.forall₂_iff_zip.1 h).2 hz).2

end Enclosing

/-! ## The sides of a facet -/

/-- Every parent vertex that `side` records for a facet vertex is one of its
matches. -/
def Matched (cand : Array (List Nat)) (side : Array (Option Nat)) : Prop :=
  ∀ v pv, side.getD v none = some pv → pv ∈ cand.getD v []

/-- The parent element `c` encloses the facet element `e`, lies on side `s`
of it (in front for `true`), and chooses `pv` for its vertex `fv`. -/
def SideChoice (d : Nat) (F P : SimplexMesh) (cand : Array (List Nat)) (s : Bool) (fv pv : Nat) :
    Prop :=
  ∃ e fvs fps c chosen, F.elementVertices? e = some fvs ∧ F.elementPoints? e = some fps ∧
    (c, chosen) ∈ enclosingElements fvs P (incidence P) cand ∧ sideOf d P fps c chosen = some s ∧
      (fv, pv) ∈ fvs.zip chosen

section Sides

variable {d : Nat} {F P : SimplexMesh} {cand : Array (List Nat)}

theorem Matched.claimAll {side : Array (Option Nat)} {fvs chosen : List Nat} (h : Matched cand side)
    (hc : ∀ fv pv, (fv, pv) ∈ fvs.zip chosen → pv ∈ cand.getD fv []) :
    Matched cand (claimAll side fvs chosen) := fun v pv hv =>
  (getD_claimAll_eq_some hv).elim (h v pv) (hc v pv)

theorem getD_replicate_none {n v : Nat} : (Array.replicate n (none : Option Nat)).getD v none = none := by
  rw [Array.getD_eq_getD_getElem?, Array.getElem?_replicate]
  split <;> rfl

theorem matched_replicate (n : Nat) : Matched cand (Array.replicate n none) := fun v pv h => by
  rw [getD_replicate_none] at h
  cases h

theorem boundarySide_matched : Matched cand (boundarySide F P cand) := by
  unfold boundarySide
  rw [← Array.foldl_toList]
  refine foldl_invariant (fun side fvs _ hs => ?_) (matched_replicate _)
  split
  · rename_i c chosen rest heq
    exact hs.claimAll fun fv pv hz => choice_mem_matches (heq ▸ List.mem_cons_self) hz
  · exact hs

theorem SideChoice.matched {s : Bool} {fv pv : Nat} (h : SideChoice d F P cand s fv pv) :
    pv ∈ cand.getD fv [] := by
  obtain ⟨e, fvs, fps, c, chosen, -, -, hc, -, hz⟩ := h
  exact choice_mem_matches hc hz

/-- What the scan of the facet elements keeps: each side has a slot per
facet vertex, and records only choices of enclosing elements on that side. -/
structure SidesInv (d : Nat) (F P : SimplexMesh) (cand : Array (List Nat))
    (fb : Array (Option Nat) × Array (Option Nat)) : Prop where
  size_front : fb.1.size = F.nbVertices
  size_back : fb.2.size = F.nbVertices
  choice : ∀ s fv pv, (cond s fb.1 fb.2).getD fv none = some pv → SideChoice d F P cand s fv pv

theorem sidesInv_unset : SidesInv d F P cand (Array.replicate F.nbVertices none, Array.replicate F.nbVertices none) :=
  ⟨Array.size_replicate, Array.size_replicate, fun s fv pv h => by
    cases s <;> simp only [cond_true, cond_false, getD_replicate_none, reduceCtorEq] at h⟩

section Step

variable {fb : Array (Option Nat) × Array (Option Nat)} {e : Nat} {fvs : List Nat} {fps : List Point}

/-- Recording an enclosing element's choices on its side keeps the slots and
records only its choices there. -/
theorem SidesInv.claimSide (h : SidesInv d F P cand fb) (hfvs : F.elementVertices? e = some fvs)
    (hfps : F.elementPoints? e = some fps) {c : Nat} {chosen : List Nat}
    (hc : (c, chosen) ∈ enclosingElements fvs P (incidence P) cand) :
    SidesInv d F P cand (claimSide d P fvs fps fb (c, chosen)) := by
  unfold Stratigraphy.claimSide
  -- a choice recorded on side `s` was there before or is this element's, which lies on `s`
  have hnew : ∀ s, sideOf d P fps c chosen = some s → ∀ side : Array (Option Nat), ∀ fv pv,
      (claimAll side fvs chosen).getD fv none = some pv →
        side.getD fv none = some pv ∨ SideChoice d F P cand s fv pv := fun s hs side fv pv hv =>
    (getD_claimAll_eq_some hv).imp_right fun hz => ⟨e, fvs, fps, c, chosen, hfvs, hfps, hc, hs, hz⟩
  split
  · rename_i hs
    refine ⟨by rw [size_claimAll, h.size_front], h.size_back, fun s fv pv hv => ?_⟩
    cases s with
    | true => exact (hnew true hs _ fv pv hv).elim (h.choice true fv pv) id
    | false => exact h.choice false fv pv hv
  · rename_i hs
    refine ⟨h.size_front, by rw [size_claimAll, h.size_back], fun s fv pv hv => ?_⟩
    cases s with
    | true => exact h.choice true fv pv hv
    | false => exact (hnew false hs _ fv pv hv).elim (h.choice false fv pv) id
  · exact h

theorem SidesInv.claimSides (h : SidesInv d F P cand fb) :
    SidesInv d F P cand (claimSides d F P (incidence P) cand fb e) := by
  unfold Stratigraphy.claimSides
  split
  · rename_i fvs fps hfvs hfps
    exact foldl_invariant (fun fb cc hcc hfb => hfb.claimSide hfvs hfps hcc) h
  · exact h

/-- The slot of the facet vertex `fv` on side `s` is filled. -/
def Filled (s : Bool) (fv : Nat) (fb : Array (Option Nat) × Array (Option Nat)) : Prop :=
  ((cond s fb.1 fb.2).getD fv none).isSome

theorem Filled.claimSide {s : Bool} {fv : Nat} (h : Filled s fv fb) {cc : Nat × List Nat} :
    Filled s fv (claimSide d P fvs fps fb cc) := by
  unfold Stratigraphy.claimSide
  split <;> cases s <;> simp only [Filled, cond_true, cond_false] at h ⊢ <;>
    first | exact h | exact isSome_claimAll_of_isSome h

theorem Filled.claimSides {s : Bool} {fv : Nat} (h : Filled s fv fb) :
    Filled s fv (claimSides d F P (incidence P) cand fb e) := by
  unfold Stratigraphy.claimSides
  split
  · exact @foldl_invariant _ _ _ _ (Filled s fv) (fun _ _ _ hfb => hfb.claimSide) _ h
  · exact h

end Step

/-- The sides of an internal facet record only choices of enclosing
elements on that side. -/
theorem sidesInv_sides : SidesInv d F P cand (sides d F P cand) :=
  foldl_invariant (fun _ _ _ hfb => hfb.claimSides) sidesInv_unset

/-- A facet vertex for which an enclosing element on side `s` chooses gets a
parent vertex on that side. -/
theorem filled_sides {s : Bool} {fv pv : Nat} (hfv : fv < F.nbVertices)
    (h : SideChoice d F P cand s fv pv) : Filled s fv (sides d F P cand) := by
  obtain ⟨e, fvs, fps, c, chosen, hfvs, hfps, hc, hs, hz⟩ := h
  have he : e ∈ List.range F.nbElements :=
    List.mem_range.2 (Array.getElem?_eq_some_iff.1 hfvs).1
  refine @foldl_of_mem _ _ _ _ (SidesInv d F P cand) (Filled s fv) (fun _ _ _ hfb => hfb.claimSides)
    (fun _ _ _ _ hq => hq.claimSides) e he (fun fb hfb => ?_) _ sidesInv_unset
  -- the step of element `e` reaches the enclosing element `c`, which fills the slot
  unfold Stratigraphy.claimSides
  rw [hfvs, hfps]
  refine @foldl_of_mem _ _ _ _ (SidesInv d F P cand) (Filled s fv)
    (fun _ _ hcc hfb => hfb.claimSide hfvs hfps hcc) (fun _ _ _ _ hq => hq.claimSide) (c, chosen) hc
    (fun fb hfb => ?_) _ hfb
  unfold Stratigraphy.claimSide
  rw [hs]
  cases s with
  | true => exact isSome_claimAll hz (by rw [hfb.size_front]; exact hfv)
  | false => exact isSome_claimAll hz (by rw [hfb.size_back]; exact hfv)

end Sides

/-! ## The parent vertex of each facet vertex -/

section Pick

variable {cand : Array (List Nat)} {n v pv : Nat} {first second : Array (Option Nat)}

@[simp] theorem length_pickVertices : (pickVertices cand n first second).length = n := by
  simp [pickVertices]

theorem getElem?_pickVertices : (pickVertices cand n first second)[v]? =
    if v < n then some (((first.getD v none).or (second.getD v none)).or (cand.getD v []).head?)
    else none := by
  unfold pickVertices
  rw [List.getElem?_map]
  split
  · rename_i hv
    rw [List.getElem?_range hv]
    simp
  · rw [List.getElem?_eq_none (by simpa using Nat.le_of_not_lt ‹_›)]
    rfl

theorem Matched.eq_none {side : Array (Option Nat)} (h : Matched cand side) (hv : cand.getD v [] = []) :
    side.getD v none = none := by
  cases hs : side.getD v none with
  | none => rfl
  | some pv => exact absurd (h v pv hs) (by rw [hv]; exact List.not_mem_nil)

theorem mem_of_pickVertices (hf : Matched cand first) (hs : Matched cand second)
    (h : (pickVertices cand n first second)[v]? = some (some pv)) : pv ∈ cand.getD v [] := by
  rw [getElem?_pickVertices] at h
  split at h
  · simp only [Option.some.injEq, Option.or_eq_some_iff] at h
    rcases h with (h | ⟨-, h⟩) | ⟨-, h⟩
    · exact hf v pv h
    · exact hs v pv h
    · obtain ⟨rest, hrest⟩ := List.head?_eq_some_iff.1 h
      rw [hrest]
      exact List.mem_cons_self
  · cases h

theorem pickVertices_eq_none_iff (hf : Matched cand first) (hs : Matched cand second) (hv : v < n) :
    (pickVertices cand n first second)[v]? = some none ↔ cand.getD v [] = [] := by
  rw [getElem?_pickVertices, if_pos hv, Option.some.injEq, Option.or_eq_none_iff,
    Option.or_eq_none_iff, List.head?_eq_none_iff]
  exact ⟨fun h => h.2, fun h => ⟨⟨hf.eq_none h, hs.eq_none h⟩, h⟩⟩

theorem pickVertices_of_single (hf : Matched cand first) (hs : Matched cand second) (hv : v < n)
    (h : cand.getD v [] = [pv]) : (pickVertices cand n first second)[v]? = some (some pv) := by
  -- whatever a side records for the vertex is that match
  have hside : ∀ side, Matched cand side → side.getD v none = none ∨ side.getD v none = some pv := by
    intro side hm
    cases hx : side.getD v none with
    | none => exact .inl rfl
    | some q =>
      have hq := hm v q hx
      rw [h, List.mem_singleton] at hq
      exact .inr (hq ▸ rfl)
  rw [getElem?_pickVertices, if_pos hv, h]
  rcases hside first hf with h1 | h1 <;> rcases hside second hs with h2 | h2 <;> simp [h1, h2]

/-- A facet vertex takes the parent vertex chosen on the first side when
there is one. -/
theorem pickVertices_of_first (h : first.getD v none = some pv) (hv : v < n) :
    (pickVertices cand n first second)[v]? = some (some pv) := by
  rw [getElem?_pickVertices, if_pos hv, h]
  rfl

end Pick

/-! ## The choices for each mesh of a facet -/

section Choices

variable {d : Nat} {F P : SimplexMesh} {t : Float} {b : Bool}

theorem length_facetChoices : (facetChoices d F P t b).length = if b then 1 else 2 := by
  cases b <;> rfl

theorem facetChoices_false : facetChoices d F P t false =
    [pickVertices (coincidentVertices F.points P.coordinates t) F.nbVertices
        (sides d F P (coincidentVertices F.points P.coordinates t)).1
        (sides d F P (coincidentVertices F.points P.coordinates t)).2,
      pickVertices (coincidentVertices F.points P.coordinates t) F.nbVertices
        (sides d F P (coincidentVertices F.points P.coordinates t)).2
        (sides d F P (coincidentVertices F.points P.coordinates t)).1] := rfl

theorem matched_sides (s : Bool) :
    Matched (coincidentVertices F.points P.coordinates t)
      (cond s (sides d F P (coincidentVertices F.points P.coordinates t)).1
        (sides d F P (coincidentVertices F.points P.coordinates t)).2) := fun v pv hv =>
  (sidesInv_sides.choice s v pv hv).matched

/-- Each list of choices takes, vertex by vertex, a match recorded on one
side, else one recorded on the other, else the nearest match. -/
theorem eq_pick_of_mem_facetChoices {vs : List (Option Nat)} (h : vs ∈ facetChoices d F P t b) :
    ∃ first second, Matched (coincidentVertices F.points P.coordinates t) first ∧
      Matched (coincidentVertices F.points P.coordinates t) second ∧
        vs = pickVertices (coincidentVertices F.points P.coordinates t) F.nbVertices first second := by
  cases b with
  | true =>
    rw [List.mem_singleton.1 h]
    exact ⟨_, _, boundarySide_matched, boundarySide_matched, rfl⟩
  | false =>
    rw [facetChoices_false] at h
    rcases List.mem_pair.1 h with rfl | rfl
    · exact ⟨_, _, matched_sides true, matched_sides false, rfl⟩
    · exact ⟨_, _, matched_sides false, matched_sides true, rfl⟩

theorem exists_facetChoices_eq_cons : ∃ vs rest, facetChoices d F P t b = vs :: rest := by
  cases b
  · exact ⟨_, _, rfl⟩
  · exact ⟨_, _, rfl⟩

end Choices

/-! ## What a facet mesh in stratigraphic space is -/

/-- The parent vertex `pv` lies within `t` of the facet vertex `v`, as the
distance is computed. -/
def Near (F P : SimplexMesh) (t : Float) (v pv : Nat) : Prop :=
  ∃ p q, F.point? v = some p ∧ P.point? pv = some q ∧ Point.distance p q ≤ t

theorem near_of_mem_matches {F P : SimplexMesh} {t : Float} {v pv : Nat}
    (h : pv ∈ (coincidentVertices F.points P.coordinates t).getD v []) : Near F P t v pv := by
  obtain ⟨hv, hpv, hle⟩ := near_of_mem_coincidentVertices h
  have hv' : v < F.coordinates.size := by simpa [SimplexMesh.points] using hv
  refine ⟨_, _, ?_, ?_, hle⟩
  · simp [SimplexMesh.point?, SimplexMesh.points, Array.getElem?_eq_getElem hv']
  · simp [SimplexMesh.point?, Array.getElem?_eq_getElem hpv]

/-- `mesh` is the facet `F` with each vertex moved to the stratigraphic
point of one of its matches among the vertices of the parent mesh `P`. -/
structure Placed (d : Nat) (parent : Uuid) (P F : SimplexMesh) (t : Float) (mesh : SimplexMesh) :
    Prop where
  kind : mesh.kind = F.kind
  elements : mesh.elements = F.elements
  attributes : mesh.attributes = F.attributes
  nbVertices : mesh.nbVertices = F.nbVertices
  vertex : ∀ v < F.nbVertices, ∃ pv c, pv ∈ (coincidentVertices F.points P.coordinates t).getD v [] ∧
    Near F P t v pv ∧ vertexCoordinates d parent P pv = .ok c ∧ mesh.coordinates[v]? = some c

/-- The facet vertex `v` has a match, and every match of it has a
stratigraphic point. -/
def Resolvable (d : Nat) (parent : Uuid) (P F : SimplexMesh) (t : Float) (v : Nat) : Prop :=
  (coincidentVertices F.points P.coordinates t).getD v [] ≠ [] ∧
    ∀ pv ∈ (coincidentVertices F.points P.coordinates t).getD v [],
      ∃ c, vertexCoordinates d parent P pv = .ok c

end Stratigraphy

/-! ## Rebuilding a facet -/

namespace Model

open Stratigraphy

variable {m : Model} {parent item : Uuid} {P : SimplexMesh} {vs : List (Option Nat)}

/-- Reading the stratigraphic point of a vertex fails on a missing
attribute, or on a location of the wrong length. -/
theorem vertexCoordinates_eq_error {d v : Nat} {e : Error} (h : vertexCoordinates d parent P v = .error e) :
    (∃ key, e = .mapping (.missingAttribute parent v key)) ∨
      ∃ location, MeshMapping.WrongLocation d P v location ∧
        e = .mapping (.attributeDimension locationKey (d - 1) location.length) := by
  unfold vertexCoordinates at h
  cases hc : Stratigraphy.stratigraphicCoordinates d parent P v with
  | ok c =>
    rw [hc] at h
    cases h
  | error me =>
    rw [hc] at h
    have he : e = .mapping me := (Except.error.inj h).symm
    subst he
    rcases MeshMapping.stratigraphicCoordinates_eq_error hc with ⟨key, rfl⟩ | ⟨loc, hloc, rfl⟩
    · exact .inl ⟨key, rfl⟩
    · exact .inr ⟨loc, hloc, rfl⟩

/-- A rebuilt facet is the facet's mesh with each vertex at the stratigraphic
point of the parent vertex chosen for it. -/
theorem rebuildFacet_eq_ok {mesh : SimplexMesh} (h : m.rebuildFacet parent item P vs = .ok mesh) :
    ∃ F, m.mesh item = .ok F ∧ vs.length = F.nbVertices ∧ mesh.kind = F.kind ∧
      mesh.elements = F.elements ∧ mesh.attributes = F.attributes ∧ mesh.nbVertices = F.nbVertices ∧
      ∀ v < vs.length, ∃ pv c, vs[v]? = some (some pv) ∧
        vertexCoordinates m.dim parent P pv = .ok c ∧ mesh.coordinates[v]? = some c := by
  unfold rebuildFacet at h
  obtain ⟨pts, hpts, h⟩ := except_bind_eq_ok.1 h
  obtain ⟨F, hF, h⟩ := except_bind_eq_ok.1 h
  unfold SimplexMesh.withCoordinates at h
  split at h
  · cases h
  · rename_i hsize
    cases h
    have h2 := forall₂_of_mapM_eq_ok hpts
    have hlen : pts.length = vs.length := by rw [← h2.length_eq, List.length_zipIdx]
    have hn : vs.length = F.nbVertices := by simpa [hlen] using hsize
    refine ⟨F, hF, hn, rfl, rfl, rfl, by simp [SimplexMesh.nbVertices, hlen, hn], fun v hv => ?_⟩
    have hv' : v < pts.length := hlen ▸ hv
    have hg := (List.forall₂_iff_get.1 h2).2 v (by simpa using hv) hv'
    simp only [List.get_eq_getElem, List.getElem_zipIdx, Nat.zero_add] at hg
    cases hvs : vs[v] with
    | none =>
      rw [hvs] at hg
      cases hg
    | some pv =>
      rw [hvs] at hg
      exact ⟨pv, pts[v], by rw [List.getElem?_eq_getElem hv, hvs], hg, by simp [hv']⟩

/-- The vertices of a facet are read in order: those before `v`, then `v`,
then the rest. -/
theorem zipIdx_eq_split {α : Type} {l : List α} {v : Nat} {a : α} (h : l[v]? = some a) :
    l.zipIdx = (l.take v).zipIdx ++ (a, v) :: (l.drop (v + 1)).zipIdx (v + 1) := by
  obtain ⟨hv, hget⟩ := List.getElem?_eq_some_iff.1 h
  conv_lhs => rw [← List.take_append_drop v l]
  rw [List.zipIdx_append, List.drop_eq_getElem_cons hv, List.zipIdx_cons, hget,
    List.length_take_of_le (Nat.le_of_lt hv), Nat.zero_add]

theorem resolved_of_mem_zipIdx_take {v : Nat} {x : Option Nat × Nat}
    (hpre : ∀ u < v, ∃ pv c, vs[u]? = some (some pv) ∧ vertexCoordinates m.dim parent P pv = .ok c)
    (hx : x ∈ (vs.take v).zipIdx) : ∃ pv c, x.1 = some pv ∧ vertexCoordinates m.dim parent P pv = .ok c := by
  have hu := List.mem_zipIdx_iff_getElem?.1 hx
  rw [List.getElem?_take] at hu
  split at hu
  · rename_i huv
    obtain ⟨pv, c, hpv, hc⟩ := hpre x.2 huv
    rw [hpv, Option.some.injEq] at hu
    exact ⟨pv, c, hu.symm, hc⟩
  · cases hu

/-- A rebuilt facet fails at its first vertex without a parent vertex when
the parent vertices of the vertices before it have stratigraphic points. -/
theorem rebuildFacet_eq_error_of_unmatched {v : Nat} (hv : vs[v]? = some none)
    (hpre : ∀ u < v, ∃ pv c, vs[u]? = some (some pv) ∧ vertexCoordinates m.dim parent P pv = .ok c) :
    m.rebuildFacet parent item P vs = .error (.mapping (.invalidTopology
      s!"vertex {v} of item {item.toText} matches no vertex of {parent.toText}")) := by
  unfold rebuildFacet
  rw [zipIdx_eq_split hv]
  refine except_bind_eq_error.2 (.inl (mapM_append_cons_eq_error (by rfl) _ fun x hx => ?_))
  obtain ⟨pv, c, hx1, hc⟩ := resolved_of_mem_zipIdx_take hpre hx
  obtain ⟨o, u⟩ := x
  cases hx1
  exact ⟨c, hc⟩

/-- A rebuilt facet fails with the failure of the stratigraphic point of
the parent vertex of its first vertex, when the vertices before it have
theirs. -/
theorem rebuildFacet_eq_error_of_point {v pv : Nat} {e : Error} (hv : vs[v]? = some (some pv))
    (he : vertexCoordinates m.dim parent P pv = .error e)
    (hpre : ∀ u < v, ∃ pv c, vs[u]? = some (some pv) ∧ vertexCoordinates m.dim parent P pv = .ok c) :
    m.rebuildFacet parent item P vs = .error e := by
  unfold rebuildFacet
  rw [zipIdx_eq_split hv]
  refine except_bind_eq_error.2 (.inl (mapM_append_cons_eq_error (by exact he) _ fun x hx => ?_))
  obtain ⟨pv, c, hx1, hc⟩ := resolved_of_mem_zipIdx_take hpre hx
  obtain ⟨o, u⟩ := x
  cases hx1
  exact ⟨c, hc⟩

/-- A facet whose rebuilding fails does so on the mesh of the facet, on a
vertex without a parent vertex or with the wrong number of vertices, or on the
stratigraphic point of a parent vertex. -/
theorem rebuildFacet_eq_error {e : Error} (h : m.rebuildFacet parent item P vs = .error e) :
    m.mesh item = .error e ∨ (none ∈ vs ∧ ∃ s, e = .mapping (.invalidTopology s)) ∨
      (∃ F, m.mesh item = .ok F ∧ vs.length ≠ F.nbVertices) ∨
      ∃ pv, some pv ∈ vs ∧ vertexCoordinates m.dim parent P pv = .error e := by
  unfold rebuildFacet at h
  rcases except_bind_eq_error.1 h with h | ⟨pts, hpts, h⟩
  · obtain ⟨⟨o, u⟩, hx, he⟩ := mapM_except_eq_error h
    obtain ⟨hu, hou⟩ := List.mem_zipIdx' hx
    have ho : o ∈ vs := hou ▸ List.getElem_mem hu
    cases o with
    | none => exact .inr (.inl ⟨ho, _, (Except.error.inj he).symm⟩)
    | some pv => exact .inr (.inr (.inr ⟨pv, ho, he⟩))
  · rcases except_bind_eq_error.1 h with h | ⟨F, hF, h⟩
    · exact .inl h
    · unfold SimplexMesh.withCoordinates at h
      split at h
      · rename_i hne
        have hlen : pts.length = vs.length := by
          rw [← (forall₂_of_mapM_eq_ok hpts).length_eq, List.length_zipIdx]
        exact .inr (.inr (.inl ⟨F, hF, by simpa [hlen] using hne⟩))
      · cases h

/-- A facet whose every vertex has a parent vertex with a stratigraphic
point is rebuilt. -/
theorem rebuildFacet_ok {F : SimplexMesh} (hF : m.mesh item = .ok F) (hn : vs.length = F.nbVertices)
    (h : ∀ v < vs.length, ∃ pv c, vs[v]? = some (some pv) ∧ vertexCoordinates m.dim parent P pv = .ok c) :
    ∃ mesh, m.rebuildFacet parent item P vs = .ok mesh := by
  cases hr : m.rebuildFacet parent item P vs with
  | ok mesh => exact ⟨mesh, rfl⟩
  | error e =>
    -- each way of failing contradicts one hypothesis
    exfalso
    rcases rebuildFacet_eq_error hr with hm | ⟨hnone, -⟩ | ⟨F', hF', hne⟩ | ⟨pv, hpv, he⟩
    · rw [hF] at hm
      cases hm
    · obtain ⟨v, hv, hvn⟩ := List.getElem_of_mem hnone
      obtain ⟨pv, c, hpv, -⟩ := h v hv
      rw [List.getElem?_eq_getElem hv, hvn] at hpv
      cases hpv
    · rw [hF] at hF'
      cases hF'
      exact hne hn
    · obtain ⟨v, hv, hvp⟩ := List.getElem_of_mem hpv
      obtain ⟨pv', c, hpv', hc⟩ := h v hv
      rw [List.getElem?_eq_getElem hv, hvp, Option.some.injEq, Option.some.injEq] at hpv'
      subst hpv'
      rw [hc] at he
      cases he

/-! ## Looking up the meshes -/

section Lookup

variable {id : Uuid} {k : ComponentKind} {e : Error} {F : SimplexMesh}

theorem componentOfKind_eq_error {c : Error} (h : m.componentOfKind id k = .error c) :
    ∃ ce, c = .component ce := by
  unfold componentOfKind Catalog.getOfKind at h
  split at h
  · exact ⟨_, (Except.error.inj h).symm⟩
  · split at h
    · cases h
    · exact ⟨_, (Except.error.inj h).symm⟩

theorem mesh_eq_error (h : m.mesh id = .error e) : ∃ ce, e = .component ce := by
  unfold Model.mesh at h
  split at h
  · cases h
  · exact ⟨_, (Except.error.inj h).symm⟩

/-- Looking up the mesh of a component of a given kind fails only on the
component. -/
theorem componentMesh_eq_error (h : (m.componentOfKind id k >>= fun _ => m.mesh id) = .error e) :
    ∃ ce, e = .component ce := by
  rcases except_bind_eq_error.1 h with h | ⟨_, -, h⟩
  · exact componentOfKind_eq_error h
  · exact mesh_eq_error h

theorem cellMesh_eq_error (h : m.cellMesh id = .error e) : ∃ ce, e = .component ce :=
  componentMesh_eq_error h

theorem facetMesh_eq_error (h : m.facetMesh id = .error e) : ∃ ce, e = .component ce :=
  componentMesh_eq_error h

theorem mesh_of_facetMesh (h : m.facetMesh id = .ok F) : m.mesh id = .ok F := by
  unfold facetMesh at h
  obtain ⟨_, -, h⟩ := except_bind_eq_ok.1 h
  exact h

end Lookup

/-! ## The meshes of a facet in stratigraphic space -/

section ItemMeshes

variable {t : Float} {P F : SimplexMesh}

theorem stratigraphicItemMeshes_of_unrelated
    (h : (m.isBoundary item parent || m.isInternal item parent) = false) :
    m.stratigraphicItemMeshes parent item t = .error (.mapping (.notBoundaryNorInternal item parent)) := by
  obtain ⟨hb, hi⟩ := Bool.or_eq_false_iff.1 h
  unfold stratigraphicItemMeshes
  rw [if_pos (by simp [hb, hi])]
  rfl

/-- Anything the facet meshes give but the refusal comes from a facet that
bounds or lies inside the cell. -/
theorem related_of_ne_refusal {r : Except Error (List SimplexMesh)}
    (h : m.stratigraphicItemMeshes parent item t = r)
    (hr : r ≠ .error (.mapping (.notBoundaryNorInternal item parent))) :
    (m.isBoundary item parent || m.isInternal item parent) = true := by
  cases hbi : (m.isBoundary item parent || m.isInternal item parent) with
  | false => exact absurd (h ▸ stratigraphicItemMeshes_of_unrelated hbi) hr
  | true => rfl

/-- A facet that bounds or lies inside the cell is rebuilt once for each
list of choices, from the parent and facet meshes. -/
theorem stratigraphicItemMeshes_of_related
    (hbi : (m.isBoundary item parent || m.isInternal item parent) = true) :
    m.stratigraphicItemMeshes parent item t = m.cellMesh parent >>= fun P => m.facetMesh item >>= fun F =>
      (facetChoices m.dim F P t (m.isBoundary item parent)).mapM (m.rebuildFacet parent item P) := by
  unfold stratigraphicItemMeshes
  have hguard : ¬(!m.isBoundary item parent && !m.isInternal item parent) = true := by
    cases hb : m.isBoundary item parent <;> cases hi : m.isInternal item parent <;> simp_all
  rw [if_neg hguard]

theorem stratigraphicItemMeshes_of_meshes
    (hbi : (m.isBoundary item parent || m.isInternal item parent) = true)
    (hP : m.cellMesh parent = .ok P) (hF : m.facetMesh item = .ok F) :
    m.stratigraphicItemMeshes parent item t =
      (facetChoices m.dim F P t (m.isBoundary item parent)).mapM (m.rebuildFacet parent item P) := by
  rw [stratigraphicItemMeshes_of_related hbi, except_bind_of_eq_ok hP, except_bind_of_eq_ok hF]

/-- A facet rebuilt from a list of choices that fails on the topology has a
vertex without a match. -/
theorem exists_unmatched_of_rebuildFacet {b : Bool} {vs : List (Option Nat)} {e : Error}
    (hF : m.facetMesh item = .ok F) (hvs : vs ∈ facetChoices m.dim F P t b)
    (h : m.rebuildFacet parent item P vs = .error e) :
    (∃ v < F.nbVertices, (coincidentVertices F.points P.coordinates t).getD v [] = [] ∧
      ∃ s, e = .mapping (.invalidTopology s)) ∨
      ∃ pv, vertexCoordinates m.dim parent P pv = .error e := by
  obtain ⟨first, second, hfirst, hsecond, rfl⟩ := eq_pick_of_mem_facetChoices hvs
  rcases rebuildFacet_eq_error h with hm | ⟨hnone, hs⟩ | ⟨F', hF', hne⟩ | ⟨pv, -, he⟩
  · rw [mesh_of_facetMesh hF] at hm
    cases hm
  · obtain ⟨v, hv, hvn⟩ := List.getElem_of_mem hnone
    rw [length_pickVertices] at hv
    have hpick : (pickVertices (coincidentVertices F.points P.coordinates t) F.nbVertices first
        second)[v]? = some none := by
      rw [List.getElem?_eq_getElem (by simpa using hv), hvn]
    exact .inl ⟨v, hv, (pickVertices_eq_none_iff hfirst hsecond hv).1 hpick, hs⟩
  · rw [mesh_of_facetMesh hF] at hF'
    cases hF'
    exact absurd length_pickVertices hne
  · exact .inr ⟨pv, he⟩

/-- A facet that bounds or lies inside the cell fails on a lookup of a
component, on a vertex without a match, or on the stratigraphic point of a
parent vertex. -/
theorem stratigraphicItemMeshes_eq_error
    (hbi : (m.isBoundary item parent || m.isInternal item parent) = true) {e : Error}
    (h : m.stratigraphicItemMeshes parent item t = .error e) :
    (∃ ce, e = .component ce) ∨ ∃ P F, m.cellMesh parent = .ok P ∧ m.facetMesh item = .ok F ∧
      ((∃ v < F.nbVertices, (coincidentVertices F.points P.coordinates t).getD v [] = [] ∧
        ∃ s, e = .mapping (.invalidTopology s)) ∨
        ∃ pv, vertexCoordinates m.dim parent P pv = .error e) := by
  rw [stratigraphicItemMeshes_of_related hbi] at h
  rcases except_bind_eq_error.1 h with hP | ⟨P, hP, h⟩
  · exact .inl (cellMesh_eq_error hP)
  rcases except_bind_eq_error.1 h with hF | ⟨F, hF, h⟩
  · exact .inl (facetMesh_eq_error hF)
  obtain ⟨vs, hvs, hr⟩ := mapM_except_eq_error h
  exact .inr ⟨P, F, hP, hF, exists_unmatched_of_rebuildFacet hF hvs hr⟩

/-- The facet meshes are refused as neither a boundary nor an internal item
exactly when the facet neither bounds nor lies inside the cell. -/
theorem stratigraphicItemMeshes_eq_notBoundaryNorInternal_iff :
    m.stratigraphicItemMeshes parent item t = .error (.mapping (.notBoundaryNorInternal item parent)) ↔
      m.isBoundary item parent = false ∧ m.isInternal item parent = false := by
  refine ⟨fun h => ?_, fun h => stratigraphicItemMeshes_of_unrelated (Bool.or_eq_false_iff.2 h)⟩
  cases hbi : (m.isBoundary item parent || m.isInternal item parent) with
  | false => exact Bool.or_eq_false_iff.1 hbi
  | true =>
    -- every other failure is of another kind
    rcases stratigraphicItemMeshes_eq_error hbi h with
      ⟨ce, hce⟩ | ⟨P, F, -, -, ⟨v, -, -, s, hs⟩ | ⟨pv, hpv⟩⟩
    · cases hce
    · cases hs
    · rcases vertexCoordinates_eq_error hpv with ⟨key, hk⟩ | ⟨loc, -, hk⟩ <;> cases hk

/-- A mesh rebuilt from a list of choices is the facet placed on the
stratigraphic points of matches. -/
theorem placed_of_rebuildFacet {b : Bool} {vs : List (Option Nat)} {mesh : SimplexMesh}
    (hF : m.facetMesh item = .ok F) (hvs : vs ∈ facetChoices m.dim F P t b)
    (h : m.rebuildFacet parent item P vs = .ok mesh) : Placed m.dim parent P F t mesh := by
  obtain ⟨first, second, hfirst, hsecond, rfl⟩ := eq_pick_of_mem_facetChoices hvs
  obtain ⟨F', hF', -, hk, he, ha, hnv, hv⟩ := rebuildFacet_eq_ok h
  rw [mesh_of_facetMesh hF] at hF'
  cases hF'
  refine ⟨hk, he, ha, hnv, fun v hvn => ?_⟩
  obtain ⟨pv, c, hpv, hc, hcv⟩ := hv v (by rw [length_pickVertices]; exact hvn)
  have hmem := mem_of_pickVertices hfirst hsecond hpv
  exact ⟨pv, c, hmem, near_of_mem_matches hmem, hc, hcv⟩

/-- Facet meshes that are returned are one for a boundary and two for an
internal facet, each the facet placed on stratigraphic points of matches. -/
theorem placed_of_stratigraphicItemMeshes {ms : List SimplexMesh}
    (h : m.stratigraphicItemMeshes parent item t = .ok ms) :
    ∃ P F, m.cellMesh parent = .ok P ∧ m.facetMesh item = .ok F ∧
      ms.length = (if m.isBoundary item parent then 1 else 2) ∧ ∀ mesh ∈ ms, Placed m.dim parent P F t mesh := by
  rw [stratigraphicItemMeshes_of_related (related_of_ne_refusal h fun h' => by cases h')] at h
  obtain ⟨P, hP, h⟩ := except_bind_eq_ok.1 h
  obtain ⟨F, hF, h⟩ := except_bind_eq_ok.1 h
  have h2 := forall₂_of_mapM_eq_ok h
  refine ⟨P, F, hP, hF, by rw [← h2.length_eq, length_facetChoices], fun mesh hmesh => ?_⟩
  obtain ⟨vs, hvs, hr⟩ := exists_mem_of_forall₂ h2 mesh hmesh
  exact placed_of_rebuildFacet hF hvs hr

/-- A resolvable facet vertex gets a parent vertex with a stratigraphic
point. -/
theorem pick_of_resolvable {first second : Array (Option Nat)}
    (hfirst : Matched (coincidentVertices F.points P.coordinates t) first)
    (hsecond : Matched (coincidentVertices F.points P.coordinates t) second) {v : Nat}
    (hv : v < F.nbVertices) (h : Resolvable m.dim parent P F t v) :
    ∃ pv c, (pickVertices (coincidentVertices F.points P.coordinates t) F.nbVertices first second)[v]? =
      some (some pv) ∧ vertexCoordinates m.dim parent P pv = .ok c := by
  obtain ⟨hne, hpts⟩ := h
  have hlt : v < (pickVertices (coincidentVertices F.points P.coordinates t) F.nbVertices first
      second).length := by
    rw [length_pickVertices]
    exact hv
  cases ho : (pickVertices (coincidentVertices F.points P.coordinates t) F.nbVertices first
      second)[v] with
  | none => exact absurd ((pickVertices_eq_none_iff hfirst hsecond hv).1
      (by rw [List.getElem?_eq_getElem hlt, ho])) hne
  | some pv =>
    have hpv : (pickVertices (coincidentVertices F.points P.coordinates t) F.nbVertices first
        second)[v]? = some (some pv) := by
      rw [List.getElem?_eq_getElem hlt, ho]
    obtain ⟨c, hc⟩ := hpts pv (mem_of_pickVertices hfirst hsecond hpv)
    exact ⟨pv, c, hpv, hc⟩

/-- A facet that bounds or lies inside the cell and whose vertices are all
resolvable gives its meshes. -/
theorem stratigraphicItemMeshes_ok_of_resolvable
    (hbi : (m.isBoundary item parent || m.isInternal item parent) = true)
    (hP : m.cellMesh parent = .ok P) (hF : m.facetMesh item = .ok F)
    (h : ∀ v < F.nbVertices, Resolvable m.dim parent P F t v) :
    ∃ ms, m.stratigraphicItemMeshes parent item t = .ok ms := by
  rw [stratigraphicItemMeshes_of_meshes hbi hP hF]
  refine exists_mapM_eq_ok fun vs hvs => ?_
  obtain ⟨first, second, hfirst, hsecond, rfl⟩ := eq_pick_of_mem_facetChoices hvs
  refine rebuildFacet_ok (mesh_of_facetMesh hF) length_pickVertices fun v hv => ?_
  rw [length_pickVertices] at hv
  exact pick_of_resolvable hfirst hsecond hv (h v hv)

/-- The facet meshes fail on the topology only where a facet vertex has no
match. -/
theorem exists_unmatched_of_stratigraphicItemMeshes {s : String}
    (h : m.stratigraphicItemMeshes parent item t = .error (.mapping (.invalidTopology s))) :
    ∃ P F, m.cellMesh parent = .ok P ∧ m.facetMesh item = .ok F ∧
      ∃ v < F.nbVertices, (coincidentVertices F.points P.coordinates t).getD v [] = [] := by
  rcases stratigraphicItemMeshes_eq_error (related_of_ne_refusal h fun h' => by cases h') h with
    ⟨ce, hce⟩ | ⟨P, F, hP, hF, ⟨v, hv, hc, -⟩ | ⟨pv, hpv⟩⟩
  · cases hce
  · exact ⟨P, F, hP, hF, v, hv, hc⟩
  · rcases vertexCoordinates_eq_error hpv with ⟨key, hk⟩ | ⟨loc, -, hk⟩ <;> cases hk

/-- The facet meshes fail on the first facet vertex without a match when
every vertex before it is resolvable. -/
theorem stratigraphicItemMeshes_eq_unmatched
    (hbi : (m.isBoundary item parent || m.isInternal item parent) = true)
    (hP : m.cellMesh parent = .ok P) (hF : m.facetMesh item = .ok F) {v : Nat} (hv : v < F.nbVertices)
    (hvc : (coincidentVertices F.points P.coordinates t).getD v [] = [])
    (hpre : ∀ u < v, Resolvable m.dim parent P F t u) :
    m.stratigraphicItemMeshes parent item t = .error (.mapping (.invalidTopology
      s!"vertex {v} of item {item.toText} matches no vertex of {parent.toText}")) := by
  rw [stratigraphicItemMeshes_of_meshes hbi hP hF]
  obtain ⟨vs, rest, hcons⟩ : ∃ vs rest,
      facetChoices m.dim F P t (m.isBoundary item parent) = vs :: rest := exists_facetChoices_eq_cons
  obtain ⟨first, second, hfirst, hsecond, rfl⟩ :=
    eq_pick_of_mem_facetChoices (hcons ▸ List.mem_cons_self)
  -- the first mesh rebuilt already fails there
  rw [hcons, List.mapM_cons]
  refine except_bind_eq_error.2 (.inl (rebuildFacet_eq_error_of_unmatched ?_ fun u hu => ?_))
  · exact (pickVertices_eq_none_iff hfirst hsecond hv).2 hvc
  · exact pick_of_resolvable hfirst hsecond (Nat.lt_trans hu hv) (hpre u hu)

/-- A mesh rebuilt from choices that prefer one side has each vertex that
this side records at the stratigraphic point of the recorded parent vertex. -/
theorem coordinates_of_first_side {cand : Array (List Nat)} {n : Nat} {first second : Array (Option Nat)}
    {mesh : SimplexMesh} {fv pv : Nat}
    (h : m.rebuildFacet parent item P (pickVertices cand n first second) = .ok mesh)
    (hfv : fv < n) (hpv : first.getD fv none = some pv) :
    ∃ c, vertexCoordinates m.dim parent P pv = .ok c ∧ mesh.coordinates[fv]? = some c := by
  obtain ⟨-, -, -, -, -, -, -, hv⟩ := rebuildFacet_eq_ok h
  obtain ⟨q, c, hq, hqc, hcv⟩ := hv fv (by rw [length_pickVertices]; exact hfv)
  rw [pickVertices_of_first hpv hfv, Option.some.injEq, Option.some.injEq] at hq
  subst hq
  exact ⟨c, hqc, hcv⟩

/-- On an internal facet, a vertex for which an enclosing element on side
`s` chooses takes its position on that side from such a choice. -/
theorem sides_of_stratigraphicItemMeshes (hb : m.isBoundary item parent = false)
    (hP : m.cellMesh parent = .ok P) (hF : m.facetMesh item = .ok F) {front back : SimplexMesh}
    (h : m.stratigraphicItemMeshes parent item t = .ok [front, back]) {s : Bool} {fv pv : Nat}
    (hfv : fv < F.nbVertices) (hc : SideChoice m.dim F P (coincidentVertices F.points P.coordinates t) s fv pv) :
    ∃ pv' c, SideChoice m.dim F P (coincidentVertices F.points P.coordinates t) s fv pv' ∧
      vertexCoordinates m.dim parent P pv' = .ok c ∧ (cond s front back).coordinates[fv]? = some c := by
  have hbi := related_of_ne_refusal h fun h' => by cases h'
  set cand := coincidentVertices F.points P.coordinates t
  set S := sides m.dim F P cand
  rw [stratigraphicItemMeshes_of_meshes hbi hP hF, hb, facetChoices_false] at h
  -- the front mesh is rebuilt from the front choices, the back mesh from the back ones
  obtain ⟨hfront, hback⟩ : m.rebuildFacet parent item P (pickVertices cand F.nbVertices S.1 S.2) =
      .ok front ∧ m.rebuildFacet parent item P (pickVertices cand F.nbVertices S.2 S.1) = .ok back := by
    have h2 := forall₂_of_mapM_eq_ok h
    cases h2 with
    | cons h1 h2 =>
      cases h2 with
      | cons h3 _ => exact ⟨h1, h3⟩
  obtain ⟨pv', hpv'⟩ := Option.isSome_iff_exists.1 (filled_sides hfv hc)
  have hchoice : SideChoice m.dim F P cand s fv pv' := sidesInv_sides.choice s fv pv' hpv'
  cases s with
  | true =>
    obtain ⟨c, hc, hcv⟩ := coordinates_of_first_side hfront hfv hpv'
    exact ⟨pv', c, hchoice, hc, hcv⟩
  | false =>
    obtain ⟨c, hc, hcv⟩ := coordinates_of_first_side hback hfv hpv'
    exact ⟨pv', c, hchoice, hc, hcv⟩

/-- **Facet meshes in stratigraphic space.** They are refused as neither a
boundary nor an internal item exactly when the facet neither bounds nor lies
inside the cell. Returned meshes are one for a boundary and two for an
internal facet, each the facet with every vertex at the stratigraphic point
of a match, a parent vertex within the tolerance as the distance is
computed; they are returned whenever every facet vertex is resolvable. They
fail on the topology only where a facet vertex has no match, and at the first
such vertex when every vertex before it is resolvable. On an internal facet a
vertex that an enclosing element on one side chooses for takes its position
on that side from such a choice. -/
theorem facet_meshes_rebuilt_from_matches (m : Model) (parent item : Uuid) (t : Float) :
    (m.stratigraphicItemMeshes parent item t = .error (.mapping (.notBoundaryNorInternal item parent)) ↔
        m.isBoundary item parent = false ∧ m.isInternal item parent = false) ∧
      (∀ ms, m.stratigraphicItemMeshes parent item t = .ok ms →
        ∃ P F, m.cellMesh parent = .ok P ∧ m.facetMesh item = .ok F ∧
          ms.length = (if m.isBoundary item parent then 1 else 2) ∧
            ∀ mesh ∈ ms, Placed m.dim parent P F t mesh) ∧
      (∀ P F, (m.isBoundary item parent || m.isInternal item parent) = true →
        m.cellMesh parent = .ok P → m.facetMesh item = .ok F →
          (∀ v < F.nbVertices, Resolvable m.dim parent P F t v) →
            ∃ ms, m.stratigraphicItemMeshes parent item t = .ok ms) ∧
      (∀ s, m.stratigraphicItemMeshes parent item t = .error (.mapping (.invalidTopology s)) →
        ∃ P F, m.cellMesh parent = .ok P ∧ m.facetMesh item = .ok F ∧
          ∃ v < F.nbVertices, (coincidentVertices F.points P.coordinates t).getD v [] = []) ∧
      (∀ P F v, (m.isBoundary item parent || m.isInternal item parent) = true →
        m.cellMesh parent = .ok P → m.facetMesh item = .ok F → v < F.nbVertices →
          (coincidentVertices F.points P.coordinates t).getD v [] = [] →
            (∀ u < v, Resolvable m.dim parent P F t u) →
              m.stratigraphicItemMeshes parent item t = .error (.mapping (.invalidTopology
                s!"vertex {v} of item {item.toText} matches no vertex of {parent.toText}"))) ∧
      (∀ P F front back, m.isBoundary item parent = false → m.cellMesh parent = .ok P →
        m.facetMesh item = .ok F → m.stratigraphicItemMeshes parent item t = .ok [front, back] →
          ∀ s fv pv, fv < F.nbVertices →
            SideChoice m.dim F P (coincidentVertices F.points P.coordinates t) s fv pv →
              ∃ pv' c, SideChoice m.dim F P (coincidentVertices F.points P.coordinates t) s fv pv' ∧
                vertexCoordinates m.dim parent P pv' = .ok c ∧
                  (cond s front back).coordinates[fv]? = some c) :=
  ⟨stratigraphicItemMeshes_eq_notBoundaryNorInternal_iff,
    fun _ h => placed_of_stratigraphicItemMeshes h,
    fun _ _ hbi hP hF h => stratigraphicItemMeshes_ok_of_resolvable hbi hP hF h,
    fun _ h => exists_unmatched_of_stratigraphicItemMeshes h,
    fun _ _ _ hbi hP hF hv hvc hpre => stratigraphicItemMeshes_eq_unmatched hbi hP hF hv hvc hpre,
    fun _ _ _ _ hb hP hF h _ _ _ hfv hc => sides_of_stratigraphicItemMeshes hb hP hF h hfv hc⟩

end ItemMeshes

/-! ## A malformed match hides an unmatched vertex -/

/-- A triangle whose first vertex has a stratigraphic location of two values,
where a cross-section expects one. -/
def misreadTriangle : SimplexMesh :=
  ⟨.surface, #[#[0, 0], #[0, 1], #[1, 0]].map Point.encode, #[[0, 2, 1]],
    ⟨3, [(implicitKey, ⟨1, #[Binary64.ofFloat 0.5, .zero, .zero], #[true, false, false]⟩),
      (locationKey, ⟨2, #[Binary64.ofFloat 7, Binary64.ofFloat 8, .zero, .zero, .zero, .zero],
        #[true, false, false]⟩)]⟩⟩

/-- A segment from the first vertex of that triangle to a point far from it. -/
def strandedSegment : SimplexMesh :=
  ⟨.curve, #[#[0, 0], #[5, 5]].map Point.encode, #[[0, 1]], ⟨2, []⟩⟩

/-- A cross-section holding the triangle as its one surface. -/
def triangleSection : Model :=
  { Model.empty 2 with
    catalog := (Model.empty 2).catalog.register (Component.new (Uuid.ofNat 1) .surface)
    meshes := [(Uuid.ofNat 1, misreadTriangle)] }

/-- The cross-section where the segment, as a line, bounds the triangle. -/
def strandedSection : Model :=
  { triangleSection with
    catalog := triangleSection.catalog.register (Component.new (Uuid.ofNat 2) .line)
    boundaries := (triangleSection.boundaries.addEdge (Uuid.ofNat 1) (Uuid.ofNat 2)).2
    meshes := [(Uuid.ofNat 1, misreadTriangle), (Uuid.ofNat 2, strandedSegment)] }

theorem strandedSection_reachable : strandedSection.Reachable := by
  have hk1 : itemKindOf misreadTriangle.kind = .surface := rfl
  have hk2 : itemKindOf strandedSegment.kind = .line := rfl
  have hn1 : false = true → (Model.empty 2).catalog.contains (Uuid.ofNat 1) = false :=
    fun h => absurd h Bool.false_ne_true
  have hn2 : false = true → triangleSection.catalog.contains (Uuid.ofNat 2) = false :=
    fun h => absurd h Bool.false_ne_true
  have h1 : (Model.empty 2).addItem .surface (Uuid.ofNat 1) false misreadTriangle = .ok triangleSection :=
    rfl
  have h2 : triangleSection.addItem .line (Uuid.ofNat 2) false strandedSegment =
      .ok { triangleSection with
        catalog := triangleSection.catalog.register (Component.new (Uuid.ofNat 2) .line)
        meshes := [(Uuid.ofNat 1, misreadTriangle), (Uuid.ofNat 2, strandedSegment)] } := rfl
  have h3 : ({ triangleSection with
      catalog := triangleSection.catalog.register (Component.new (Uuid.ofNat 2) .line)
      meshes := [(Uuid.ofNat 1, misreadTriangle), (Uuid.ofNat 2, strandedSegment)] } : Model).addBoundary
        (Uuid.ofNat 2) (Uuid.ofNat 1) = .ok strandedSection := rfl
  exact (((Reachable.empty 2).step (.addItem hk1 hn1 h1)).step (.addItem hk2 hn2 h2)).step
    (.addBoundary h3)

/-- The first vertex of the segment matches only the first vertex of the
triangle, and the second matches none. -/
theorem strandedSegment_matches :
    coincidentVertices strandedSegment.points misreadTriangle.coordinates 1e-8 = #[[0], []] := by
  simp only [coincidentVertices, strandedSegment, misreadTriangle, SimplexMesh.points, List.map_toArray,
    List.map_cons, List.map_nil, List.size_toArray, List.length_cons, List.length_nil]
  -- the vertices are already in order of their first coordinate, and each vertex has one match at most
  simp (disch := decide +kernel) only [List.mergeSort_of_pairwise]
  decide +kernel

/-- In the cross-section where the segment bounds the triangle, the second
vertex of the segment lies within the tolerance of no vertex of the
triangle, yet its facet mesh does not fail on that vertex: it fails first on
the location of the triangle vertex that the first vertex matches. -/
theorem malformed_match_hides_unmatched_vertex :
    strandedSection.Reachable ∧ strandedSection.isBoundary (Uuid.ofNat 2) (Uuid.ofNat 1) = true ∧
      (∀ pv, ¬Near strandedSegment misreadTriangle 1e-8 1 pv) ∧
      strandedSection.stratigraphicItemMeshes (Uuid.ofNat 1) (Uuid.ofNat 2) 1e-8 =
        .error (.mapping (.attributeDimension locationKey 1 2)) := by
  have hb : strandedSection.isBoundary (Uuid.ofNat 2) (Uuid.ofNat 1) = true := rfl
  have hP : strandedSection.cellMesh (Uuid.ofNat 1) = .ok misreadTriangle := rfl
  have hF : strandedSection.facetMesh (Uuid.ofNat 2) = .ok strandedSegment := rfl
  refine ⟨strandedSection_reachable, hb, ?_, ?_⟩
  · rintro pv ⟨p, q, hp, hq, hle⟩
    have hp' : p = Point.ofEncoded (Point.encode #[5, 5]) := by
      simp [SimplexMesh.point?, strandedSegment] at hp
      exact hp.symm
    subst hp'
    rcases pv with _ | _ | _ | pv <;>
      simp [SimplexMesh.point?, misreadTriangle] at hq <;> subst hq <;> revert hle <;> decide +kernel
  · rw [stratigraphicItemMeshes_of_meshes (by rw [hb]; rfl) hP hF, hb]
    obtain ⟨vs, hvs⟩ : ∃ vs, facetChoices strandedSection.dim strandedSegment misreadTriangle 1e-8 true = [vs] :=
      ⟨_, rfl⟩
    obtain ⟨first, second, hfirst, hsecond, rfl⟩ := eq_pick_of_mem_facetChoices (hvs ▸ List.mem_singleton_self vs)
    rw [strandedSegment_matches] at hfirst hsecond
    have hwrong : MeshMapping.WrongLocation 2 misreadTriangle 0 [Binary64.ofFloat 7, Binary64.ofFloat 8] := by
      refine ⟨?_, ?_, ?_⟩ <;> decide +kernel
    have hpick : (pickVertices #[[0], []] strandedSegment.nbVertices first second)[0]? = some (some 0) :=
      pickVertices_of_single hfirst hsecond (by simp [SimplexMesh.nbVertices, strandedSegment]) rfl
    rw [hvs, List.mapM_cons, strandedSegment_matches]
    refine except_bind_eq_error.2 (.inl (rebuildFacet_eq_error_of_point hpick ?_ fun u hu => absurd hu (Nat.not_lt_zero u)))
    show (Stratigraphy.stratigraphicCoordinates 2 (Uuid.ofNat 1) misreadTriangle 0).mapError Error.mapping = _
    rw [MeshMapping.stratigraphicCoordinates_of_wrong hwrong]
    rfl

end Model

end Subsurface
