import Subsurface.Proofs.Stack.Steps
import Mathlib.Data.List.Chain
/-!
Stacks built from lists of names.

`ofNamesFromTop` registers one node per name, then links each node above the
next and computes top and bottom. The links it makes join a horizon and a
unit because the names alternate (`columnNames_alternates`): when the counts
of horizons and units fit, every place `columnNames` leaves for a unit holds
one. With identifiers drawn without repeats, each node is registered under
its own identifier with its own kind, so the links are well formed, and the
stack has no erosion or baselap.
-/

namespace Subsurface

namespace HorizonStack

variable {s s' : HorizonStack}

/-! ## The names of a column alternate -/

/-- The unit named at position `i`, as `columnNames` places it. -/
def unitEntry (units : List String) (i : Nat) : List (ComponentKind × String) :=
  match units[i]? with
  | some u => [(.stratigraphicUnit, u)]
  | none => []

/-- The entries `columnNames` makes for the horizons from position `i` on, of
`n` horizons in all. -/
def horizonEntries (n : Nat) (outer : Bool) (units : List String) (offset : Nat)
    (hs : List String) (i : Nat) : List (ComponentKind × String) :=
  (hs.zipIdx i).flatMap fun p =>
    (.horizon, p.1) :: (if p.2 + 1 < n || outer then unitEntry units (p.2 + offset) else [])

theorem columnNames_eq (outer : Bool) (hs us : List String) : columnNames outer hs us =
    (if outer then unitEntry us 0 else []) ++
      horizonEntries hs.length outer us (if outer then 1 else 0) hs 0 := rfl

theorem unitEntry_of_lt {us : List String} {i : Nat} (h : i < us.length) :
    unitEntry us i = [(.stratigraphicUnit, us[i])] := by
  simp [unitEntry, List.getElem?_eq_getElem h]

theorem mem_unitEntry {us : List String} {i : Nat} {p : ComponentKind × String}
    (h : p ∈ unitEntry us i) : p.1 = .stratigraphicUnit := by
  unfold unitEntry at h
  split at h
  · simp only [List.mem_singleton] at h
    rw [h]
  · cases h

section Entries

variable {n off : Nat} {outer : Bool} {us : List String}

theorem horizonEntries_cons (h : String) (hs : List String) (i : Nat) :
    horizonEntries n outer us off (h :: hs) i = (.horizon, h) ::
      ((if i + 1 < n || outer then unitEntry us (i + off) else []) ++
        horizonEntries n outer us off hs (i + 1)) := by
  simp [horizonEntries, List.zipIdx_cons]

theorem kind_of_mem_horizonEntries {hs : List String} {i : Nat} {p : ComponentKind × String}
    (hp : p ∈ horizonEntries n outer us off hs i) :
    p.1 = .horizon ∨ p.1 = .stratigraphicUnit := by
  induction hs generalizing i with
  | nil => cases hp
  | cons h hs ih =>
    rw [horizonEntries_cons] at hp
    rcases List.mem_cons.1 hp with rfl | hp
    · exact .inl rfl
    · rcases List.mem_append.1 hp with hp | hp
      · split at hp
        · exact .inr (mem_unitEntry hp)
        · cases hp
      · exact ih hp

/-- The horizon entries alternate and start with a horizon, when each unit
they leave room for is there. -/
theorem horizonEntries_isChain {hs : List String} {i : Nat}
    (hcover : ∀ j, i ≤ j → j < i + hs.length → (j + 1 < n ∨ outer = true) → j + off < us.length)
    (hn : i + hs.length ≤ n) :
    (horizonEntries n outer us off hs i).IsChain (fun p q => p.1 ≠ q.1) ∧
      ∀ p ∈ (horizonEntries n outer us off hs i).head?, p.1 = .horizon := by
  induction hs generalizing i with
  | nil => simp [horizonEntries]
  | cons h hs ih =>
    rw [horizonEntries_cons]
    refine ⟨?_, by simp⟩
    cases hs with
    | nil =>
      -- the last horizon, with the unit above it if there is one
      simp only [horizonEntries, List.zipIdx_nil, List.flatMap_nil, List.append_nil]
      split
      · unfold unitEntry
        split
        · exact List.isChain_pair.2 (by simp)
        · exact List.isChain_singleton _
      · exact List.isChain_singleton _
    | cons h' hs =>
      -- a horizon before another has its unit
      have hlt : i + 1 < n := by simp at hn; omega
      have hcov : i + off < us.length := hcover i le_rfl (by simp) (.inl hlt)
      obtain ⟨hchain, hhead⟩ := ih (i := i + 1)
          (fun j hj hjl hj' => hcover j (by omega) (by simp at hjl ⊢; omega) hj')
        (by simp at hn ⊢; omega)
      rw [if_pos (by simp [hlt]), unitEntry_of_lt hcov, List.singleton_append,
        List.isChain_cons_cons, List.isChain_cons]
      refine ⟨by simp, fun q hq => ?_, hchain⟩
      rw [hhead q hq]
      simp

end Entries

/-- What `outerUnits?` accepts: some horizons, and one unit fewer (with
horizons at both ends) or one more (with units at both ends). -/
theorem outerUnits?_eq_some {hs us : List String} {outer : Bool}
    (h : outerUnits? hs us = some outer) :
    hs ≠ [] ∧ ((outer = false ∧ us.length + 1 = hs.length) ∨
      (outer = true ∧ us.length = hs.length + 1)) := by
  unfold outerUnits? at h
  split at h
  · cases h
  · next hne =>
    refine ⟨by simpa using hne, ?_⟩
    split at h
    · exact .inl ⟨(Option.some.inj h).symm, by assumption⟩
    · split at h
      · exact .inr ⟨(Option.some.inj h).symm, by assumption⟩
      · cases h

/-- The names of a column alternate horizons and units. -/
theorem columnNames_alternates {hs us : List String} {outer : Bool}
    (h : outerUnits? hs us = some outer) :
    (columnNames outer hs us).IsChain (fun p q => p.1 ≠ q.1) ∧
      ∀ p ∈ columnNames outer hs us, p.1 = .horizon ∨ p.1 = .stratigraphicUnit := by
  obtain ⟨hne, hcount⟩ := outerUnits?_eq_some h
  rw [columnNames_eq]
  refine ⟨?_, fun p hp => ?_⟩
  · rcases hcount with ⟨rfl, hc⟩ | ⟨rfl, hc⟩
    · simp only [Bool.false_eq_true, if_false, List.nil_append]
      refine (@horizonEntries_isChain hs.length 0 false us hs 0 (fun j _ hj hj' => ?_)
        (by simp)).1
      simp only [Bool.false_eq_true, or_false] at hj'
      omega
    · obtain ⟨hchain, hhead⟩ :=
        @horizonEntries_isChain hs.length 1 true us hs 0 (fun j _ hj _ => by omega) (by simp)
      obtain ⟨h0, hs', rfl⟩ := List.exists_cons_of_ne_nil hne
      rw [if_pos rfl, unitEntry_of_lt (by omega), List.singleton_append, List.isChain_cons]
      refine ⟨fun q hq => ?_, hchain⟩
      rw [hhead q hq]
      simp
  · rcases List.mem_append.1 hp with hp | hp
    · split at hp
      · exact .inr (mem_unitEntry hp)
      · cases hp
    · exact kind_of_mem_horizonEntries hp

/-! ## Registering and linking the named nodes -/

/-- Linking a column each of whose nodes joins the next keeps the links well
formed, and changes neither the catalog nor the relations. -/
theorem LinksOK.linkColumn : ∀ {ids : List Uuid} {s s' : HorizonStack}, s.LinksOK →
    ids.IsChain (fun a b => s.catalog.Joins b a) → s.linkColumn ids = .ok s' →
    s'.LinksOK ∧ s'.catalog = s.catalog ∧ s'.erosions = s.erosions ∧ s'.baselaps = s.baselaps
  | [], s, s', h, _, hl => by
    simp only [HorizonStack.linkColumn, except_pure_eq_ok] at hl
    subst hl
    exact ⟨h, rfl, rfl, rfl⟩
  | [_], s, s', h, _, hl => by
    simp only [HorizonStack.linkColumn, except_pure_eq_ok] at hl
    subst hl
    exact ⟨h, rfl, rfl, rfl⟩
  | a :: b :: rest, s, s', h, hc, hl => by
    obtain ⟨t, ht, hl⟩ := except_bind_eq_ok.1 hl
    obtain ⟨hj, hc⟩ := List.isChain_cons_cons.1 hc
    obtain ⟨hct, het, hbt⟩ := link_frame ht
    have hrest := LinksOK.linkColumn (h.link hj ht) (by rw [hct]; exact hc) hl
    exact ⟨hrest.1, hrest.2.1.trans hct, hrest.2.2.1.trans het, hrest.2.2.2.trans hbt⟩

theorem nameNode_relabels {fresh : Nat → Uuid} {k : ComponentKind} {n : String} {i : Nat}
    (h : (if k = .horizon then (s.addNode k (fresh i)).setHorizonName (fresh i) n
      else (s.addNode k (fresh i)).setUnitName (fresh i) n) = .ok s') :
    Relabels (s.addNode k (fresh i)) s' := by
  split at h
  · exact setHorizonName_relabels h
  · exact setUnitName_relabels h

/-- Registering named nodes one after another under fresh identifiers: each
gets its kind, the nodes already there keep theirs, and the links and
relations stay. -/
theorem foldlM_register {fresh : Nat → Uuid} (hinj : Function.Injective fresh)
    {f : HorizonStack → (ComponentKind × String) × Nat → Except Error HorizonStack}
    (hf : ∀ s e t, f s e = .ok t → Relabels (s.addNode e.1.1 (fresh e.2)) t) :
    ∀ {L : List ((ComponentKind × String) × Nat)} {s s' : HorizonStack}, (L.map (·.2)).Nodup →
      (∀ e ∈ L, s.catalog.contains (fresh e.2) = false) → L.foldlM f s = .ok s' →
      (∀ e ∈ L, s'.catalog.kindOf? (fresh e.2) = some e.1.1) ∧
      (∀ x, s.catalog.contains x = true → s'.catalog.kindOf? x = s.catalog.kindOf? x) ∧
      s'.aboveOf = s.aboveOf ∧ s'.underOf = s.underOf ∧ s'.erosions = s.erosions ∧
      s'.baselaps = s.baselaps
  | [], s, s', _, _, h => by
    simp only [List.foldlM_nil, except_pure_eq_ok] at h
    subst h
    simp
  | e :: L, s, s', hnd, hfr, h => by
    rw [List.foldlM_cons] at h
    obtain ⟨t, ht, h⟩ := except_bind_eq_ok.1 h
    have hr := hf s e t ht
    have hfresh := hfr e List.mem_cons_self
    -- `t` has the new node besides the old ones
    have hkt : ∀ x, t.catalog.kindOf? x =
        if x = fresh e.2 then some e.1.1 else s.catalog.kindOf? x := by
      intro x
      rw [hr.kindOf?]
      exact Catalog.kindOf?_register hfresh
    have hct : ∀ x, t.catalog.contains x = (s.catalog.contains x || fresh e.2 == x) := by
      intro x
      rw [hr.contains]
      exact contains_addNode
    rw [List.map_cons, List.nodup_cons] at hnd
    have hfr' : ∀ e' ∈ L, t.catalog.contains (fresh e'.2) = false := by
      intro e' he'
      have hne : e.2 ≠ e'.2 := fun heq => hnd.1 (heq ▸ List.mem_map_of_mem he')
      rw [hct, hfr e' (List.mem_cons_of_mem _ he')]
      simpa using fun heq => hne (hinj heq)
    obtain ⟨hnew, hold, ha, hu, he, hb⟩ := foldlM_register hinj hf hnd.2 hfr' h
    obtain ⟨hat, hut, het, hbt⟩ := hr.frame
    refine ⟨fun e' he' => ?_, fun x hx => ?_, ha.trans hat, hu.trans hut, he.trans het,
      hb.trans hbt⟩
    · rcases List.mem_cons.1 he' with rfl | he'
      · rw [hold _ (by rw [hct]; simp), hkt, if_pos rfl]
      · exact hnew e' he'
    · have hne : x ≠ fresh e.2 := by
        rintro rfl
        rw [hfresh] at hx
        cases hx
      rw [hold x (by rw [hct, hx, Bool.true_or]), hkt, if_neg hne]

/-- The stages of a stack built from names: the counts fix whether the
outer nodes are units, the node of each name is registered and named in
turn from the empty stack, the nodes are linked from the top down, and top
and bottom are computed. -/
theorem ofNamesFromTop_stages {dim : Nat} {hs us : List String} {fresh : Nat → Uuid}
    (h : ofNamesFromTop dim hs us fresh = .ok s) :
    ∃ outer s1 s2, outerUnits? hs us = some outer ∧
      (columnNames outer hs us).zipIdx.foldlM (fun t e =>
        if e.1.1 = .horizon then (t.addNode e.1.1 (fresh e.2)).setHorizonName (fresh e.2) e.1.2
        else (t.addNode e.1.1 (fresh e.2)).setUnitName (fresh e.2) e.1.2) (empty dim) = .ok s1 ∧
      s1.linkColumn ((columnNames outer hs us).zipIdx.map fun p => fresh p.2) = .ok s2 ∧
      s2.computeTopAndBottom = .ok s := by
  unfold ofNamesFromTop at h
  cases ho : outerUnits? hs us with
  | none => simp [ho] at h
  | some outer =>
    simp only [ho] at h
    obtain ⟨s1, h1, h⟩ := except_bind_eq_ok.1 h
    obtain ⟨s2, h2, h3⟩ := except_bind_eq_ok.1 h
    exact ⟨outer, s1, s2, rfl, h1, h2, h3⟩

/-- A stack built from names has well-formed links and state, no erosion
or baselap, and only horizons and units, when its identifiers are drawn
without repeats. -/
theorem ofNamesFromTop_eq_ok {dim : Nat} {hs us : List String} {fresh : Nat → Uuid}
    (hinj : Function.Injective fresh) (h : ofNamesFromTop dim hs us fresh = .ok s) :
    s.LinksOK ∧ s.StateOK ∧ s.RelationsOK ∧ s.NodeKinds := by
  obtain ⟨outer, s1, s2, ho, h1, h2, h3⟩ := ofNamesFromTop_stages h
  obtain ⟨halt, hkinds⟩ := columnNames_alternates ho
  have hnd : ((columnNames outer hs us).zipIdx.map (·.2)).Nodup := by
    rw [List.zipIdx_map_snd]
    exact List.nodup_range'
  -- registering: each name's node gets the name's kind
  have hstep : ∀ (s : HorizonStack) (e : (ComponentKind × String) × Nat) t,
      (if e.1.1 = .horizon then (s.addNode e.1.1 (fresh e.2)).setHorizonName (fresh e.2) e.1.2
        else (s.addNode e.1.1 (fresh e.2)).setUnitName (fresh e.2) e.1.2) = .ok t →
      Relabels (s.addNode e.1.1 (fresh e.2)) t := fun _ _ _ ht => nameNode_relabels ht
  obtain ⟨hnew, -, ha, hu, he, hb⟩ := foldlM_register hinj hstep
    hnd (fun _ _ => by simp [empty, Catalog.empty, Catalog.contains]) h1
  -- linking: consecutive nodes are a horizon and a unit
  have hchain : ((columnNames outer hs us).zipIdx.map fun p => fresh p.2).IsChain
      (fun a b => s1.catalog.Joins b a) := by
    rw [List.isChain_map]
    have hfst := (List.isChain_map (R := fun p q : ComponentKind × String => p.1 ≠ q.1)
      (l := (columnNames outer hs us).zipIdx) Prod.fst).1
      (by rw [List.zipIdx_map_fst]; exact halt)
    refine hfst.imp_of_mem_imp fun a b ha hb hab => ?_
    have hmem : ∀ c ∈ (columnNames outer hs us).zipIdx, c.1 ∈ columnNames outer hs us :=
      fun c hc => by
        rw [← List.zipIdx_map_fst 0 (columnNames outer hs us)]
        exact List.mem_map_of_mem hc
    exact Catalog.joins_of_kinds (hnew b hb) (hnew a ha) (hkinds _ (hmem b hb))
      (hkinds _ (hmem a ha)) (Ne.symm hab)
  obtain ⟨l2, hc2, he2, hb2⟩ := (linksOK_of_nil ha hu).linkColumn hchain h2
  -- every node registered is named by a horizon or a unit
  have hk1 : s1.NodeKinds := by
    refine foldlM_except_inv (fun t e t' he ht hkt => ?_) (nodeKinds_empty dim) h1
    have hmem : e.1 ∈ columnNames outer hs us := by
      rw [← List.zipIdx_map_fst 0 (columnNames outer hs us)]
      exact List.mem_map_of_mem he
    exact (hkt.addNode (hkinds _ hmem)).relabel (hstep t e t' ht)
  obtain ⟨col, top, bot, -, -, -, rfl⟩ := computeTopAndBottom_eq_ok h3
  refine ⟨l2.congr rfl rfl fun _ _ _ => ⟨rfl, rfl⟩, stateOK_computeTopAndBottom h3, ?_,
    hk1.of_catalog hc2⟩
  have hrel : s2.erosions = Relation.empty ∧ s2.baselaps = Relation.empty :=
    ⟨he2.trans he, hb2.trans hb⟩
  exact ⟨hrel.1 ▸ Relation.allEdges_empty, hrel.2 ▸ Relation.allEdges_empty⟩

end HorizonStack

end Subsurface
