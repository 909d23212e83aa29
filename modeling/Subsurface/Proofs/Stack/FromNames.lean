import Subsurface.Proofs.Stack.Split
import Subsurface.Proofs.Archive.Stack
/-!
Stacks built from lists of names, read back.

`ofNamesFromTop` takes the names of the horizons and of the units of a column
listed from the top down. With one unit fewer than horizons the column starts
and ends with a horizon; with one unit more it starts and ends with a unit.
The names it lays out are the two lists taken in turn (`topDownNames`,
through `columnNames_eq_topDownNames`), and the stack it builds holds, from
the top down, the `i`-th of those names under the identifier `fresh i`, each
node lying on the next (`NamedColumn`). Its top horizon is the first horizon
named and its bottom horizon the last (`ofNamesFromTop_namedColumn`). Any other
counts are refused. `ofNamesFromBottom` reads the same lists from the bottom
up: reversing both lists reverses the names laid out (`topDownNames_reverse`).
-/

namespace Subsurface

/-! ## Two lists taken in turn -/

/-- Two lists taken in turn, `a₀, b₀, a₁, b₁, …`, with what is left of the
longer one at the end. -/
def alternate {α : Type} : List α → List α → List α
  | [], ys => ys
  | xs, [] => xs
  | x :: xs, y :: ys => x :: y :: alternate xs ys

section Alternate

variable {α : Type} {x y : α} {xs ys : List α}

@[simp] theorem alternate_nil_left : alternate [] ys = ys := by
  cases ys <;> rfl

@[simp] theorem alternate_nil_right : alternate xs [] = xs := by
  cases xs <;> rfl

@[simp] theorem alternate_cons_cons : alternate (x :: xs) (y :: ys) = x :: y :: alternate xs ys :=
  rfl

theorem alternate_cons : ∀ (x : α) (xs ys : List α), alternate (x :: xs) ys = x :: alternate ys xs
  | _, _, [] => by simp
  | _, [], _ :: _ => by simp
  | _, z :: zs, y :: ys => by
    rw [alternate_cons_cons, alternate_cons z zs ys, alternate_cons_cons]

@[simp] theorem length_alternate : ∀ (xs ys : List α),
    (alternate xs ys).length = xs.length + ys.length
  | [], _ => by simp
  | _ :: _, [] => by simp
  | _ :: xs, _ :: ys => by simp [length_alternate xs ys]; omega

/-- A last element on each list, the first list one longer: the second list's
comes before the first's. -/
theorem alternate_append_singleton : ∀ (xs ys : List α), xs.length = ys.length + 1 →
    alternate (xs ++ [x]) (ys ++ [y]) = alternate xs ys ++ [y, x]
  | [_], [], _ => rfl
  | _ :: xs, _ :: ys, h => by
    simp only [List.cons_append, alternate_cons_cons,
      alternate_append_singleton xs ys (by simpa using h)]
  | [], _, h | _ :: _ :: _, [], h => by simp at h

theorem alternate_reverse : ∀ (xs ys : List α), xs.length = ys.length + 1 →
    alternate xs.reverse ys.reverse = (alternate xs ys).reverse
  | [_], [], _ => rfl
  | x :: xs, y :: ys, h => by
    have h' : xs.length = ys.length + 1 := by simpa using h
    rw [List.reverse_cons, List.reverse_cons,
      alternate_append_singleton _ _ (by simpa using h'), alternate_reverse xs ys h']
    simp
  | [], _, h | _ :: _ :: _, [], h => by simp at h

theorem mem_alternate : ∀ (xs ys : List α), x ∈ alternate xs ys ↔ x ∈ xs ∨ x ∈ ys
  | [], _ => by simp
  | _ :: _, [] => by simp
  | _ :: xs, _ :: ys => by
    simp only [alternate_cons_cons, List.mem_cons, mem_alternate xs ys]
    tauto

end Alternate

namespace HorizonStack

/-- The names of a column from the top down, each with its kind: the horizons
with a unit between each two, and with one unit more than horizons, a unit at
either end. -/
def topDownNames (horizons units : List String) : List (ComponentKind × String) :=
  if units.length = horizons.length + 1 then
    alternate (units.map (.stratigraphicUnit, ·)) (horizons.map (.horizon, ·))
  else
    alternate (horizons.map (.horizon, ·)) (units.map (.stratigraphicUnit, ·))

/-- Counts of horizons and units that alternate: some horizons, and one unit
fewer or one more. -/
def Alternates (horizons units : List String) : Prop :=
  horizons ≠ [] ∧ (units.length + 1 = horizons.length ∨ units.length = horizons.length + 1)

instance (horizons units : List String) : Decidable (Alternates horizons units) := by
  unfold Alternates
  infer_instance

/-! ## The names laid out -/

section Names

variable {hs us : List String}

/-- `outerUnits?` accepts exactly the counts that alternate, and puts a unit
at either end when there is one unit more. -/
theorem outerUnits?_of_alternates (h : Alternates hs us) :
    outerUnits? hs us = some (decide (us.length = hs.length + 1)) := by
  obtain ⟨hne, hc⟩ := h
  unfold outerUnits?
  rw [if_neg (by simpa using hne)]
  rcases hc with hc | hc
  · rw [if_pos hc]
    simp only [Option.some.injEq]
    exact (decide_eq_false (by omega)).symm
  · rw [if_neg (by omega), if_pos hc]
    simp [hc]

theorem outerUnits?_eq_none (h : ¬Alternates hs us) : outerUnits? hs us = none := by
  cases ho : outerUnits? hs us with
  | none => rfl
  | some outer =>
    obtain ⟨hne, hc⟩ := outerUnits?_eq_some ho
    exact absurd ⟨hne, hc.imp And.right And.right⟩ h

@[simp] theorem length_topDownNames : (topDownNames hs us).length = hs.length + us.length := by
  unfold topDownNames
  split <;> simp only [length_alternate, List.length_map]
  omega

theorem kind_of_mem_topDownNames {p : ComponentKind × String} (hp : p ∈ topDownNames hs us) :
    p.1 = .horizon ∨ p.1 = .stratigraphicUnit := by
  unfold topDownNames at hp
  split at hp <;> rw [mem_alternate, List.mem_map, List.mem_map] at hp <;>
    rcases hp with ⟨n, -, rfl⟩ | ⟨n, -, rfl⟩ <;> simp

theorem alternates_reverse : Alternates hs.reverse us.reverse ↔ Alternates hs us := by
  simp [Alternates]

/-- Reversing both lists reverses the names laid out. -/
theorem topDownNames_reverse (h : Alternates hs us) :
    topDownNames hs.reverse us.reverse = (topDownNames hs us).reverse := by
  unfold topDownNames
  simp only [List.length_reverse, List.map_reverse]
  split
  · exact alternate_reverse _ _ (by simpa using ‹_›)
  · exact alternate_reverse _ _ (by simp; rcases h.2 with hc | hc <;> omega)

/-- The highest horizon laid out is the first one listed; above it lies the
first unit when there is one unit more than horizons. -/
theorem topDownNames_top (h : Alternates hs us) :
    (topDownNames hs us)[if us.length = hs.length + 1 then 1 else 0]? =
      hs.head?.map (.horizon, ·) ∧
    ∀ j < (if us.length = hs.length + 1 then 1 else 0),
      ∃ n, (topDownNames hs us)[j]? = some (.stratigraphicUnit, n) := by
  obtain ⟨h₀, hs', rfl⟩ := List.exists_cons_of_ne_nil h.1
  unfold topDownNames
  split
  · next hc =>
    obtain ⟨u₀, us', rfl⟩ := List.exists_cons_of_length_eq_add_one hc
    refine ⟨by simp [alternate_cons], fun j hj => ⟨u₀, ?_⟩⟩
    obtain rfl : j = 0 := by omega
    simp [alternate_cons]
  · exact ⟨by simp [alternate_cons], fun j hj => absurd hj (Nat.not_lt_zero j)⟩

/-- The lowest horizon laid out is the last one listed; under it lies the
last unit when there is one unit more than horizons. -/
theorem topDownNames_bottom (h : Alternates hs us) :
    (topDownNames hs us).reverse[if us.length = hs.length + 1 then 1 else 0]? =
      hs.getLast?.map (.horizon, ·) ∧
    ∀ j < (if us.length = hs.length + 1 then 1 else 0),
      ∃ n, (topDownNames hs us).reverse[j]? = some (.stratigraphicUnit, n) := by
  have htop := topDownNames_top (alternates_reverse.2 h)
  rwa [topDownNames_reverse h, List.length_reverse, List.length_reverse,
    List.head?_reverse] at htop

end Names

/-- The entries for the horizons from position `i` on are those horizons taken
in turn with the units from position `i + off` on, when a unit follows a
horizon exactly where there is one left. -/
theorem horizonEntries_eq_alternate {n off : Nat} {outer : Bool} {us : List String} :
    ∀ (hs : List String) (i : Nat), hs.length + i = n →
      (∀ j, i ≤ j → j < n → ((j + 1 < n ∨ outer = true) ↔ j + off < us.length)) →
      us.length ≤ n + off →
      horizonEntries n outer us off hs i =
        alternate (hs.map (.horizon, ·)) ((us.drop (i + off)).map (.stratigraphicUnit, ·))
  | [], i, hn, _, hend => by
    simp [horizonEntries, List.drop_eq_nil_of_le (by simp at hn; omega : us.length ≤ i + off)]
  | h :: hs, i, hn, hcover, hend => by
    simp only [List.length_cons] at hn
    rw [horizonEntries_cons]
    by_cases hc : i + 1 < n ∨ outer = true
    · -- a unit follows the horizon
      have hlt : i + off < us.length := (hcover i le_rfl (by omega)).1 hc
      rw [if_pos (by simpa using hc), unitEntry_of_lt hlt, List.drop_eq_getElem_cons hlt,
        horizonEntries_eq_alternate hs (i + 1) (by omega)
          (fun j hj hjn => hcover j (by omega) hjn) hend, Nat.add_right_comm i 1 off]
      simp only [List.map_cons, List.singleton_append, alternate_cons_cons]
    · -- the last horizon of a column that ends with it
      have hge : us.length ≤ i + off :=
        Nat.le_of_not_lt fun hlt => hc ((hcover i le_rfl (by omega)).2 hlt)
      have hnil : hs = [] := List.eq_nil_of_length_eq_zero (by omega)
      subst hnil
      rw [if_neg (by simpa using hc)]
      simp [horizonEntries, List.drop_eq_nil_of_le hge]

/-- The names `columnNames` lays out are the horizons and units taken in turn. -/
theorem columnNames_eq_topDownNames {hs us : List String} {outer : Bool}
    (h : outerUnits? hs us = some outer) : columnNames outer hs us = topDownNames hs us := by
  obtain ⟨-, hcount⟩ := outerUnits?_eq_some h
  rw [columnNames_eq]
  rcases hcount with ⟨rfl, hc⟩ | ⟨rfl, hc⟩
  · -- horizons at both ends
    rw [topDownNames, if_neg (show ¬us.length = hs.length + 1 by omega),
      if_neg (show ¬false = true by simp), List.nil_append,
      horizonEntries_eq_alternate hs 0 (by simp) (fun j _ hj => by simp; omega) (by omega)]
    simp
  · -- units at both ends
    obtain ⟨u, us', rfl⟩ := List.exists_cons_of_length_eq_add_one hc
    rw [topDownNames, if_pos hc, if_pos rfl, unitEntry_of_lt (by simp),
      horizonEntries_eq_alternate hs 0 (by simp) (fun j _ hj => by simp at hc ⊢; omega)
        (by simp at hc ⊢; omega)]
    simp [alternate_cons]

/-! ## Registering the named nodes -/

variable {s : HorizonStack}

theorem nameNode_get? {k : ComponentKind} {id : Uuid} {n : String}
    (hfresh : s.catalog.contains id = false) (y : Uuid) :
    ((s.addNode k id).catalog.update id (·.rename n)).get? y =
      if y = id then some ⟨id, k, n, none⟩ else s.catalog.get? y := by
  have hreg : (s.addNode k id).catalog = s.catalog.register (Component.new id k) := rfl
  by_cases hy : y = id
  · subst hy
    rw [Catalog.get?_update (Component.id_rename · _), hreg, Catalog.get?_register hfresh]
    simp [Component.new, Component.rename]
  · rw [if_neg hy, Catalog.get?_update_of_ne (Component.id_rename · _) hy, hreg,
      Catalog.get?_register_of_ne hy]

/-- The step of `ofNamesFromTop` that registers and names the node of one
name. -/
def nameStep (fresh : Nat → Uuid) (s : HorizonStack) (e : (ComponentKind × String) × Nat) :
    Except Error HorizonStack :=
  if e.1.1 = .horizon then (s.addNode e.1.1 (fresh e.2)).setHorizonName (fresh e.2) e.1.2
  else (s.addNode e.1.1 (fresh e.2)).setUnitName (fresh e.2) e.1.2

/-- `ofNamesFromTop` on counts it accepts: it registers and names the nodes,
links them from the top down and computes top and bottom. -/
theorem ofNamesFromTop_of_outerUnits? {dim : Nat} {hs us : List String} {fresh : Nat → Uuid}
    {outer : Bool} (h : outerUnits? hs us = some outer) :
    ofNamesFromTop dim hs us fresh = (do
      let s ← (columnNames outer hs us).zipIdx.foldlM (nameStep fresh) (empty dim)
      let s ← s.linkColumn ((columnNames outer hs us).zipIdx.map fun p => fresh p.2)
      s.computeTopAndBottom) := by
  unfold ofNamesFromTop
  rw [h]
  rfl

/-- The node of a name, a horizon or a unit under a new identifier, is
registered and named. -/
theorem nameStep_eq_ok {fresh : Nat → Uuid} {e : (ComponentKind × String) × Nat}
    (hfresh : s.catalog.contains (fresh e.2) = false)
    (hk : e.1.1 = .horizon ∨ e.1.1 = .stratigraphicUnit) :
    nameStep fresh s e = .ok { s.addNode e.1.1 (fresh e.2) with
      catalog := (s.addNode e.1.1 (fresh e.2)).catalog.update (fresh e.2) (·.rename e.1.2) } := by
  obtain ⟨⟨k, n⟩, i⟩ := e
  have hkind : (s.addNode k (fresh i)).catalog.kindOf? (fresh i) = some k := by
    rw [show (s.addNode k (fresh i)).catalog = s.catalog.register (Component.new (fresh i) k)
      from rfl, Catalog.kindOf?_register hfresh]
    simp [Component.new]
  unfold nameStep
  rcases hk with hk | hk <;> dsimp only at hk <;> subst hk
  · rw [if_pos rfl]
    unfold setHorizonName
    rw [except_bind_of_eq_ok (Catalog.setName_of_kindOf? hkind)]
    rfl
  · rw [if_neg (show ComponentKind.stratigraphicUnit ≠ .horizon by decide)]
    unfold setUnitName
    rw [except_bind_of_eq_ok (Catalog.setName_of_kindOf? hkind)]
    rfl

/-- Registering and naming nodes one after another under identifiers drawn
without repeats: each node gets its kind and its name, the nodes already
there stay, and so do the links. -/
theorem foldlM_nameStep {fresh : Nat → Uuid} :
    ∀ (L : List ((ComponentKind × String) × Nat)) (s : HorizonStack),
      (L.map fun e => fresh e.2).Nodup →
      (∀ e ∈ L, s.catalog.contains (fresh e.2) = false) →
      (∀ e ∈ L, e.1.1 = .horizon ∨ e.1.1 = .stratigraphicUnit) →
      ∃ s', L.foldlM (nameStep fresh) s = .ok s' ∧
        (∀ e ∈ L, s'.catalog.get? (fresh e.2) = some ⟨fresh e.2, e.1.1, e.1.2, none⟩) ∧
        (∀ y, (∀ e ∈ L, y ≠ fresh e.2) → s'.catalog.get? y = s.catalog.get? y) ∧
        s'.aboveOf = s.aboveOf ∧ s'.underOf = s.underOf
  | [], s, _, _, _ => ⟨s, rfl, by simp, fun _ _ => rfl, rfl, rfl⟩
  | e :: L, s, hnd, hfr, hk => by
    have hfresh := hfr e List.mem_cons_self
    have hget := nameNode_get? (k := e.1.1) (n := e.1.2) hfresh
    rw [List.map_cons, List.nodup_cons] at hnd
    -- the identifiers still to come differ from this one
    have hne : ∀ e' ∈ L, fresh e'.2 ≠ fresh e.2 :=
      fun e' he' heq => hnd.1 (heq ▸ List.mem_map_of_mem he')
    have hfr' : ∀ e' ∈ L, ((s.addNode e.1.1 (fresh e.2)).catalog.update (fresh e.2)
        (·.rename e.1.2)).contains (fresh e'.2) = false := fun e' he' => by
      rw [Catalog.contains_eq_isSome, hget, if_neg (hne e' he'), ← Catalog.contains_eq_isSome,
        hfr e' (List.mem_cons_of_mem _ he')]
    obtain ⟨s', hs', hnew, hold, ha, hu⟩ := foldlM_nameStep L
      { s.addNode e.1.1 (fresh e.2) with
        catalog := (s.addNode e.1.1 (fresh e.2)).catalog.update (fresh e.2) (·.rename e.1.2) }
      hnd.2 hfr' fun e' he' => hk e' (List.mem_cons_of_mem _ he')
    refine ⟨s', ?_, fun e' he' => ?_, fun y hy => ?_, ha, hu⟩
    · rw [List.foldlM_cons,
        except_bind_of_eq_ok (nameStep_eq_ok hfresh (hk e List.mem_cons_self))]
      exact hs'
    · rcases List.mem_cons.1 he' with rfl | he'
      · rw [hold _ fun e'' he'' => (hne e'' he'').symm]
        exact (hget _).trans (if_pos rfl)
      · exact hnew e' he'
    · rw [hold y fun e' he' => hy e' (List.mem_cons_of_mem _ he')]
      exact (hget y).trans (if_neg (hy e List.mem_cons_self))

/-! ## Linking the named nodes -/

/-- Linking a column whose nodes are free of links, but for what lies above
its first node: each node comes to lie on the next, and no other link
changes. -/
theorem LinksOK.linkColumn_chain : ∀ (ids : List Uuid) {s : HorizonStack}, s.LinksOK →
    ids.Nodup → (∀ x ∈ ids.head?, s.underOf.get? x = none) →
    (∀ x ∈ ids.tail, s.aboveOf.get? x = none ∧ s.underOf.get? x = none) →
    ids.IsChain (fun a b => s.catalog.Joins b a) →
    ∃ s', s.linkColumn ids = .ok s' ∧ s'.LinksOK ∧ s'.catalog = s.catalog ∧
      ids.IsChain (fun a b => s'.aboveOf.get? b = some a) ∧
      (∀ x ∉ ids.tail, s'.aboveOf.get? x = s.aboveOf.get? x) ∧
      (∀ x ∉ ids.dropLast, s'.underOf.get? x = s.underOf.get? x)
  | [], s, h, _, _, _, _ => ⟨s, rfl, h, rfl, .nil, fun _ _ => rfl, fun _ _ => rfl⟩
  | [a], s, h, _, _, _, _ => ⟨s, rfl, h, rfl, .singleton a, fun _ _ => rfl, fun _ _ => rfl⟩
  | a :: b :: rest, s, h, hnd, hhead, htail, hchain => by
    obtain ⟨hab, hrest⟩ := List.isChain_cons_cons.1 hchain
    obtain ⟨hna, hnd'⟩ := List.nodup_cons.1 hnd
    have hnb : b ∉ rest := (List.nodup_cons.1 hnd').1
    have hne : a ≠ b := fun he => hna (he ▸ List.mem_cons_self)
    obtain ⟨hbA, hbU⟩ := htail b List.mem_cons_self
    -- nothing lies under `b`, so no climb from `a` meets it
    have hfar : s.isAbove b a = false := by
      refine isAbove_eq_false_of_closed (· ≠ b) (fun v w _ hvw hwb => ?_) hne (fun hb => hb rfl)
      subst hwb
      rw [(h.inverse v w).1 hvw] at hbU
      cases hbU
    have hl : s.link a b = .ok (s.withLink a b) := link_eq_withLink hne hfar hbA (hhead a rfl)
    obtain ⟨s', hs', h', hc', hch', hA', hB'⟩ := LinksOK.linkColumn_chain (b :: rest)
      (h.link hab hl) hnd'
      (fun x hx => by
        cases hx
        rw [withLink_underOf, NodeMap.get?_insert, if_neg (Ne.symm hne), hbU])
      (fun x hx => by
        have hxb : x ≠ b := fun he => hnb (he ▸ hx)
        have hxa : x ≠ a := fun he => hna (he ▸ List.mem_cons_of_mem b hx)
        rw [withLink_aboveOf, withLink_underOf, NodeMap.get?_insert, if_neg hxb,
          NodeMap.get?_insert, if_neg hxa]
        exact htail x (List.mem_cons_of_mem b hx))
      hrest
    refine ⟨s', ?_, h', hc', List.isChain_cons_cons.2 ⟨?_, hch'⟩, fun x hx => ?_, fun x hx => ?_⟩
    · rw [HorizonStack.linkColumn, except_bind_of_eq_ok hl]
      exact hs'
    · rw [hA' b hnb, withLink_aboveOf, NodeMap.get?_insert, if_pos rfl]
    · have hxb : x ≠ b := fun he => hx (he ▸ List.mem_cons_self)
      rw [hA' x fun hx' => hx (List.mem_cons_of_mem b hx'), withLink_aboveOf, NodeMap.get?_insert,
        if_neg hxb]
    · rw [List.dropLast_cons_cons, List.mem_cons, not_or] at hx
      rw [hB' x hx.2, withLink_underOf, NodeMap.get?_insert, if_neg hx.1]

/-! ## The column built -/

theorem LinksOK.under_eq_ok {x y : Uuid} (h : s.LinksOK) :
    s.under x = .ok y ↔ s.underOf.get? x = some y := by
  unfold under
  constructor
  · intro hxy
    obtain ⟨c, -, hxy⟩ := except_bind_eq_ok.1 hxy
    split at hxy
    · next z hz => rw [hz, except_pure_eq_ok.1 hxy]
    · cases hxy
  · intro hxy
    obtain ⟨c, hc⟩ := Catalog.get?_of_contains (h.registered ((h.inverse y x).2 hxy)).2
    have hget : s.catalog.get x = .ok c := by simp [Catalog.get, hc]
    rw [except_bind_eq_ok]
    exact ⟨c, hget, by simp [hxy]⟩

/-- A built stack that holds, from the top down, the nodes `fresh 0`,
`fresh 1`, … named in order by `names`, each lying on the next. -/
structure NamedColumn (s : HorizonStack) (names : List (ComponentKind × String))
    (fresh : Nat → Uuid) : Prop where
  built : s.state = .built
  column : s.column = .ok ((List.range names.length).map fresh).reverse
  get? : ∀ i (hi : i < names.length),
    s.catalog.get? (fresh i) = some ⟨fresh i, names[i].1, names[i].2, none⟩
  above : ∀ i, i + 1 < names.length → s.above (fresh (i + 1)) = .ok (fresh i)
  under : ∀ i, i + 1 < names.length → s.under (fresh i) = .ok (fresh (i + 1))

/-- Registering and naming the nodes of names that alternate between horizons
and units, then linking them from the top down, lays them out as a column:
the identifiers drawn, from the last to the first. -/
theorem nameAndLink_isColumn (dim : Nat) {fresh : Nat → Uuid}
    {E : List (ComponentKind × String)}
    (hfresh : ((List.range E.length).map fresh).Nodup)
    (hkinds : ∀ p ∈ E, p.1 = .horizon ∨ p.1 = .stratigraphicUnit)
    (halt : E.IsChain fun p q => p.1 ≠ q.1) (hlen : 0 < E.length) :
    ∃ s₁ s₂, E.zipIdx.foldlM (nameStep fresh) (empty dim) = .ok s₁ ∧
      s₁.linkColumn (E.zipIdx.map fun (p : (ComponentKind × String) × Nat) => fresh p.2) =
        .ok s₂ ∧
      s₂.LinksOK ∧ s₂.catalog.Distinct ∧ s₂.IsColumn ((List.range E.length).map fresh).reverse ∧
      (∀ j (hj : j < E.length),
        s₂.catalog.get? (fresh j) = some ⟨fresh j, E[j].1, E[j].2, none⟩) ∧
      ∀ j, j + 1 < E.length → s₂.aboveOf.get? (fresh (j + 1)) = some (fresh j) := by
  -- registering: the `j`-th name gives the node `fresh j`, and there is no other
  have hids : E.zipIdx.map (fun p => fresh p.2) = (List.range E.length).map fresh := by
    rw [show (fun p : (ComponentKind × String) × Nat => fresh p.2) = fresh ∘ Prod.snd from rfl,
      ← List.map_map, List.zipIdx_map_snd, List.range_eq_range']
  have hmem : ∀ e ∈ E.zipIdx, e.2 < E.length ∧ E[e.2]? = some e.1 := fun e he => by
    have he' := List.mem_zipIdx_iff_getElem?.1 he
    exact ⟨(List.getElem?_eq_some_iff.1 he').1, he'⟩
  obtain ⟨s1, h1, hnew, hold, ha1, hu1⟩ := foldlM_nameStep E.zipIdx (empty dim) (hids ▸ hfresh)
    (fun _ _ => by simp [empty, Catalog.empty, Catalog.contains])
    (fun e he => hkinds e.1 (List.mem_of_getElem? (hmem e he).2))
  have hget : ∀ j (hj : j < E.length),
      s1.catalog.get? (fresh j) = some ⟨fresh j, E[j].1, E[j].2, none⟩ := fun j hj =>
    hnew (E[j], j) (List.mem_zipIdx_iff_getElem?.2 (List.getElem?_eq_getElem hj))
  have hkind : ∀ j (hj : j < E.length), s1.catalog.kindOf? (fresh j) = some E[j].1 :=
    fun j hj => by simp [Catalog.kindOf?, hget j hj]
  -- linking: each node lies on the next
  have hl1 : s1.LinksOK := linksOK_of_nil (by rw [ha1]; rfl) (by rw [hu1]; rfl)
  have hjoin : ((List.range E.length).map fresh).IsChain fun a b => s1.catalog.Joins b a := by
    rw [List.isChain_iff_getElem]
    intro j hj
    simp only [List.length_map, List.length_range] at hj
    simp only [List.getElem_map, List.getElem_range]
    exact Catalog.joins_of_kinds (hkind (j + 1) hj) (hkind j (by omega))
      (hkinds _ (List.getElem_mem _)) (hkinds _ (List.getElem_mem _))
      (Ne.symm (List.isChain_iff_getElem.1 halt j hj))
  obtain ⟨s2, h2, hl2, hc2, hch2, hA2, hB2⟩ := hl1.linkColumn_chain _ hfresh
    (fun _ _ => by rw [hu1]; rfl) (fun _ _ => ⟨by rw [ha1]; rfl, by rw [hu1]; rfl⟩) hjoin
  have hlink : ∀ j, j + 1 < E.length → s2.aboveOf.get? (fresh (j + 1)) = some (fresh j) := by
    intro j hj
    have hj' := List.isChain_iff_getElem.1 hch2 j (by simpa using hj)
    simp only [List.getElem_map, List.getElem_range] at hj'
    exact hj'
  -- the column: nothing above the first node, nothing under the last
  obtain ⟨m, hm⟩ : ∃ m, E.length = m + 1 := ⟨E.length - 1, by omega⟩
  have hcons : (List.range E.length).map fresh =
      fresh 0 :: (List.range m).map (fun j => fresh (j + 1)) := by
    rw [hm, List.range_succ_eq_map, List.map_cons, List.map_map]
    rfl
  have hconcat : (List.range E.length).map fresh = (List.range m).map fresh ++ [fresh m] := by
    rw [hm, List.range_succ, List.map_append, List.map_singleton]
  have hfirst : s2.aboveOf.get? (fresh 0) = none := by
    have hnot := (List.nodup_cons.1 (hcons ▸ hfresh)).1
    rw [hA2 _ (by rw [hcons, List.tail_cons]; exact hnot), ha1]
    rfl
  have hlast : s2.underOf.get? (fresh m) = none := by
    have hnot : fresh m ∉ (List.range m).map fresh := fun hin =>
      (List.nodup_append.1 (hconcat ▸ hfresh)).2.2 _ hin _ (List.mem_singleton_self _) rfl
    rw [hB2 _ (by rw [hconcat, List.dropLast_concat]; exact hnot), hu1]
    rfl
  have hd2 : s2.catalog.Distinct := by
    have hids1 : s1.catalog.components.map (·.id) = [] ++ E.zipIdx.map (fresh ·.2) := by
      refine ids_foldlM_register (fun t e t' ht => ?_) h1
      obtain ⟨⟨k, n⟩, i⟩ := e
      exact nameNode_relabels ht
    show (s2.catalog.components.map (·.id)).Nodup
    rw [hc2, hids1, List.nil_append, hids]
    exact hfresh
  have hcol : s2.IsColumn ((List.range E.length).map fresh).reverse := by
    refine ⟨by simp [hm], List.nodup_reverse.2 hfresh, fun x => ?_, List.isChain_reverse.2 hch2,
      fun x hx => ?_, fun x hx => ?_⟩
    · -- the nodes are those of the names
      rw [List.mem_reverse]
      show _ ↔ s2.catalog.contains x = true
      rw [hc2, Catalog.contains_eq_isSome]
      constructor
      · intro hx
        obtain ⟨j, hj, rfl⟩ := List.mem_map.1 hx
        rw [hget j (List.mem_range.1 hj)]
        rfl
      · intro hx
        by_contra hn
        rw [hold x fun e he hxe => hn (hxe ▸ List.mem_map_of_mem (List.mem_range.2 (hmem e he).1))]
          at hx
        cases hx
    · -- the lowest node has nothing under it
      rw [List.head?_reverse, hm, List.range_succ, List.map_append, List.map_singleton,
        List.getLast?_concat] at hx
      cases hx
      exact hlast
    · -- the highest node has nothing above it
      rw [List.getLast?_reverse, hm, List.range_succ_eq_map, List.map_cons, List.head?_cons] at hx
      cases hx
      exact hfirst
  refine ⟨s1, s2, h1, hids ▸ h2, hl2, hd2, hcol, fun j hj => ?_, hlink⟩
  exact (congrArg (·.get? (fresh j)) hc2).trans (hget j hj)

/-- A linked column of named nodes, `f 0, f 1, …` from the top down named by
`E`: finding its ends builds it, with the highest horizon on top and the
lowest at the bottom. -/
theorem LinksOK.computeTopAndBottom_namedColumn {E : List (ComponentKind × String)}
    {f : Nat → Uuid} (hl : s.LinksOK) (hd : s.catalog.Distinct)
    (hcol : s.IsColumn ((List.range E.length).map f).reverse)
    (hget : ∀ j (hj : j < E.length), s.catalog.get? (f j) = some ⟨f j, E[j].1, E[j].2, none⟩)
    (hlink : ∀ j, j + 1 < E.length → s.aboveOf.get? (f (j + 1)) = some (f j))
    {i k : Nat} {a b : String} (htop : E[i]? = some (.horizon, a))
    (habove : ∀ j < i, ∃ n, E[j]? = some (.stratigraphicUnit, n))
    (hbot : E.reverse[k]? = some (.horizon, b))
    (hunder : ∀ j < k, ∃ n, E.reverse[j]? = some (.stratigraphicUnit, n)) :
    ∃ s', s.computeTopAndBottom = .ok s' ∧ s'.NamedColumn E f ∧ s'.top = some (f i) ∧
      s'.bottom = some (f (E.length - 1 - k)) := by
  have hcol2 := hl.column_of_isColumn hd hcol
  obtain ⟨hi, hEi⟩ := List.getElem?_eq_some_iff.1 htop
  obtain ⟨hk, hEk⟩ := List.getElem?_eq_some_iff.1 hbot
  rw [List.length_reverse] at hk
  rw [List.getElem_reverse] at hEk
  -- top and bottom: the highest and the lowest horizons
  have hhor : ∀ j (hj : j < E.length), s.isHorizon (f j) = (E[j].1 == .horizon) :=
    fun j hj => by rw [isHorizon_eq]; simp [Catalog.kindOf?, hget j hj]
  have hfindTop : ((List.range E.length).map f).find? s.isHorizon = some (f i) := by
    refine List.find?_eq_some_iff_getElem.2 ⟨by simp [hhor i hi, hEi], i, by simpa using hi,
      by simp, fun j hj => ?_⟩
    obtain ⟨n, hn⟩ := habove j hj
    simp [hhor j (by omega), (List.getElem?_eq_some_iff.1 hn).2]
  have hfindBot : ((List.range E.length).map f).reverse.find? s.isHorizon =
      some (f (E.length - 1 - k)) := by
    refine List.find?_eq_some_iff_getElem.2 ⟨by simp [hhor _ (by omega : E.length - 1 - k < E.length), hEk], k,
      by simp; omega, by simp, fun j hj => ?_⟩
    obtain ⟨n, hn⟩ := hunder j hj
    obtain ⟨hj', hEj⟩ := List.getElem?_eq_some_iff.1 hn
    rw [List.getElem_reverse] at hEj
    simp only [List.getElem_reverse, List.getElem_map, List.getElem_range, List.length_map,
      List.length_range]
    simp [hhor (E.length - 1 - j) (by omega), hEj]
  have h3 := computeTopAndBottom_of_column hcol2 hfindBot (by rwa [List.reverse_reverse])
  refine ⟨_, h3, ⟨rfl, ?_, hget, fun j hj => ?_, fun j hj => ?_⟩, rfl, rfl⟩
  · rw [← hcol2]
    exact column_congr rfl rfl rfl
  · refine (LinksOK.above_eq_ok ?_).2 (hlink j hj)
    exact hl.congr rfl rfl fun _ _ _ => ⟨rfl, rfl⟩
  · refine (LinksOK.under_eq_ok ?_).2 ((hl.inverse _ _).1 (hlink j hj))
    exact hl.congr rfl rfl fun _ _ _ => ⟨rfl, rfl⟩

/-- The stack `ofNamesFromTop` builds on counts that alternate: the column of
the names laid out, from the first horizon listed down to the last. -/
theorem ofNamesFromTop_namedColumn (dim : Nat) {hs us : List String} {fresh : Nat → Uuid}
    (hfresh : ((List.range (hs.length + us.length)).map fresh).Nodup) (h : Alternates hs us) :
    ∃ s, ofNamesFromTop dim hs us fresh = .ok s ∧ s.NamedColumn (topDownNames hs us) fresh ∧
      s.top = some (fresh (if us.length = hs.length + 1 then 1 else 0)) ∧
      s.bottom = some (fresh (hs.length + us.length - 1 - if us.length = hs.length + 1 then 1 else 0)) := by
  have ho := outerUnits?_of_alternates h
  have halt := (columnNames_alternates ho).1
  rw [columnNames_eq_topDownNames ho] at halt
  obtain ⟨htop, hunit⟩ := topDownNames_top h
  obtain ⟨hbot, hunit'⟩ := topDownNames_bottom h
  rw [List.head?_eq_some_head h.1, Option.map_some] at htop
  rw [List.getLast?_eq_some_getLast h.1, Option.map_some] at hbot
  rw [← length_topDownNames] at hfresh
  obtain ⟨s1, s2, h1, h2, hl2, hd2, hcol, hget, hlink⟩ := nameAndLink_isColumn dim hfresh
    (fun _ hp => kind_of_mem_topDownNames hp) halt
    (by have := List.length_pos_of_ne_nil h.1; rw [length_topDownNames]; omega)
  obtain ⟨s, h3, hnamed, htop', hbot'⟩ :=
    hl2.computeTopAndBottom_namedColumn hd2 hcol hget hlink htop hunit hbot hunit'
  rw [length_topDownNames] at hbot'
  refine ⟨s, ?_, hnamed, htop', hbot'⟩
  rw [ofNamesFromTop_of_outerUnits? ho, columnNames_eq_topDownNames ho,
    except_bind_of_eq_ok h1, except_bind_of_eq_ok h2]
  exact h3

end HorizonStack

end Subsurface
