import Mathlib.Data.List.Forall2
import Subsurface.Topology.Catalog
/-!
Lookups in a catalog after each change to it.

Every change to a catalog is read back through `get?`: registering a fresh
component makes it the answer for its identifier, renaming and retyping
change no identifier and no kind, and removing a component leaves every
other lookup as it was. The kinds that queries depend on are collected in
`kindOf?`, so that a fact about the kinds of a catalog survives a rename.
-/

namespace Subsurface

/-! ## Computations that may fail -/

section Except

variable {ε α β : Type} {x : Except ε α} {f : α → Except ε β} {b : β}

theorem except_bind_eq_ok : x >>= f = .ok b ↔ ∃ a, x = .ok a ∧ f a = .ok b := by
  cases x with
  | error e => simp [bind, Except.bind]
  | ok a => simp [bind, Except.bind]

@[simp] theorem except_pure_eq_ok {a b : α} : (pure a : Except ε α) = .ok b ↔ a = b := by
  simp [pure, Except.pure]

@[simp] theorem except_throw_bind {e : ε} : (throw e >>= f : Except ε β) = throw e := rfl

@[simp] theorem except_throw_ne_ok {e : ε} {b : α} : (throw e : Except ε α) ≠ .ok b := by
  simp [throw, throwThe, MonadExceptOf.throw]

theorem except_map_eq_ok {g : α → β} : g <$> x = .ok b ↔ ∃ a, x = .ok a ∧ g a = b := by
  cases x with
  | error e => simp [Functor.map, Except.map]
  | ok a => simp [Functor.map, Except.map]

@[simp] theorem except_map_throw {e : ε} {g : α → β} : (g <$> (throw e : Except ε α)) = throw e :=
  rfl

theorem foldlM_except_inv {P : β → Prop} {g : β → α → Except ε β} :
    ∀ {L : List α} {b b' : β}, (∀ b a t, a ∈ L → g b a = .ok t → P b → P t) → P b →
      L.foldlM g b = .ok b' → P b'
  | [], b, b', _, hb, h => by
    simp only [List.foldlM_nil, except_pure_eq_ok] at h
    exact h ▸ hb
  | a :: L, b, b', hg, hb, h => by
    rw [List.foldlM_cons] at h
    obtain ⟨t, ht, h⟩ := except_bind_eq_ok.1 h
    exact foldlM_except_inv (fun b a' t ha' => hg b a' t (List.mem_cons_of_mem a ha'))
      (hg b a t List.mem_cons_self ht hb) h

theorem mapM_except_eq_map {g : α → β} (hf : ∀ a b, f a = .ok b → b = g a) :
    ∀ {l : List α} {bs : List β}, l.mapM f = .ok bs → bs = l.map g
  | [], bs, h => by
    rw [List.mapM_nil] at h
    cases h
    rfl
  | a :: l, bs, h => by
    rw [List.mapM_cons] at h
    cases ha : f a with
    | error e => simp [ha, bind, Except.bind] at h
    | ok b =>
      cases hl : l.mapM f with
      | error e => simp [ha, hl, bind, Except.bind] at h
      | ok bs' =>
        simp only [ha, hl, bind, Except.bind, pure, Except.pure, Except.ok.injEq] at h
        subst h
        rw [List.map_cons, ← hf a b ha, mapM_except_eq_map hf hl]

theorem exists_mapM_except_eq_error {a : α} {e : ε} (he : f a = .error e) :
    ∀ {l : List α}, a ∈ l → ∃ e', l.mapM f = .error e'
  | x :: l, ha => by
    rw [List.mapM_cons]
    cases hx : f x with
    | error e' => exact ⟨e', rfl⟩
    | ok b =>
      -- the failing lookup is not the first one, so it lies further on
      have hal : a ∈ l := by
        rcases List.mem_cons.1 ha with rfl | hal
        · rw [hx] at he
          cases he
        · exact hal
      obtain ⟨e', hl⟩ := exists_mapM_except_eq_error he hal
      exact ⟨e', by simp [hl, bind, Except.bind]⟩

theorem mapM_except_eq_error :
    ∀ {l : List α} {e : ε}, l.mapM f = .error e → ∃ a ∈ l, f a = .error e
  | [], e, h => by cases h
  | a :: l, e, h => by
    rw [List.mapM_cons] at h
    cases ha : f a with
    | error e' =>
      simp only [ha, bind, Except.bind, Except.error.injEq] at h
      exact ⟨a, List.mem_cons_self, h ▸ ha⟩
    | ok b =>
      cases hl : l.mapM f with
      | error e' =>
        simp only [ha, hl, bind, Except.bind, Except.error.injEq] at h
        obtain ⟨a', ha', he'⟩ := mapM_except_eq_error hl
        exact ⟨a', List.mem_cons_of_mem _ ha', h ▸ he'⟩
      | ok bs => simp [ha, hl, bind, Except.bind, pure, Except.pure] at h

theorem forall_ok_of_mapM_ok :
    ∀ {l : List α} {bs : List β}, l.mapM f = .ok bs → ∀ a ∈ l, ∃ b, f a = .ok b
  | [], _, _ => by simp
  | a :: l, bs, h => by
    rw [List.mapM_cons] at h
    cases ha : f a with
    | error e => simp [ha, bind, Except.bind] at h
    | ok b =>
      cases hl : l.mapM f with
      | error e => simp [ha, hl, bind, Except.bind] at h
      | ok bs' =>
        intro a' ha'
        rcases List.mem_cons.1 ha' with rfl | ha'
        · exact ⟨b, ha⟩
        · exact forall_ok_of_mapM_ok hl a' ha'

/-- A computation followed by another fails when the first fails, or when
it succeeds and the second fails. -/
theorem except_bind_eq_error {e : ε} :
    x >>= f = .error e ↔ x = .error e ∨ ∃ a, x = .ok a ∧ f a = .error e := by
  cases x with
  | error e' => simp [bind, Except.bind]
  | ok a => simp [bind, Except.bind]

theorem except_bind_of_eq_ok {a : α} (hx : x = .ok a) : x >>= f = f a := by
  rw [hx]
  rfl

theorem except_bind_eq_error_of_ok (hf : ∀ a, x = .ok a → ∀ e, f a ≠ .error e) {e : ε} :
    x >>= f = .error e ↔ x = .error e := by
  cases x with
  | error e' => simp [bind, Except.bind]
  | ok a =>
    simp only [bind, Except.bind, reduceCtorEq, iff_false]
    exact hf a rfl e

theorem except_bind_eq_error_congr {γ : Type} {g : α → Except ε γ} {e : ε}
    (hfg : ∀ a, x = .ok a → (f a = .error e ↔ g a = .error e)) :
    x >>= f = .error e ↔ x >>= g = .error e := by
  cases x with
  | error e' => simp [bind, Except.bind]
  | ok a => exact hfg a rfl

theorem exists_mapM_eq_ok :
    ∀ {l : List α}, (∀ a ∈ l, ∃ b, f a = .ok b) → ∃ bs, l.mapM f = .ok bs
  | [], _ => ⟨[], rfl⟩
  | a :: l, h => by
    obtain ⟨b, hb⟩ := h a List.mem_cons_self
    obtain ⟨bs, hbs⟩ := exists_mapM_eq_ok fun a' ha' => h a' (List.mem_cons_of_mem _ ha')
    exact ⟨b :: bs, by rw [List.mapM_cons, hb, hbs]; rfl⟩

/-- A run of lookups fails with the first failure, once those before it go
through. -/
theorem mapM_append_cons_eq_error {a : α} {e : ε} (ha : f a = .error e) :
    ∀ {l₁ : List α} (l₂ : List α), (∀ x ∈ l₁, ∃ b, f x = .ok b) → (l₁ ++ a :: l₂).mapM f = .error e
  | [], l₂, _ => by
    rw [List.nil_append, List.mapM_cons, ha]
    rfl
  | x :: l₁, l₂, h => by
    obtain ⟨b, hb⟩ := h x List.mem_cons_self
    rw [List.cons_append, List.mapM_cons, hb,
      mapM_append_cons_eq_error ha l₂ fun y hy => h y (List.mem_cons_of_mem x hy)]
    rfl

theorem forall₂_of_mapM_eq_ok :
    ∀ {l : List α} {l' : List β}, l.mapM f = .ok l' → List.Forall₂ (fun x y => f x = .ok y) l l'
  | [], l', h => by
    rw [List.mapM_nil, except_pure_eq_ok] at h
    subst h
    exact .nil
  | x :: l, l', h => by
    rw [List.mapM_cons] at h
    obtain ⟨y, hy, h⟩ := except_bind_eq_ok.1 h
    obtain ⟨ys, hys, h⟩ := except_bind_eq_ok.1 h
    rw [except_pure_eq_ok] at h
    subst h
    exact .cons hy (forall₂_of_mapM_eq_ok hys)

/-- A fold whose every step applies `h` to the result of a lookup is the run
of the lookups, folded. -/
theorem foldlM_map_eq_map_mapM {γ : Type} {g : α → Except ε γ} {h : β → γ → β} :
    ∀ (l : List α) (init : β), l.foldlM (fun acc a => h acc <$> g a) init =
      (fun ys => ys.foldl h init) <$> l.mapM g
  | [], _ => rfl
  | a :: l, init => by
    rw [List.foldlM_cons, List.mapM_cons]
    cases g a with
    | error e => rfl
    | ok y =>
      show l.foldlM _ (h init y) = _
      rw [foldlM_map_eq_map_mapM l (h init y)]
      cases l.mapM g <;> rfl

end Except

theorem exists_mem_of_forall₂ {α β : Type} {R : α → β → Prop} {l : List α} {l' : List β}
    (h : List.Forall₂ R l l') : ∀ y ∈ l', ∃ x ∈ l, R x y := by
  induction h with
  | nil => exact fun y hy => absurd hy List.not_mem_nil
  | @cons x y l l' hxy _ ih =>
    intro z hz
    rcases List.mem_cons.1 hz with rfl | hz
    · exact ⟨x, List.mem_cons_self, hxy⟩
    · obtain ⟨w, hw, hwz⟩ := ih z hz
      exact ⟨w, List.mem_cons_of_mem _ hw, hwz⟩

/-- The values a run of lookups that goes through gathers are those of the
lookups of its inputs. -/
theorem mem_flatten_of_mapM_eq_ok {ε α β : Type} {f : α → Except ε (List β)} {l : List α}
    {ls : List (List β)} (h : l.mapM f = .ok ls) {y : β} :
    y ∈ ls.flatten ↔ ∃ a ∈ l, ∃ ys, f a = .ok ys ∧ y ∈ ys := by
  have h₂ := forall₂_of_mapM_eq_ok h
  rw [List.mem_flatten]
  constructor
  · rintro ⟨ys, hys, hy⟩
    obtain ⟨a, ha, hf⟩ := exists_mem_of_forall₂ h₂ ys hys
    exact ⟨a, ha, ys, hf, hy⟩
  · rintro ⟨a, ha, ys, hf, hy⟩
    have hflip : List.Forall₂ (flip fun x y => f x = .ok y) ls l := List.Forall₂.flip h₂
    obtain ⟨ys', hys', hf'⟩ := exists_mem_of_forall₂ hflip a ha
    have hys : ys = ys' := Except.ok.inj (hf.symm.trans hf')
    exact ⟨ys, hys ▸ hys', hy⟩

/-- A run of optional lookups that goes through pairs every input with its
output. -/
theorem forall₂_of_mapM_eq_some {α β : Type} {f : α → Option β} :
    ∀ {l : List α} {l' : List β}, l.mapM f = some l' → List.Forall₂ (fun x y => f x = some y) l l'
  | [], l', h => by
    rw [List.mapM_nil] at h
    cases h
    exact .nil
  | x :: l, l', h => by
    rw [List.mapM_cons] at h
    obtain ⟨y, hy, h⟩ := Option.bind_eq_some_iff.1 h
    obtain ⟨ys, hys, h⟩ := Option.bind_eq_some_iff.1 h
    cases h
    exact .cons hy (forall₂_of_mapM_eq_some hys)

namespace Catalog

variable {c : Catalog} {x : Component} {id y : Uuid} {k : ComponentKind}

/-- The kind registered under `id`. -/
def kindOf? (c : Catalog) (id : Uuid) : Option ComponentKind := (c.get? id).map (·.kind)

/-! ## Lookups -/

theorem get?_eq_some (h : c.get? y = some x) : x ∈ c.components ∧ x.id = y := by
  unfold get? at h
  exact ⟨List.mem_of_find?_eq_some h, by simpa using List.find?_some h⟩

theorem contains_eq_isSome : c.contains y = (c.get? y).isSome := by
  rw [Bool.eq_iff_iff]
  simp [contains, get?]

theorem contains_eq_kindOf?_isSome : c.contains y = (c.kindOf? y).isSome := by
  rw [contains_eq_isSome, kindOf?, Option.isSome_map]

theorem contains_of_mem (hx : x ∈ c.components) : c.contains x.id = true :=
  List.any_eq_true.2 ⟨x, hx, by simp⟩

theorem get?_of_contains (h : c.contains y = true) : ∃ x, c.get? y = some x := by
  rw [contains_eq_isSome] at h
  exact Option.isSome_iff_exists.1 h

theorem contains_of_get? (h : c.get? y = some x) : c.contains y = true := by
  rw [contains_eq_isSome, h]
  rfl

theorem contains_of_kindOf? (h : c.kindOf? y = some k) : c.contains y = true := by
  rw [contains_eq_isSome]
  unfold kindOf? at h
  cases hg : c.get? y with
  | none => rw [hg] at h; cases h
  | some z => rfl

theorem mem_ids_of_contains (h : c.contains y = true) : y ∈ c.components.map (·.id) := by
  simp only [contains, List.any_eq_true, beq_iff_eq] at h
  obtain ⟨z, hz, rfl⟩ := h
  exact List.mem_map.2 ⟨z, hz, rfl⟩

theorem contains_of_get (h : c.get y = .ok x) : c.contains y = true := by
  rw [contains_eq_isSome]
  unfold get at h
  cases hg : c.get? y with
  | none => rw [hg] at h; cases h
  | some z => rfl

theorem get?_of_get (h : c.get y = .ok x) : c.get? y = some x := by
  unfold get at h
  cases hg : c.get? y with
  | none => rw [hg] at h; cases h
  | some z => rw [hg] at h; cases h; rfl

theorem kindOf?_of_get (h : c.get y = .ok x) : c.kindOf? y = some x.kind := by
  rw [kindOf?, get?_of_get h]
  rfl

theorem get_of_kindOf? (h : c.kindOf? y = some k) : ∃ x, c.get y = .ok x ∧ x.kind = k := by
  unfold kindOf? at h
  cases hg : c.get? y with
  | none => rw [hg] at h; cases h
  | some x =>
    rw [hg] at h
    refine ⟨x, ?_, Option.some_inj.1 h⟩
    simp [get, hg]

theorem mem_all (h : x ∈ c.all) : x ∈ c.components := by
  simp only [all, List.mem_flatMap, ofKind, List.mem_filter] at h
  obtain ⟨-, -, hx, -⟩ := h
  exact hx

theorem isEmpty_eq : c.isEmpty = decide (c.components = []) := by
  cases h : c.components <;> simp [isEmpty, h]

theorem getOfKind_eq_ok : c.getOfKind y k = .ok x ↔ c.get? y = some x ∧ x.kind = k := by
  unfold getOfKind
  cases c.get? y with
  | none => simp
  | some z =>
    by_cases hz : z.kind = k
    · simp only [hz, if_true, Except.ok.injEq, Option.some.injEq]
      constructor
      · rintro rfl; exact ⟨rfl, hz⟩
      · rintro ⟨rfl, -⟩; rfl
    · simp only [hz, if_false, reduceCtorEq, false_iff, not_and, Option.some.injEq]
      rintro rfl; exact hz

theorem getOfKind_of_kindOf? (hk : c.kindOf? y = some k) : ∃ x, c.getOfKind y k = .ok x := by
  obtain ⟨x, hx, hxk⟩ := get_of_kindOf? hk
  exact ⟨x, getOfKind_eq_ok.2 ⟨get?_of_get hx, hxk⟩⟩

theorem getOfKind_toBool : (c.getOfKind y k).toBool = (c.kindOf? y == some k) := by
  unfold getOfKind kindOf?
  cases c.get? y with
  | none => rfl
  | some z =>
    by_cases hz : z.kind = k
    · simp [hz, Except.toBool]
    · simp [hz, Except.toBool]

theorem kindOf?_of_getOfKind (h : c.getOfKind y k = .ok x) : c.kindOf? y = some k := by
  obtain ⟨hg, hk⟩ := getOfKind_eq_ok.1 h
  simp [kindOf?, hg, hk]

/-! ## Registering -/

theorem get?_register (h : c.contains x.id = false) :
    (c.register x).get? y = if y = x.id then some x else c.get? y := by
  have hnone : ∀ z ∈ c.components, z.id ≠ x.id := by
    intro z hz he
    have : c.contains x.id = true := List.any_eq_true.2 ⟨z, hz, by simp [he]⟩
    rw [h] at this; cases this
  unfold register get?
  rw [List.find?_append]
  by_cases hy : y = x.id
  · subst hy
    have : c.components.find? (·.id == x.id) = none :=
      List.find?_eq_none.2 fun z hz => by simpa using hnone z hz
    simp [this]
  · cases hf : c.components.find? (·.id == y) with
    | some z => simp [hy]
    | none => simp [hy, Ne.symm hy]

theorem contains_register : (c.register x).contains y = (c.contains y || x.id == y) := by
  simp [register, contains, List.any_append]

theorem kindOf?_register (h : c.contains x.id = false) :
    (c.register x).kindOf? y = if y = x.id then some x.kind else c.kindOf? y := by
  unfold kindOf?
  rw [get?_register h]
  split <;> rfl

theorem insert_eq_ok {c' : Catalog} (h : c.insert x = .ok c') :
    c.contains x.id = false ∧ c' = c.register x := by
  unfold insert at h
  cases hc : c.contains x.id with
  | true => simp [hc] at h
  | false =>
    simp only [hc, Bool.false_eq_true, if_false, Except.ok.injEq] at h
    exact ⟨rfl, h.symm⟩

/-! ## Renaming and retyping -/

section Update

variable {f : Component → Component}

theorem get?_update (hid : ∀ z, (f z).id = z.id) :
    (c.update id f).get? y = (c.get? y).map fun z => if z.id == id then f z else z := by
  unfold update get?
  rw [List.find?_map]
  congr 2
  funext z
  by_cases hz : z.id = id <;> simp [hz, hid]

theorem kindOf?_update (hid : ∀ z, (f z).id = z.id) (hkind : ∀ z, (f z).kind = z.kind) :
    (c.update id f).kindOf? = c.kindOf? := by
  funext y
  unfold kindOf?
  rw [get?_update hid]
  cases c.get? y with
  | none => rfl
  | some z => by_cases hz : z.id = id <;> simp [hz, hkind]

theorem contains_update (hid : ∀ z, (f z).id = z.id) :
    (c.update id f).contains = c.contains := by
  funext y
  rw [contains_eq_isSome, contains_eq_isSome, get?_update hid]
  simp

theorem ofKind_ids_update (hid : ∀ z, (f z).id = z.id) (hkind : ∀ z, (f z).kind = z.kind)
    (k : ComponentKind) :
    ((c.update id f).ofKind k).map (·.id) = (c.ofKind k).map (·.id) := by
  unfold update ofKind
  rw [List.filter_map, List.map_map]
  have hp : ((fun x : Component => x.kind == k) ∘ fun x => if x.id == id then f x else x) =
      fun x => x.kind == k := by
    funext z; by_cases hz : z.id = id <;> simp [hz, hkind]
  have hq : ((fun x : Component => x.id) ∘ fun x => if x.id == id then f x else x) =
      fun x => x.id := by
    funext z; by_cases hz : z.id = id <;> simp [hz, hid]
  rw [hp, hq]

theorem all_ids_update (hid : ∀ z, (f z).id = z.id) (hkind : ∀ z, (f z).kind = z.kind) :
    (c.update id f).all.map (·.id) = c.all.map (·.id) := by
  simp only [all, List.map_flatMap, ofKind_ids_update hid hkind]

theorem size_update : (c.update id f).size = c.size := by
  simp [size, update]

theorem isEmpty_update : (c.update id f).isEmpty = c.isEmpty := by
  simp [isEmpty, update]

end Update

theorem setName_eq_ok {c' : Catalog} {n : String} (h : c.setName id k n = .ok c') :
    c.kindOf? id = some k ∧ c' = c.update id (·.rename n) := by
  obtain ⟨z, hz, he⟩ := except_bind_eq_ok.1 h
  exact ⟨kindOf?_of_getOfKind hz, (except_pure_eq_ok.1 he).symm⟩

theorem setType_eq_ok {c' : Catalog} {t : ComponentType} (h : c.setType id t = .ok c') :
    c.kindOf? id = some t.kind ∧ c' = c.update id (·.retype t) := by
  obtain ⟨z, hz, he⟩ := except_bind_eq_ok.1 h
  exact ⟨kindOf?_of_getOfKind hz, (except_pure_eq_ok.1 he).symm⟩

/-! ## Removing -/

/-- The catalog without the component `id`. -/
def without (c : Catalog) (id : Uuid) : Catalog := ⟨c.components.filter (·.id != id)⟩

theorem get?_without : (c.without id).get? y = if y = id then none else c.get? y := by
  unfold without get?
  rw [List.find?_filter]
  by_cases hy : y = id
  · subst hy
    simp only [if_true, List.find?_eq_none]
    intro z _; simp
  · rw [if_neg hy]
    congr 1
    funext z
    by_cases hz : z.id = y
    · simp [hz, hy]
    · simp [hz]

theorem kindOf?_without : (c.without id).kindOf? y = if y = id then none else c.kindOf? y := by
  unfold kindOf?
  rw [get?_without]
  split <;> rfl

theorem contains_without : (c.without id).contains y = (y != id && c.contains y) := by
  rw [contains_eq_isSome, contains_eq_isSome, get?_without]
  by_cases hy : y = id <;> simp [hy]

theorem remove_of_getOfKind (h : c.getOfKind id k = .ok x) : c.remove id k = .ok (x, c.without id) := by
  unfold remove
  rw [except_bind_of_eq_ok h]
  rfl

theorem remove_eq_ok {c' : Catalog} {z : Component} (h : c.remove id k = .ok (z, c')) :
    c.kindOf? id = some k ∧ c' = c.without id := by
  obtain ⟨w, hw, he⟩ := except_bind_eq_ok.1 h
  simp only [except_pure_eq_ok, Prod.mk.injEq] at he
  exact ⟨kindOf?_of_getOfKind hw, he.2.symm⟩

end Catalog

end Subsurface
