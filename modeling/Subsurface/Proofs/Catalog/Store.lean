import Subsurface.Topology.Store
import Subsurface.Proofs.IdSet
import Subsurface.Proofs.Catalog.Reachable
/-!
The three stores of a catalog move in lockstep.

A store is in lockstep (`Store.Lockstep`) when every free slot of its arena
is empty and listed once, every identifier of the index names an occupied
slot that holds the component of that identifier, and the set of each kind
is well formed. Such a store stands for a list catalog (`Store.Represents`)
when a lookup through the index and the arena finds what the catalog finds,
the set of each kind lists what the catalog lists of that kind, and the
occupied slots are as many as the catalog's components; every query of the
store then answers as the same query of the catalog (`Represents.agrees`).

Each call on the store is the same call on the catalog it stands for, and
keeps both facts (`Store.Step.simulate`): registering fills a free slot, so
no component that the index names is overwritten; renaming and retyping
write only the slot of the component checked; and removing, once the kind
is checked, cannot fail, so the identifier leaves the index, the set of its
kind and the arena together, and a failed removal writes nothing
(`Store.remove_failsCleanly`). So every store the calls reach stands for a
catalog the same calls reach, and what holds of those catalogs holds of the
store's own queries (`Store.reachable_store_consistent`).
-/

namespace Subsurface

namespace Arena

variable {a : Arena} {x : Component} {key i : Nat}

/-- Every free slot is empty, and listed once. -/
structure WF (a : Arena) : Prop where
  nodup : a.free.Nodup
  vacant : ∀ i ∈ a.free, a.slots[i]? = some none

theorem wf_empty : empty.WF := ⟨List.nodup_nil, fun _ h => by cases h⟩

theorem get?_set (h : key < a.slots.length) (v : Option Component) (free : List Nat) (i : Nat) :
    (⟨a.slots.set key v, free⟩ : Arena).get? i = if i = key then v else a.get? i := by
  unfold get?
  rw [List.getElem?_set]
  by_cases hi : i = key
  · simp [hi, h]
  · simp [Ne.symm hi, hi]

/-- Writing a slot changes the number of occupied slots by what it writes
less what it overwrites. -/
theorem size_set {v₀ : Option Component} (h : a.slots[key]? = some v₀) (v : Option Component)
    (free : List Nat) :
    (⟨a.slots.set key v, free⟩ : Arena).size + (if v₀.isSome then 1 else 0) =
      a.size + (if v.isSome then 1 else 0) := by
  obtain ⟨hk, hv⟩ := List.getElem?_eq_some_iff.1 h
  have hle : (if v₀.isSome then 1 else 0) ≤ a.size := by
    split
    · exact List.countP_pos_iff.2 ⟨v₀, hv ▸ List.getElem_mem hk, by simpa using ‹_›⟩
    · exact Nat.zero_le _
  unfold size
  rw [List.countP_set hk, hv]
  unfold size at hle
  split_ifs at hle ⊢ <;> omega

theorem slot_of_get? (h : a.get? key = some x) : a.slots[key]? = some (some x) := by
  unfold get? at h
  cases hs : a.slots[key]? with
  | none => rw [hs] at h; cases h
  | some v => rw [hs] at h; cases h; rfl

theorem lt_of_get? (h : a.get? key = some x) : key < a.slots.length :=
  (List.getElem?_eq_some_iff.1 (slot_of_get? h)).1

theorem WF.not_mem_free (ha : a.WF) (h : a.get? key = some x) : key ∉ a.free := by
  intro hm
  have hs := slot_of_get? h
  rw [ha.vacant key hm] at hs
  cases hs

theorem WF.set (ha : a.WF) (h : a.get? key = some x) (v : Component) :
    (⟨a.slots.set key (some v), a.free⟩ : Arena).WF where
  nodup := ha.nodup
  vacant i hi := by
    have hne : key ≠ i := fun he => ha.not_mem_free h (he ▸ hi)
    rw [List.getElem?_set, if_neg hne]
    exact ha.vacant i hi

/-! ### Registering -/

theorem insert_key (ha : a.WF) :
    a.get? (a.insert x).1 = none ∧ ∀ i, (a.insert x).2.get? i =
      if i = (a.insert x).1 then some x else a.get? i := by
  unfold insert
  cases hf : a.free with
  | cons key rest =>
    have hv := ha.vacant key (hf ▸ List.mem_cons_self)
    have hk := (List.getElem?_eq_some_iff.1 hv).1
    refine ⟨by simp [get?, hv], fun i => ?_⟩
    exact get?_set hk (some x) rest i
  | nil =>
    refine ⟨by simp [get?], fun i => ?_⟩
    unfold get?
    rw [List.getElem?_append]
    by_cases hi : i = a.slots.length
    · simp [hi]
    · by_cases hlt : i < a.slots.length
      · simp [hi, hlt]
      · have hnil : a.slots[i]? = none := List.getElem?_eq_none (by omega)
        have hnil' : [some x][i - a.slots.length]? = none := List.getElem?_eq_none (by simp; omega)
        simp [hi, hlt, hnil']

theorem size_insert (ha : a.WF) : (a.insert x).2.size = a.size + 1 := by
  unfold insert
  cases hf : a.free with
  | cons key rest =>
    have hset := size_set (ha.vacant key (hf ▸ List.mem_cons_self)) (some x) rest
    simpa using hset
  | nil => simp [size, List.countP_append]

theorem WF.insert (ha : a.WF) : (a.insert x).2.WF := by
  unfold Arena.insert
  cases hf : a.free with
  | cons key rest =>
    obtain ⟨hnot, hnodup⟩ := List.nodup_cons.1 (hf ▸ ha.nodup)
    refine ⟨hnodup, fun i hi => ?_⟩
    have hne : key ≠ i := fun he => hnot (he ▸ hi)
    rw [List.getElem?_set, if_neg hne]
    exact ha.vacant i (hf ▸ List.mem_cons_of_mem _ hi)
  | nil => exact ⟨List.nodup_nil, fun _ h => by cases h⟩

/-! ### Taking a component out -/

theorem remove_eq (h : a.get? key = some x) :
    a.remove key = some (x, ⟨a.slots.set key none, key :: a.free⟩) := by
  rw [remove, h]
  rfl

theorem WF.remove (ha : a.WF) (h : a.get? key = some x) :
    (⟨a.slots.set key none, key :: a.free⟩ : Arena).WF where
  nodup := List.nodup_cons.2 ⟨ha.not_mem_free h, ha.nodup⟩
  vacant i hi := by
    rw [List.getElem?_set]
    rcases List.mem_cons.1 hi with rfl | hi
    · simp [lt_of_get? h]
    · have hne : key ≠ i := fun he => ha.not_mem_free h (he ▸ hi)
      rw [if_neg hne]
      exact ha.vacant i hi

theorem modify?_eq (h : a.get? key = some x) (f : Component → Component) :
    a.modify? key f = some ⟨a.slots.set key (some (f x)), a.free⟩ := by
  rw [modify?, h]
  rfl

end Arena

namespace Catalog

variable {c : Catalog} {x : Component} {id : Uuid}

theorem Distinct.size_without (hc : c.Distinct) (hx : c.get? id = some x) :
    (c.without id).size + 1 = c.size := by
  obtain ⟨hmem, rfl⟩ := get?_eq_some hx
  have hone : (c.components.map (·.id)).count x.id = 1 :=
    List.count_eq_one_of_mem hc (List.mem_map_of_mem hmem)
  have hsplit := List.length_eq_length_filter_add (l := c.components) fun z => z.id != x.id
  rw [List.count_eq_countP, List.countP_map, List.countP_eq_length_filter] at hone
  have hp : ((fun z : Uuid => z == x.id) ∘ fun z : Component => z.id) =
      fun z => !(z.id != x.id) := by
    funext z
    simp [bne]
  rw [hp] at hone
  show (c.components.filter (·.id != x.id)).length + 1 = c.components.length
  omega

theorem size_register : (c.register x).size = c.size + 1 := by
  simp [size, register]

end Catalog

namespace Store

variable {s : Store} {c : Catalog} {x : Component} {id y : Uuid} {k : ComponentKind} {key : Nat}

theorem lookup_filter (idx : List (Uuid × Nat)) (id y : Uuid) :
    (idx.filter (·.1 != id)).lookup y = if y = id then none else idx.lookup y := by
  induction idx with
  | nil => simp
  | cons e idx ih =>
    obtain ⟨z, n⟩ := e
    by_cases hz : z = id
    · subst hz
      rw [List.filter_cons_of_neg (by simp), ih, lookup_cons_ite]
      by_cases hy : y = z <;> simp [hy]
    · rw [List.filter_cons_of_pos (by simpa using hz), lookup_cons_ite, lookup_cons_ite, ih]
      by_cases hy : y = id
      · simp [hy, Ne.symm hz]
      · simp [hy]

theorem updateKind_self (sets : ComponentKind → IdSet) (f : IdSet → IdSet) :
    updateKind sets k f k = f (sets k) := if_pos rfl

theorem updateKind_of_ne {k' : ComponentKind} (sets : ComponentKind → IdSet) (f : IdSet → IdSet)
    (h : k' ≠ k) : updateKind sets k f k' = sets k' := if_neg h

theorem updateKind_wf {sets : ComponentKind → IdSet} (hs : ∀ k, (sets k).WF) (k : ComponentKind)
    (f : IdSet → IdSet) (hf : (f (sets k)).WF) (k' : ComponentKind) : (updateKind sets k f k').WF := by
  by_cases hk : k' = k
  · rw [hk, updateKind_self]
    exact hf
  · rw [updateKind_of_ne _ _ hk]
    exact hs k'

/-- The stores agree with one another: every free slot of the arena is empty
and listed once, every identifier the index records names an occupied slot
that holds the component of that identifier, and the set of each kind is
well formed. -/
structure Lockstep (s : Store) : Prop where
  arena : s.arena.WF
  index : ∀ y key, s.index.lookup y = some key → ∃ x, s.arena.get? key = some x ∧ x.id = y
  sets : ∀ k, (s.byKind k).WF

theorem lockstep_empty : empty.Lockstep where
  arena := Arena.wf_empty
  index _ _ h := by cases h
  sets _ := IdSet.wf_empty

namespace Lockstep

variable (h : s.Lockstep)
include h

theorem eq_of_lookup (hy : s.index.lookup y = some key) (hid : s.index.lookup id = some key) :
    y = id := by
  obtain ⟨x, hx, rfl⟩ := h.index y key hy
  obtain ⟨x', hx', rfl⟩ := h.index id key hid
  rw [hx] at hx'
  rw [Option.some.inj hx']

theorem contains_eq (y : Uuid) : s.contains y = (s.get? y).isSome := by
  unfold contains get?
  cases hy : s.index.lookup y with
  | none => rfl
  | some key =>
    obtain ⟨x, hx, -⟩ := h.index y key hy
    simp [hx]

theorem key_ne {key' : Nat} (hkey : s.index.lookup id = some key)
    (hy : s.index.lookup y = some key') (hne : y ≠ id) : key' ≠ key :=
  fun he => hne (h.eq_of_lookup hy (he ▸ hkey))

theorem id_of_get? (hg : s.get? y = some x) : x.id = y := by
  obtain ⟨key, hkey, hx⟩ := Option.bind_eq_some_iff.1 hg
  obtain ⟨x', hx', rfl⟩ := h.index y key hkey
  rw [hx] at hx'
  rw [Option.some.inj hx']

end Lockstep

/-- The store stands for the catalog `c`: a lookup finds what the catalog
finds, the set of each kind lists what the catalog lists of that kind, and
the store holds as many components. -/
structure Represents (s : Store) (c : Catalog) : Prop where
  get? : ∀ y, s.get? y = c.get? y
  ids : ∀ k, s.ids k = c.ids k
  size : s.size = c.size

/-- Every query of the store answers as the same query of the catalog. -/
structure Agrees (s : Store) (c : Catalog) : Prop where
  contains : ∀ y, s.contains y = c.contains y
  get : ∀ y, s.get y = c.get y
  getOfKind : ∀ y k, s.getOfKind y k = c.getOfKind y k
  ids : ∀ k, s.ids k = c.ids k
  count : ∀ k, s.count k = c.count k
  size : s.size = c.size
  isEmpty : s.isEmpty = c.isEmpty
  all : s.all = c.all
  findByName : ∀ k name, s.findByName k name = c.findByName k name

theorem Represents.agrees (hl : s.Lockstep) (hc : c.Distinct) (h : s.Represents c) :
    s.Agrees c := by
  have hget? : s.get? = c.get? := funext h.get?
  have hget : ∀ y, s.get y = c.get y := fun y => by
    cases hy : c.get? y with
    | none => simp only [Store.get, Catalog.get, hget?, hy]
    | some x => simp only [Store.get, Catalog.get, hget?, hy]
  have hofKind : s.ofKind = c.ofKind := funext fun k => by
    rw [Store.ofKind, h.ids k, hget?, hc.ofKind_eq_filterMap]
  refine ⟨fun y => ?_, hget, fun y k => ?_, h.ids, fun k => ?_, h.size, ?_, ?_, fun k name => ?_⟩
  · rw [hl.contains_eq, hget?, Catalog.contains_eq_isSome]
  · unfold Store.getOfKind Catalog.getOfKind
    rw [hget]
    unfold Catalog.get
    cases c.get? y <;> rfl
  · rw [Store.count, (hl.sets k).size_eq, ← Store.ids, h.ids, Catalog.count_eq_length_ids]
  · rw [Store.isEmpty, Catalog.isEmpty_eq, h.size, Catalog.size]
    cases c.components <;> rfl
  · rw [Store.all, Catalog.all, hofKind]
  · rw [Store.findByName, Catalog.findByName, hofKind]

theorem represents_empty : empty.Represents Catalog.empty where
  get? _ := rfl
  ids _ := rfl
  size := rfl

theorem getOfKind_eq_ok : s.getOfKind id k = .ok x ↔ s.get? id = some x ∧ x.kind = k := by
  unfold getOfKind get
  cases s.get? id with
  | none => simp
  | some z =>
    dsimp only
    by_cases hz : z.kind = k
    · rw [if_pos hz]
      constructor
      · intro he
        cases he
        exact ⟨rfl, hz⟩
      · rintro ⟨he, -⟩
        cases he
        rfl
    · rw [if_neg hz]
      constructor
      · intro he
        cases he
      · rintro ⟨he, hk⟩
        cases he
        exact absurd hk hz

theorem slot_of_get? (hg : s.get? id = some x) :
    ∃ key, s.index.lookup id = some key ∧ s.arena.get? key = some x :=
  Option.bind_eq_some_iff.1 hg

/-! ## Registering -/

theorem lookup_register (y : Uuid) :
    (s.register x).index.lookup y = if y = x.id then some (s.arena.insert x).1 else s.index.lookup y :=
  IdSet.lookup_record _ _ _ _

theorem get?_register_arena (hl : s.Lockstep) {z : Component} (hz : s.arena.get? key = some z) :
    (s.register x).arena.get? key = some z := by
  obtain ⟨hfree, hslot⟩ := Arena.insert_key (x := x) hl.arena
  have hne : key ≠ (s.arena.insert x).1 := fun he => by
    rw [he, hfree] at hz
    cases hz
  exact (hslot key).trans (if_neg hne) |>.trans hz

theorem Lockstep.register (hl : s.Lockstep) (x : Component) : (s.register x).Lockstep where
  arena := hl.arena.insert
  index y key hy := by
    rw [lookup_register] at hy
    split at hy
    · next hyx =>
      rw [← Option.some.inj hy]
      exact ⟨x, ((Arena.insert_key hl.arena).2 _).trans (if_pos rfl), hyx.symm⟩
    · obtain ⟨z, hz, hzid⟩ := hl.index y key hy
      exact ⟨z, get?_register_arena hl hz, hzid⟩
  sets := updateKind_wf hl.sets x.kind (fun ids => (ids.insert x.id).2)
    ((hl.sets x.kind).insert x.id).1

theorem get?_register (hl : s.Lockstep) (y : Uuid) :
    (s.register x).get? y = if y = x.id then some x else s.get? y := by
  unfold Store.get?
  rw [lookup_register]
  by_cases hy : y = x.id
  · rw [if_pos hy, if_pos hy, Option.bind_some]
    exact ((Arena.insert_key hl.arena).2 _).trans (if_pos rfl)
  · rw [if_neg hy, if_neg hy]
    cases hk : s.index.lookup y with
    | none => rfl
    | some key =>
      obtain ⟨z, hz, -⟩ := hl.index y key hk
      rw [Option.bind_some, Option.bind_some]
      exact (get?_register_arena hl hz).trans hz.symm

theorem ids_register (k : ComponentKind) :
    (s.register x).ids k = if k = x.kind then ((s.byKind k).insert x.id).2.toList else s.ids k := by
  show (updateKind s.byKind x.kind (fun ids => (ids.insert x.id).2) k).toList = _
  by_cases hk : k = x.kind
  · rw [if_pos hk, hk, updateKind_self]
  · rw [if_neg hk, updateKind_of_ne _ _ hk]
    rfl

theorem Represents.register (hl : s.Lockstep) (h : s.Represents c)
    (hfresh : c.contains x.id = false) : (s.register x).Represents (c.register x) where
  get? y := by rw [get?_register hl, Catalog.get?_register hfresh, h.get? y]
  ids k := by
    rw [ids_register, Catalog.ids_register]
    by_cases hk : k = x.kind
    · -- the new identifier is not listed yet
      have hnot : x.id ∉ (s.byKind k).toList := fun hm => by
        have hmem : x.id ∈ c.ids k := by
          rw [← h.ids k]
          exact hm
        rw [Catalog.contains_of_mem_ids hmem] at hfresh
        cases hfresh
      rw [if_pos hk, ((hl.sets k).insert x.id).2, if_neg hnot, if_pos hk.symm]
      exact congrArg (· ++ [x.id]) (h.ids k)
    · rw [if_neg hk, if_neg (Ne.symm hk), List.append_nil]
      exact h.ids k
  size := by
    rw [Catalog.size_register, ← h.size]
    exact Arena.size_insert hl.arena

/-! ## Calls that succeed or fail as a whole -/

/-- The results of one call on the store and on the catalog it stands for:
one error, or a store in lockstep standing for the catalog. -/
def Corresponds : Except Error Store → Except Error Catalog → Prop
  | .ok t, .ok c' => t.Lockstep ∧ t.Represents c'
  | .error e, .error e' => e = e'
  | _, _ => False

theorem Corresponds.after {f : Store → Except Error Store} {r : Except Error Catalog}
    (hl : s.Lockstep) (h : s.Represents c) (hr : Corresponds (f s) r) :
    ((InPlace.apply f).runOn s).2.Lockstep ∧ ((InPlace.apply f).runOn s).2.Represents (c.after r) := by
  rw [InPlace.runOn_apply]
  cases hf : f s with
  | error e =>
    rw [hf] at hr
    cases r with
    | error e' => exact ⟨hl, h⟩
    | ok c' => exact hr.elim
  | ok t =>
    rw [hf] at hr
    cases r with
    | error e' => exact hr.elim
    | ok c' => exact hr

theorem insert_corresponds (hl : s.Lockstep) (hc : c.Distinct) (h : s.Represents c)
    (x : Component) : Corresponds (s.insert x) (c.insert x) := by
  unfold Store.insert Catalog.insert
  rw [(h.agrees hl hc).contains x.id]
  cases hx : c.contains x.id with
  | true => exact rfl
  | false => exact ⟨hl.register x, h.register hl hx⟩

/-- The store after writing `v` into slot `key`. -/
def writeSlot (s : Store) (key : Nat) (v : Component) : Store :=
  { s with arena := ⟨s.arena.slots.set key (some v), s.arena.free⟩ }

theorem modifyOfKind_of_error {e : Error} {f : Component → Component}
    (hg : s.getOfKind id k = .error e) : s.modifyOfKind id k f = .error e := by
  unfold modifyOfKind
  rw [hg]
  rfl

theorem modifyOfKind_of_ok {f : Component → Component} (hg : s.getOfKind id k = .ok x) :
    ∃ key, s.index.lookup id = some key ∧ s.arena.get? key = some x ∧
      s.modifyOfKind id k f = .ok (s.writeSlot key (f x)) := by
  obtain ⟨key, hkey, hx⟩ := slot_of_get? (getOfKind_eq_ok.1 hg).1
  refine ⟨key, hkey, hx, ?_⟩
  unfold modifyOfKind
  simp only [hg, bind, Except.bind, hkey, Option.bind_some, Arena.modify?_eq hx]
  rfl

section Write

variable (hl : s.Lockstep) (hkey : s.index.lookup id = some key) (hx : s.arena.get? key = some x)
include hl hkey hx

theorem get?_writeSlot (v : Component) (y : Uuid) :
    (s.writeSlot key v).get? y = if y = id then some v else s.get? y := by
  unfold Store.get?
  show (s.index.lookup y).bind (Arena.get? ⟨s.arena.slots.set key (some v), s.arena.free⟩) = _
  cases hy : s.index.lookup y with
  | none =>
    have hne : y ≠ id := fun he => by
      rw [he, hkey] at hy
      cases hy
    rw [if_neg hne]
    rfl
  | some key' =>
    rw [Option.bind_some, Option.bind_some, Arena.get?_set (Arena.lt_of_get? hx)]
    by_cases hyid : y = id
    · have hk : key' = key := by
        rw [hyid, hkey] at hy
        exact (Option.some.inj hy).symm
      rw [if_pos hk, if_pos hyid]
    · rw [if_neg (hl.key_ne hkey hy hyid), if_neg hyid]

theorem Lockstep.writeSlot {v : Component} (hv : v.id = id) : (s.writeSlot key v).Lockstep where
  arena := hl.arena.set hx v
  index y key' hy := by
    show ∃ z, Arena.get? ⟨s.arena.slots.set key (some v), s.arena.free⟩ key' = some z ∧ z.id = y
    rw [Arena.get?_set (Arena.lt_of_get? hx)]
    by_cases hk : key' = key
    · rw [if_pos hk]
      exact ⟨v, rfl, hv.trans (hl.eq_of_lookup hy (hk ▸ hkey)).symm⟩
    · rw [if_neg hk]
      exact hl.index y key' hy
  sets := hl.sets

theorem Represents.writeSlot (h : s.Represents c) {f : Component → Component}
    (hid : ∀ z, (f z).id = z.id) (hkind : ∀ z, (f z).kind = z.kind) :
    (s.writeSlot key (f x)).Represents (c.update id f) where
  get? y := by
    have hget : s.get? id = some x := by simp [Store.get?, hkey, hx]
    rw [get?_writeSlot hl hkey hx, Catalog.get?_update hid, ← h.get? y]
    by_cases hy : y = id
    · rw [if_pos hy, hy, hget, Option.map_some, hl.id_of_get? hget]
      simp
    · rw [if_neg hy]
      cases hg : s.get? y with
      | none => rfl
      | some z => simp [hl.id_of_get? hg, hy]
  ids k := (h.ids k).trans (Catalog.ofKind_ids_update hid hkind k).symm
  size := by
    have hset := Arena.size_set (Arena.slot_of_get? hx) (some (f x)) s.arena.free
    simp only [Option.isSome_some, if_true, Nat.add_right_cancel_iff] at hset
    rw [Catalog.size_update, ← h.size]
    exact hset

end Write

theorem modify_corresponds (hl : s.Lockstep) (hc : c.Distinct) (h : s.Represents c)
    {f : Component → Component} (hid : ∀ z, (f z).id = z.id) (hkind : ∀ z, (f z).kind = z.kind) :
    Corresponds (s.modifyOfKind id k f) (c.getOfKind id k >>= fun _ => pure (c.update id f)) := by
  rw [← (h.agrees hl hc).getOfKind id k]
  cases hg : s.getOfKind id k with
  | error e =>
    rw [modifyOfKind_of_error hg]
    rfl
  | ok x =>
    obtain ⟨key, hkey, hx, hm⟩ := modifyOfKind_of_ok (f := f) hg
    rw [hm]
    have hxid : x.id = id := hl.id_of_get? (getOfKind_eq_ok.1 hg).1
    exact ⟨hl.writeSlot hkey hx ((hid x).trans hxid), h.writeSlot hl hkey hx hid hkind⟩

/-! ## Removing -/

/-- The store a removal leaves once the kind is checked: `id` out of the
index and out of the set of `k`, and slot `key` freed. -/
def removed (s : Store) (id : Uuid) (k : ComponentKind) (key : Nat) : Store :=
  ⟨⟨s.arena.slots.set key none, key :: s.arena.free⟩, s.index.filter (·.1 != id),
    updateKind s.byKind k fun ids => (ids.erase id).2⟩

theorem takeSlot_mk {a : Arena} {idx : List (Uuid × Nat)} {sets : ComponentKind → IdSet}
    (hx : a.get? key = some x) :
    (Store.mk a idx sets).takeSlot key id k = .ok (x, ⟨a.slots.set key none, key :: a.free⟩) := by
  unfold takeSlot
  rw [Arena.remove_eq hx]

theorem remove_runOn_of_error {e : Error} (hg : s.getOfKind id k = .error e) :
    (remove id k).runOn s = (.error e, s) := by
  unfold remove
  rw [InPlace.runOn_bind, InPlace.runOn_get]
  dsimp only
  rw [InPlace.runOn_lift_bind, hg]

/-- Once the kind is checked, removing cannot fail: the check found the
component through the index and its slot. -/
theorem remove_runOn_of_ok (hg : s.getOfKind id k = .ok x) :
    ∃ key, s.index.lookup id = some key ∧ s.arena.get? key = some x ∧
      (remove id k).runOn s = (.ok x, s.removed id k key) := by
  obtain ⟨key, hkey, hx⟩ := slot_of_get? (getOfKind_eq_ok.1 hg).1
  have hkeyOf : s.keyOf id k = .ok key := by
    unfold keyOf
    rw [hkey]
  refine ⟨key, hkey, hx, ?_⟩
  unfold remove
  simp only [InPlace.runOn_bind, InPlace.runOn_get, InPlace.runOn_lift, hg, hkeyOf,
    InPlace.runOn_modify, takeSlot_mk hx, InPlace.runOn_set, InPlace.runOn_pure]
  rfl

theorem remove_failsCleanly (id : Uuid) (k : ComponentKind) : InPlace.FailsCleanly (remove id k) s := by
  intro err t h
  cases hg : s.getOfKind id k with
  | error e =>
    rw [remove_runOn_of_error hg] at h
    exact (Prod.mk.inj h).2.symm
  | ok x =>
    obtain ⟨key, -, -, hrun⟩ := remove_runOn_of_ok hg
    rw [hrun] at h
    cases h

section Remove

variable (hl : s.Lockstep) (hkey : s.index.lookup id = some key) (hx : s.arena.get? key = some x)
include hl hkey hx

theorem get?_removed (y : Uuid) : (s.removed id k key).get? y = if y = id then none else s.get? y := by
  unfold Store.get?
  show ((s.index.filter (·.1 != id)).lookup y).bind
    (Arena.get? ⟨s.arena.slots.set key none, key :: s.arena.free⟩) = _
  rw [lookup_filter]
  by_cases hy : y = id
  · rw [if_pos hy, if_pos hy]
    rfl
  · rw [if_neg hy, if_neg hy]
    cases hk : s.index.lookup y with
    | none => rfl
    | some key' =>
      rw [Option.bind_some, Option.bind_some, Arena.get?_set (Arena.lt_of_get? hx),
        if_neg (hl.key_ne hkey hk hy)]

theorem Lockstep.removed : (s.removed id k key).Lockstep where
  arena := hl.arena.remove hx
  index y key' hy := by
    change (s.index.filter (·.1 != id)).lookup y = some key' at hy
    rw [lookup_filter] at hy
    split at hy
    · cases hy
    · next hne =>
      obtain ⟨z, hz, hzid⟩ := hl.index y key' hy
      refine ⟨z, ?_, hzid⟩
      show Arena.get? ⟨s.arena.slots.set key none, key :: s.arena.free⟩ key' = some z
      rw [Arena.get?_set (Arena.lt_of_get? hx), if_neg (hl.key_ne hkey hy hne)]
      exact hz
  sets := updateKind_wf hl.sets k (fun ids => (ids.erase id).2) ((hl.sets k).erase id).1

theorem Represents.removed (hc : c.Distinct) (h : s.Represents c) (hg : s.getOfKind id k = .ok x) :
    (s.removed id k key).Represents (c.without id) where
  get? y := by rw [get?_removed hl hkey hx, Catalog.get?_without, h.get? y]
  ids k' := by
    show (updateKind s.byKind k (fun ids => (ids.erase id).2) k').toList = _
    rw [Catalog.ids_without]
    by_cases hk : k' = k
    · rw [hk, updateKind_self, ((hl.sets k).erase id).2]
      change (s.ids k).erase id = _
      rw [h.ids k, (hc.ids_nodup k).erase_eq_filter]
    · -- `id` is of kind `k`, so the listing of another kind does not hold it
      have hnot : id ∉ c.ids k' := fun hm => by
        obtain ⟨z, hz, hzk⟩ := hc.mem_ids_iff.1 hm
        obtain ⟨hget, hxk⟩ := getOfKind_eq_ok.1 hg
        rw [h.get? id, Catalog.get?_of_get hz, Option.some.injEq] at hget
        exact hk (hzk.symm.trans (hget ▸ hxk))
      rw [updateKind_of_ne _ _ hk]
      change s.ids k' = _
      rw [h.ids k', List.filter_eq_self.2 fun y hy => bne_iff_ne.2 fun he : y = id => hnot (he ▸ hy)]
  size := by
    have hset := Arena.size_set (Arena.slot_of_get? hx) none (key :: s.arena.free)
    have hcat := hc.size_without (h.get? id ▸ (getOfKind_eq_ok.1 hg).1)
    simp only [Option.isSome_some, Option.isSome_none, if_true] at hset
    have hs : s.size = c.size := h.size
    show Arena.size ⟨s.arena.slots.set key none, key :: s.arena.free⟩ = _
    unfold Store.size at hs
    simp only [Bool.false_eq_true, if_false, Nat.add_zero] at hset
    omega

end Remove

theorem remove_simulates (hl : s.Lockstep) (hc : c.Distinct) (h : s.Represents c)
    (id : Uuid) (k : ComponentKind) :
    ((remove id k).runOn s).2.Lockstep ∧
      ((remove id k).runOn s).2.Represents (c.after ((c.remove id k).map Prod.snd)) := by
  have hgc := (h.agrees hl hc).getOfKind id k
  cases hg : s.getOfKind id k with
  | error e =>
    rw [hg] at hgc
    have hcr : (c.remove id k).map Prod.snd = .error e := by
      unfold Catalog.remove
      rw [← hgc]
      rfl
    rw [remove_runOn_of_error hg, hcr]
    exact ⟨hl, h⟩
  | ok x =>
    rw [hg] at hgc
    obtain ⟨key, hkey, hx, hrun⟩ := remove_runOn_of_ok hg
    rw [hrun, Catalog.remove_of_getOfKind hgc.symm]
    exact ⟨hl.removed hkey hx, h.removed hl hkey hx hc hg⟩

/-! ## Every reachable store -/

/-- One call on the store. Every call edits the store in place, and the
store after it is the one the edit leaves, whether it succeeds or fails.
Creating draws identifiers until one is free; a component handed to
`insert` has a type that fits its kind. -/
inductive Step : Store → Store → Prop
  | create {s : Store} (k : ComponentKind) (id : Uuid) (hfresh : s.contains id = false) :
      Step s (s.register (.new id k))
  | createWithId {s : Store} (k : ComponentKind) (id : Uuid) :
      Step s ((InPlace.apply fun t : Store => t.createWithId k id).runOn s).2
  | insert {s : Store} (x : Component) (hx : x.TypeFits) :
      Step s ((InPlace.apply fun t : Store => t.insert x).runOn s).2
  | setName {s : Store} (id : Uuid) (k : ComponentKind) (name : String) :
      Step s ((InPlace.apply fun t : Store => t.setName id k name).runOn s).2
  | setType {s : Store} (id : Uuid) (t : ComponentType) :
      Step s ((InPlace.apply fun u : Store => u.setType id t).runOn s).2
  | remove {s : Store} (id : Uuid) (k : ComponentKind) : Step s ((remove id k).runOn s).2

/-- Stores reached from the empty one by calls. -/
def Reachable (s : Store) : Prop := Relation.ReflTransGen Step empty s

/-- Each call on a store in lockstep is the same call on the catalog it
stands for, and leaves a store in lockstep that stands for the catalog that
call leaves. -/
theorem Step.simulate {s' : Store} (hl : s.Lockstep) (hc : c.WellFormed) (h : s.Represents c)
    (hs : Step s s') : ∃ c', Catalog.Step c c' ∧ s'.Lockstep ∧ s'.Represents c' := by
  have hd := hc.distinct
  cases hs with
  | create k id hfresh =>
    have hfresh' : c.contains id = false := (h.agrees hl hd).contains id ▸ hfresh
    exact ⟨_, .create k id hfresh', hl.register _, h.register hl hfresh'⟩
  | createWithId k id => exact ⟨_, .createWithId k id, (insert_corresponds hl hd h _).after hl h⟩
  | insert x hx => exact ⟨_, .insert x hx, (insert_corresponds hl hd h x).after hl h⟩
  | setName id k name =>
    exact ⟨_, .setName id k name, (modify_corresponds hl hd h (fun z => z.id_rename name)
      fun z => z.kind_rename name).after hl h⟩
  | setType id t =>
    exact ⟨_, .setType id t, (modify_corresponds hl hd h (fun z => z.id_retype t)
      fun z => z.kind_retype t).after hl h⟩
  | remove id k => exact ⟨_, .remove id k, remove_simulates hl hd h id k⟩

/-- Every reachable store is in lockstep and stands for a catalog that the
same calls reach. -/
theorem Reachable.simulate (h : s.Reachable) : s.Lockstep ∧ ∃ c, c.Reachable ∧ s.Represents c := by
  induction h with
  | refl => exact ⟨lockstep_empty, Catalog.empty, .refl, represents_empty⟩
  | tail _ hs ih =>
    obtain ⟨hl, c, hc, h⟩ := ih
    obtain ⟨c', hstep, hl', h'⟩ := hs.simulate hl hc.wellFormed h
    exact ⟨hl', c', hc.tail hstep, h'⟩

/-- A call on the store is the same call on the catalog, which changes no
component's kind and keeps every listing in registration order. -/
theorem Step.transition {s' : Store} (hl : s.Lockstep) (hc : c.WellFormed) (h : s.Represents c)
    (hs : Step s s') : ∃ c', Catalog.Step c c' ∧ s'.Agrees c' ∧ c.Transition c' := by
  obtain ⟨c', hstep, hl', h'⟩ := hs.simulate hl hc h
  exact ⟨c', hstep, h'.agrees hl' (hc.step hstep).distinct, hstep.transition⟩

theorem setType_get {s' : Store} {t : ComponentType} (hl : s.Lockstep) (hc : c.WellFormed)
    (h : s.Represents c) (hs : s.setType id t = .ok s') :
    ∃ x, s'.get id = .ok x ∧ x.kind = t.kind ∧ x.type = t.normalized := by
  have hcorr : Corresponds (s.setType id t) (c.setType id t) :=
    modify_corresponds hl hc.distinct h (fun z => z.id_retype t) fun z => z.kind_retype t
  rw [hs] at hcorr
  cases hct : c.setType id t with
  | error e =>
    rw [hct] at hcorr
    exact hcorr.elim
  | ok c' =>
    rw [hct] at hcorr
    obtain ⟨hl', h'⟩ := hcorr
    have hc' := hc.step (.setType id t)
    rw [hct] at hc'
    obtain ⟨x, hx, hk, htype⟩ := Catalog.setType_get hct
    exact ⟨x, ((h'.agrees hl' hc'.distinct).get id).trans hx, hk, htype⟩

theorem remove_unknown {z : Component} {t : Store} (hl : s.Lockstep) (hc : c.WellFormed)
    (h : s.Represents c) (hr : (remove id k).runOn s = (.ok z, t)) :
    ∃ c', t.Agrees c' ∧ c'.Unknown id := by
  cases hg : s.getOfKind id k with
  | error e =>
    rw [remove_runOn_of_error hg] at hr
    cases hr
  | ok x =>
    obtain ⟨key, hkey, hx, hrun⟩ := remove_runOn_of_ok hg
    rw [hrun, Prod.mk.injEq] at hr
    rw [← hr.2]
    have hgc : c.getOfKind id k = .ok x := ((h.agrees hl hc.distinct).getOfKind id k).symm.trans hg
    exact ⟨c.without id, (h.removed hl hkey hx hc.distinct hg).agrees (hl.removed hkey hx)
      hc.without.distinct, Catalog.remove_unknown (Catalog.remove_of_getOfKind hgc)⟩

/-- **The three stores of every reachable catalog move in lockstep.** In
every store the calls reach, the arena, the index and the sets by kind agree,
and every query answers as on a list catalog that the same calls reach: a
registered identifier is one that a lookup finds and that the listing of its
kind, and no other, lists once; the counts are the lengths of the listings
and add up to the size; and the full listing lists every component once,
kind by kind. Every further call is the same call on that catalog, so it
changes no component's kind and keeps the listings in registration order;
retyping stores the type given, `NoType` as none; a removal that fails
writes nothing, and one that succeeds makes the identifier unknown to every
query. -/
theorem reachable_store_consistent (h : s.Reachable) :
    s.Lockstep ∧ ∃ c : Catalog, c.Reachable ∧ s.Agrees c ∧ c.Consistent ∧
      (∀ s', Step s s' → ∃ c', Catalog.Step c c' ∧ s'.Agrees c' ∧ c.Transition c') ∧
      (∀ id t s', s.setType id t = .ok s' →
        ∃ x, s'.get id = .ok x ∧ x.kind = t.kind ∧ x.type = t.normalized) ∧
      ∀ id k, InPlace.FailsCleanly (remove id k) s ∧
        ∀ z t, (remove id k).runOn s = (.ok z, t) → ∃ c', t.Agrees c' ∧ c'.Unknown id := by
  obtain ⟨hl, c, hc, hrep⟩ := h.simulate
  have hw := hc.wellFormed
  exact ⟨hl, c, hc, hrep.agrees hl hw.distinct, hw.consistent,
    fun _ hs => hs.transition hl hw hrep, fun _ _ _ hs => setType_get hl hw hrep hs,
    fun id k => ⟨remove_failsCleanly id k, fun _ _ hr => remove_unknown hl hw hrep hr⟩⟩

/-- A horizon and a fault registered under given identifiers, the horizon
retyped and then removed, and a unit registered in the slot it freed. -/
def reusedSlot : Store :=
  let s₁ := ((InPlace.apply fun t : Store => t.createWithId .horizon (Uuid.ofNat 1)).runOn empty).2
  let s₂ := ((InPlace.apply fun t : Store => t.createWithId .fault (Uuid.ofNat 2)).runOn s₁).2
  let s₃ := ((InPlace.apply fun t : Store =>
    t.setType (Uuid.ofNat 1) (.horizon .conformal)).runOn s₂).2
  let s₄ := ((remove (Uuid.ofNat 1) .horizon).runOn s₃).2
  ((InPlace.apply fun t : Store => t.createWithId .stratigraphicUnit (Uuid.ofNat 3)).runOn s₄).2

theorem reusedSlot_consistent :
    reusedSlot.Reachable ∧ reusedSlot.arena.slots.length = 2 ∧ reusedSlot.size = 2 ∧
      reusedSlot.ids .horizon = [] ∧ reusedSlot.ids .stratigraphicUnit = [Uuid.ofNat 3] ∧
      reusedSlot.Lockstep ∧ ∃ c : Catalog, c.Reachable ∧ reusedSlot.Agrees c ∧ c.Consistent ∧
        (∀ s', Step reusedSlot s' → ∃ c', Catalog.Step c c' ∧ s'.Agrees c' ∧ c.Transition c') ∧
        (∀ id t s', reusedSlot.setType id t = .ok s' →
          ∃ x, s'.get id = .ok x ∧ x.kind = t.kind ∧ x.type = t.normalized) ∧
        ∀ id k, InPlace.FailsCleanly (remove id k) reusedSlot ∧
          ∀ z t, (remove id k).runOn reusedSlot = (.ok z, t) →
            ∃ c', t.Agrees c' ∧ c'.Unknown id := by
  have hr : reusedSlot.Reachable := by
    unfold reusedSlot
    exact .tail (.tail (.tail (.tail (.single (.createWithId _ _)) (.createWithId _ _))
      (.setType _ _)) (.remove _ _)) (.createWithId _ _)
  exact ⟨hr, by decide +kernel, by decide +kernel, by decide +kernel, by decide +kernel,
    reachable_store_consistent hr⟩

end Store

end Subsurface
