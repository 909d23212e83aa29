import Subsurface.Archive.Bytes
import Subsurface.Proofs.Archive.Utf8
import Mathlib.Tactic.Ring
/-!
Every reader of the archive layout reads back what its writer wrote.

A reader reads a value back from bytes when, whatever follows them, it
returns the value and leaves what follows (`Decoder.Reads`). Readers chain:
reading one value and then another reads back the concatenation of their
bytes (`Decoder.Reads.bind`). Integers come back as long as they fit in
their width; a length is read back whenever the bytes it counts are fewer
than 2^64, so every bound below is a bound on the length of the bytes
written.
-/

namespace Subsurface.Archive

/-- `d` reads `a` back from `bs`: from `bs` followed by anything, it returns
`a` and leaves what follows. -/
def Decoder.Reads {α : Type} (d : Decoder α) (bs : List UInt8) (a : α) : Prop :=
  ∀ rest, d.runOn (bs ++ rest) = .ok (a, rest)

namespace Decoder

variable {α β : Type} {d : Decoder α} {bs bs' : List UInt8} {a : α}

theorem reads_pure (a : α) : (pure a : Decoder α).Reads [] a := fun _ => rfl

theorem Reads.bind {f : α → Decoder β} {b : β} (h : d.Reads bs a) (hf : (f a).Reads bs' b) :
    (d >>= f).Reads (bs ++ bs') b := by
  intro rest
  show (d >>= f).run _ = _
  rw [StateT.run_bind, List.append_assoc]
  show (d.runOn (bs ++ (bs' ++ rest)) >>= _) = _
  rw [h]
  exact hf rest

theorem Reads.bind_end {f : α → Decoder β} {b : β} (h : d.Reads bs a) (hf : (f a).Reads [] b) :
    (d >>= f).Reads bs b := by
  simpa using h.bind hf

theorem Reads.map {g : α → β} (h : d.Reads bs a) :
    (d >>= fun x => pure (g x)).Reads bs (g a) := by
  exact Reads.bind_end (f := fun x => pure (g x)) h (reads_pure (g a))

end Decoder

open Decoder

/-- Bytes whose length a 64-bit count can hold. -/
def Fits (bs : List UInt8) : Prop := bs.length < 2 ^ 64

namespace Fits

variable {bs bs' : List UInt8}

theorem left (h : Fits (bs ++ bs')) : Fits bs :=
  Nat.lt_of_le_of_lt (by simp) h

theorem right (h : Fits (bs ++ bs')) : Fits bs' :=
  Nat.lt_of_le_of_lt (by simp) h

theorem of_mem_flatMap {α : Type} {f : α → List UInt8} {xs : List α} {x : α}
    (h : Fits (xs.flatMap f)) (hx : x ∈ xs) : Fits (f x) := by
  have hsub : (f x).Sublist (xs.flatMap f) := by
    rw [List.flatMap_def]
    exact List.sublist_flatten_of_mem (List.mem_map_of_mem hx)
  exact Nat.lt_of_le_of_lt hsub.length_le h

theorem length_le_flatMap {α : Type} {f : α → List UInt8} :
    ∀ {xs : List α}, (∀ x ∈ xs, f x ≠ []) → xs.length ≤ (xs.flatMap f).length
  | [], _ => Nat.zero_le _
  | x :: xs, hne => by
    have hx : 1 ≤ (f x).length := List.length_pos_iff.2 (hne x List.mem_cons_self)
    have := length_le_flatMap fun y hy => hne y (List.mem_cons_of_mem x hy)
    simp only [List.length_cons, List.flatMap_cons, List.length_append]
    omega

theorem length_lt {α : Type} {f : α → List UInt8} {xs : List α} (hne : ∀ x ∈ xs, f x ≠ [])
    (h : Fits (xs.flatMap f)) : xs.length < 2 ^ 64 :=
  Nat.lt_of_le_of_lt (length_le_flatMap hne) h

end Fits

/-! ## Bytes and integers -/

theorem splitExact_append (xs rest : List UInt8) :
    splitExact xs.length (xs ++ rest) = some (xs, rest) := by
  induction xs with
  | nil => rfl
  | cons x xs ih => simp [splitExact, ih]

theorem getBytes_reads {n : Nat} {bs : List UInt8} (h : bs.length = n) :
    (getBytes n).Reads bs bs := by
  intro rest
  subst h
  show getBytes bs.length (bs ++ rest) = _
  simp only [getBytes, splitExact_append]

theorem littleEndian_succ (n v : Nat) :
    littleEndian (n + 1) v = (v % 256).toUInt8 :: littleEndian n (v / 256) := by
  simp only [littleEndian, List.range_succ_eq_map, List.map_cons, List.map_map]
  congr 2
  · simp
  · funext i
    simp only [Function.comp, Nat.succ_eq_add_one, Nat.pow_eq, Nat.pow_succ, Nat.div_div_eq_div_mul,
      Nat.mul_comm]

theorem length_littleEndian (n v : Nat) : (littleEndian n v).length = n := by
  simp [littleEndian]

theorem ofLittleEndian_littleEndian (n v : Nat) :
    ofLittleEndian (littleEndian n v) = v % 256 ^ n := by
  induction n generalizing v with
  | zero => simp [littleEndian, ofLittleEndian, Nat.mod_one]
  | succ n ih =>
    rw [littleEndian_succ, ofLittleEndian, List.foldr_cons, ← ofLittleEndian, ih,
      Nat.pow_succ, Nat.mul_comm _ 256, Nat.mod_mul]
    simp

theorem littleEndian_reads {n v : Nat} (h : v < 256 ^ n) :
    (do return ofLittleEndian (← getBytes n) : Decoder Nat).Reads (littleEndian n v) v := by
  have hv : ofLittleEndian (littleEndian n v) = v := by
    rw [ofLittleEndian_littleEndian, Nat.mod_eq_of_lt h]
  have := (getBytes_reads (length_littleEndian n v)).map (g := ofLittleEndian)
  rwa [hv] at this

theorem getU32_reads {v : Nat} (h : v < 2 ^ 32) : getU32.Reads (putU32 v) v :=
  littleEndian_reads (by simpa using h)

theorem getU64_reads {v : Nat} (h : v < 2 ^ 64) : getU64.Reads (putU64 v) v :=
  littleEndian_reads (by simpa using h)

theorem getU8_reads {v : Nat} (h : v < 256) : getU8.Reads (littleEndian 1 v) v :=
  littleEndian_reads (by simpa using h)

theorem length_putU64 (v : Nat) : (putU64 v).length = 8 := length_littleEndian 8 v

theorem length_putU32 (v : Nat) : (putU32 v).length = 4 := length_littleEndian 4 v

/-! ## Values -/

theorem putBool_eq (b : Bool) : putBool b = littleEndian 1 (if b then 1 else 0) := by
  cases b <;> rfl

theorem getBool_reads (b : Bool) : getBool.Reads (putBool b) b := by
  intro rest
  have h := getU8_reads (v := if b then 1 else 0) (by split <;> decide) rest
  rw [putBool_eq]
  show (getU8 >>= _).run _ = _
  rw [StateT.run_bind]
  show (getU8.runOn _ >>= _) = _
  rw [h]
  cases b <;> rfl

theorem getFloat_reads (x : Binary64) : getFloat.Reads (putFloat x) x := by
  have := (getU64_reads x.bits.toNat_lt).map (g := fun n => (⟨n.toUInt64⟩ : Binary64))
  simpa [putFloat, getFloat, UInt64.ofNat_toNat] using this

theorem foldl_bigEndian (x n a : Nat) :
    ((List.range n).reverse.map fun i => x / 256 ^ i % 256).foldl (fun acc b => acc * 256 + b) a =
      a * 256 ^ n + x % 256 ^ n := by
  induction n generalizing a with
  | zero => simp [Nat.mod_one]
  | succ n ih =>
    rw [List.range_succ, List.reverse_append, List.reverse_singleton, List.singleton_append,
      List.map_cons, List.foldl_cons, ih, Nat.mod_pow_succ, Nat.pow_succ]
    ring

theorem Uuid.ofBytes_toBytes (u : Uuid) : Uuid.ofBytes u.toBytes = u := by
  have hlt : u.toNat < 256 ^ 16 := by
    have := u.value.isLt
    simpa [Uuid.toNat] using this
  have hbytes : u.toBytes.map UInt8.toNat =
      (List.range 16).reverse.map fun i => u.toNat / 256 ^ i % 256 := by
    simp [Uuid.toBytes, Function.comp_def, Nat.pow_eq]
  have hfold : u.toBytes.foldl (fun acc b => acc * 256 + b.toNat) 0 = u.toNat := by
    rw [← List.foldl_map (f := UInt8.toNat) (g := fun acc b => acc * 256 + b), hbytes,
      foldl_bigEndian, Nat.zero_mul, Nat.zero_add, Nat.mod_eq_of_lt hlt]
  rw [Uuid.ofBytes, hfold]
  cases u
  simp [Uuid.ofNat, Uuid.toNat]

theorem length_toBytes (u : Uuid) : u.toBytes.length = 16 := by
  simp [Uuid.toBytes]

theorem getUuid_reads (u : Uuid) : getUuid.Reads (putUuid u) u := by
  unfold getUuid putUuid
  refine Reads.bind (getU64_reads (by decide)) (Reads.bind_end (getBytes_reads (length_toBytes u)) ?_)
  simp only [ne_eq, not_true_eq_false, if_false]
  rw [Uuid.ofBytes_toBytes]
  exact reads_pure u

theorem getString_reads {s : String} (h : Fits (putString s)) :
    getString.Reads (putString s) s := by
  unfold getString putString
  refine Reads.bind (getU64_reads (Fits.right h)) (Reads.bind_end (getBytes_reads rfl) ?_)
  simp only [Utf8.decode_encode]
  exact reads_pure s

theorem getVariant_reads {i count : Nat} (h : i < count) (h32 : i < 2 ^ 32) :
    (getVariant count).Reads (putU32 i) i := by
  unfold getVariant
  refine Reads.bind_end (getU32_reads h32) ?_
  simp only [if_pos h]
  exact reads_pure i

/-! ## Lists and optional values -/

section Containers

variable {α : Type} {item : Decoder α} {f : α → List UInt8}

theorem getItems_reads : ∀ {xs : List α}, (∀ x ∈ xs, item.Reads (f x) x) →
    (getItems item xs.length).Reads (xs.flatMap f) xs
  | [], _ => reads_pure []
  | x :: xs, h => by
    rw [List.flatMap_cons, List.length_cons]
    unfold getItems
    refine Reads.bind (h x List.mem_cons_self) ?_
    exact Reads.bind_end (getItems_reads fun y hy => h y (List.mem_cons_of_mem x hy)) (reads_pure _)

/-- A list of items that each take a byte or more is read back when its
bytes fit. -/
theorem getList_reads {xs : List α} (hne : ∀ x ∈ xs, f x ≠ []) (hfit : Fits (putList f xs))
    (h : ∀ x ∈ xs, Fits (f x) → item.Reads (f x) x) : (getList item).Reads (putList f xs) xs := by
  unfold getList putList at *
  have hitems := Fits.right hfit
  exact Reads.bind (getU64_reads (Fits.length_lt hne hitems))
    (getItems_reads fun x hx => h x hx (Fits.of_mem_flatMap hitems hx))

theorem getOption_reads {o : Option α} (h : ∀ a, o = some a → item.Reads (f a) a) :
    (getOption item).Reads (putOption f o) o := by
  unfold getOption
  cases o with
  | none =>
    show Reads _ (littleEndian 1 0 ++ []) none
    exact Reads.bind (getU8_reads (by decide)) (reads_pure none)
  | some a =>
    show Reads _ (littleEndian 1 1 ++ f a) (some a)
    refine Reads.bind (getU8_reads (by decide)) ?_
    exact (h a rfl).map (g := some)

end Containers

end Subsurface.Archive
