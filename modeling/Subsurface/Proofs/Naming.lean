import Subsurface.Request.Naming
import Subsurface.Proofs.Stack.Reachable
/-!
Fresh identifiers.

A request draws new identifiers from a numbered sequence: each draw skips the
numbers whose identifier the request text mentions, so it moves the seed by
at most the text's size and two (`freshId_run`). Drawing outside a set of
taken identifiers retries up to a bound; when the draws it may reach are
pairwise different and no more than the bound of them are taken, it returns
an identifier that is not taken (`freshIdOutside_run`): each taken draw uses
up one of the taken identifiers, since later draws differ from it.

That the draws of a stretch differ is assumed, not proved (`DrawsDistinct`):
it is a fact about the mixer at those numbers, which `decide` checks for
given ones. From it, a new component gets an identifier its catalog does not
hold (`freshIdIn_fresh`), and the three identifiers of a split differ from
one another and from every node but the unit split (`splitIds_fresh`), which
is what the split of a unit asks of them.
-/

namespace Subsurface.Request

/-- The draws numbered `lo + 1` to `hi` are pairwise different. -/
def DrawsDistinct (lo hi : Nat) : Prop :=
  ∀ j, j ≤ hi → ∀ i, i < j → lo < i → drawn i ≠ drawn j

instance (lo hi : Nat) : Decidable (DrawsDistinct lo hi) :=
  inferInstanceAs (Decidable (∀ j, j ≤ hi → ∀ i, i < j → lo < i → drawn i ≠ drawn j))

theorem DrawsDistinct.mono {lo hi lo' hi' : Nat} (h : DrawsDistinct lo hi) (hlo : lo ≤ lo')
    (hhi : hi' ≤ hi) : DrawsDistinct lo' hi' :=
  fun j hj i hij hi => h j (Nat.le_trans hj hhi) i hij (by omega)

/-- The most a draw moves the seed: past every number whose identifier the
request text mentions, and one more. -/
def Naming.gap (n : Naming) : Nat := n.request.utf8ByteSize + 2

@[simp] theorem Naming.gap_withSeed (n : Naming) (k : Nat) : ({ n with seed := k } : Naming).gap = n.gap :=
  rfl

theorem unmentioned_spec (text : String) (k fuel : Nat) :
    ∃ j, k ≤ j ∧ j ≤ k + fuel ∧ unmentioned text k fuel = (drawn j, j) := by
  induction fuel generalizing k with
  | zero => exact ⟨k, Nat.le_refl k, by omega, rfl⟩
  | succ fuel ih =>
    unfold unmentioned
    split
    · obtain ⟨j, hkj, hj, h⟩ := ih (k + 1)
      exact ⟨j, by omega, by omega, h⟩
    · exact ⟨k, Nat.le_refl k, by omega, rfl⟩

/-- A fresh identifier is the draw of a number past the seed, at most `gap`
further on, and the seed moves to that number. -/
theorem freshId_run (n : Naming) :
    ∃ k, n.seed < k ∧ k ≤ n.seed + n.gap ∧ freshId.run n = (drawn k, { n with seed := k }) := by
  obtain ⟨k, hk, hk', h⟩ :=
    unmentioned_spec n.request (n.seed + 1) (n.request.utf8ByteSize + 1)
  refine ⟨k, by omega, by unfold Naming.gap; omega, ?_⟩
  -- the draw's pair is taken apart by its projections, so the run reads it by `rfl`
  have hrun : freshId.run n = ((unmentioned n.request (n.seed + 1) (n.request.utf8ByteSize + 1)).1,
      { n with seed := (unmentioned n.request (n.seed + 1) (n.request.utf8ByteSize + 1)).2 }) := rfl
  rw [hrun, h]

theorem run_bind_of_run {α β : Type} {x : Named α} {f : α → Named β} {n n' : Naming} {a : α}
    (h : x.run n = (a, n')) : (x >>= f).run n = (f a).run n' := by
  rw [StateT.run_bind, h]
  rfl

theorem freshIdOutside_succ_run {taken : Uuid → Bool} {b : Nat} {n n' : Naming} {u : Uuid}
    (h : freshId.run n = (u, n')) :
    (freshIdOutside taken (b + 1)).run n = if taken u then (freshIdOutside taken b).run n' else (u, n') := by
  show (freshId >>= fun id => if taken id then freshIdOutside taken b else pure id).run n = _
  rw [run_bind_of_run h]
  split <;> rfl

/-- **Drawing outside a taken set finds a free identifier.** When the draws
within reach are pairwise different and every taken one among them is in a
list of at most `b` identifiers, drawing outside with bound `b` returns the
draw of a number within reach that is not taken, and moves the seed to it. -/
theorem freshIdOutside_run (taken : Uuid → Bool) (b : Nat) (S : List Uuid) (n : Naming)
    (hS : S.length ≤ b) (hd : DrawsDistinct n.seed (n.seed + (b + 1) * n.gap))
    (htaken : ∀ i, n.seed < i → i ≤ n.seed + (b + 1) * n.gap → taken (drawn i) = true → drawn i ∈ S) :
    ∃ k, n.seed < k ∧ k ≤ n.seed + (b + 1) * n.gap ∧ taken (drawn k) = false ∧
      (freshIdOutside taken b).run n = (drawn k, { n with seed := k }) := by
  -- each taken draw is one of `S`, and no later draw is that one again
  induction b generalizing S n with
  | zero =>
    obtain ⟨k, hk, hk', hrun⟩ := freshId_run n
    refine ⟨k, hk, by omega, ?_, hrun⟩
    cases ht : taken (drawn k) with
    | false => rfl
    | true =>
      have hnil : S = [] := List.length_eq_zero_iff.1 (Nat.le_zero.1 hS)
      simpa [hnil] using htaken k hk (by omega) ht
  | succ b ih =>
    obtain ⟨k, hk, hk', hrun⟩ := freshId_run n
    have hw : (b + 1 + 1) * n.gap = (b + 1) * n.gap + n.gap := Nat.succ_mul (b + 1) n.gap
    rw [freshIdOutside_succ_run hrun]
    cases ht : taken (drawn k) with
    | false => exact ⟨k, hk, by omega, ht, rfl⟩
    | true =>
      have hmem : drawn k ∈ S := htaken k hk (by omega) ht
      have hlen : (S.erase (drawn k)).length ≤ b := by
        rw [List.length_erase_of_mem hmem]
        omega
      obtain ⟨k', hk1, hk2, ht', hrun'⟩ := ih (S.erase (drawn k)) { n with seed := k } hlen
        (hd.mono (Nat.le_of_lt hk) (by simp only [Naming.gap_withSeed]; omega))
        (fun i hi hi' hti => by
          simp only [Naming.gap_withSeed] at hi hi'
          exact (List.mem_erase_of_ne (hd i (by omega) k hi hk).symm).2
            (htaken i (by omega) (by omega) hti))
      simp only [Naming.gap_withSeed] at hk1 hk2
      exact ⟨k', by omega, by omega, ht', hrun'⟩

/-- **A new component gets an identifier its catalog does not hold**, when
the draws within reach are pairwise different. -/
theorem freshIdIn_fresh (c : Catalog) (n : Naming)
    (hd : DrawsDistinct n.seed (n.seed + (c.size + 1) * n.gap)) :
    ∃ id n', (freshIdIn c).run n = (id, n') ∧ c.contains id = false := by
  obtain ⟨k, -, -, hk, hrun⟩ := freshIdOutside_run c.contains c.size (c.components.map (·.id)) n
    (by simp [Catalog.size]) hd fun _ _ _ h => Catalog.mem_ids_of_contains h
  exact ⟨drawn k, _, hrun, hk⟩

/-! ## The identifiers of a split -/

/-- What each identifier of a split avoids: a node of `c` other than `unit`,
and the identifiers `drawn` before it. -/
def splitTaken (c : Catalog) (unit : Uuid) (drawn : List Uuid) (id : Uuid) : Bool :=
  (id != unit && c.contains id) || drawn.contains id

theorem splitIds_eq (c : Catalog) (unit : Uuid) :
    splitIds c unit = (do
      let h ← freshIdOutside (splitTaken c unit []) (c.size + 1)
      let a ← freshIdOutside (splitTaken c unit [h]) (c.size + 2)
      let u ← freshIdOutside (splitTaken c unit [h, a]) (c.size + 3)
      pure (h, a, u)) :=
  rfl

theorem mem_of_splitTaken {c : Catalog} {unit id : Uuid} {drawn : List Uuid}
    (h : splitTaken c unit drawn id = true) : id ∈ drawn ++ c.components.map (·.id) := by
  simp only [splitTaken, Bool.or_eq_true, Bool.and_eq_true, List.contains_iff_mem] at h
  rcases h with ⟨-, hc⟩ | hd
  · exact List.mem_append_right _ (Catalog.mem_ids_of_contains hc)
  · exact List.mem_append_left _ hd

theorem splitTaken_eq_false {c : Catalog} {unit id : Uuid} {drawn : List Uuid} :
    splitTaken c unit drawn id = false ↔ (c.without unit).contains id = false ∧ id ∉ drawn := by
  simp [splitTaken, Catalog.contains_without]

/-- One identifier of a split: a draw that is neither a node of `c` but the
unit nor one of the `drawn` before it, when the bound covers both. -/
theorem freshIdOutside_splitTaken_run (c : Catalog) (unit : Uuid) (drawn : List Uuid) (b : Nat)
    (hb : c.size + drawn.length ≤ b) (n : Naming) (hd : DrawsDistinct n.seed (n.seed + (b + 1) * n.gap)) :
    ∃ k, n.seed < k ∧ k ≤ n.seed + (b + 1) * n.gap ∧ splitTaken c unit drawn (Request.drawn k) = false ∧
      (freshIdOutside (splitTaken c unit drawn) b).run n = (Request.drawn k, { n with seed := k }) :=
  freshIdOutside_run _ b (drawn ++ c.components.map (·.id)) n
    (by simp only [List.length_append, List.length_map]; unfold Catalog.size at hb; omega) hd
    fun _ _ _ h => mem_of_splitTaken h

/-- **A split draws three new identifiers.** When the draws within reach are
pairwise different, the identifiers drawn for the horizon and the two units
that replace `unit` differ from one another and from every node of `c` other
than `unit`: they are fresh for the split. -/
theorem splitIds_fresh (c : Catalog) (unit : Uuid) (n : Naming)
    (hd : DrawsDistinct n.seed (n.seed + (3 * c.size + 9) * n.gap)) :
    ∃ h a u n', (splitIds c unit).run n = ((h, a, u), n') ∧
      (HorizonStack.UnitSplit.mk h a u).Fresh c unit := by
  -- the stretch holds the three draws' windows, of `c.size + 2`, `+ 3` and `+ 4` gaps
  have hw (m : Nat) : (c.size + m + 1) * n.gap = c.size * n.gap + (m + 1) * n.gap := by
    rw [Nat.add_assoc, Nat.add_mul]
  have hw1 := hw 1
  have hw2 := hw 2
  have hw3 := hw 3
  have hw' : (3 * c.size + 9) * n.gap = 3 * (c.size * n.gap) + 9 * n.gap := by
    rw [Nat.add_mul, Nat.mul_assoc]
  -- three draws one after another, each from the seed the one before left
  obtain ⟨k1, hk1, hk1', ht1, hrun1⟩ :=
    freshIdOutside_splitTaken_run c unit [] (c.size + 1) (by simp) n
      (hd.mono (Nat.le_refl _) (by omega))
  obtain ⟨k2, hk2, hk2', ht2, hrun2⟩ :=
    freshIdOutside_splitTaken_run c unit [drawn k1] (c.size + 2) (by simp) { n with seed := k1 }
      (hd.mono (Nat.le_of_lt hk1) (by simp only [Naming.gap_withSeed]; omega))
  simp only [Naming.gap_withSeed] at hk2'
  dsimp only at hk2 hk2'
  obtain ⟨k3, -, -, ht3, hrun3⟩ :=
    freshIdOutside_splitTaken_run c unit [drawn k1, drawn k2] (c.size + 3) (by simp)
      { n with seed := k2 } (hd.mono (by dsimp only; omega) (by simp only [Naming.gap_withSeed]; omega))
  refine ⟨drawn k1, drawn k2, drawn k3, { n with seed := k3 }, ?_, ?_⟩
  · rw [splitIds_eq, run_bind_of_run hrun1, run_bind_of_run hrun2, run_bind_of_run hrun3]
    rfl
  · obtain ⟨hc1, -⟩ := splitTaken_eq_false.1 ht1
    obtain ⟨hc2, h21⟩ := splitTaken_eq_false.1 ht2
    obtain ⟨hc3, h3⟩ := splitTaken_eq_false.1 ht3
    simp only [List.mem_cons, List.not_mem_nil, or_false, not_or] at h21 h3
    exact ⟨Ne.symm h21, Ne.symm h3.1, Ne.symm h3.2, hc1, hc2, hc3⟩

/-- At the start of a request, splitting the lower unit of `erodedPair`
draws fresh identifiers: the first draws differ. -/
theorem splitIds_fresh_erodedPair :
    DrawsDistinct ({} : Naming).seed
        (({} : Naming).seed + (3 * HorizonStack.erodedPair.catalog.size + 9) * ({} : Naming).gap) ∧
      ∃ h a u n', (splitIds HorizonStack.erodedPair.catalog (Uuid.ofNat 1)).run {} = ((h, a, u), n') ∧
        (HorizonStack.UnitSplit.mk h a u).Fresh HorizonStack.erodedPair.catalog (Uuid.ofNat 1) := by
  have hd : DrawsDistinct ({} : Naming).seed
      (({} : Naming).seed + (3 * HorizonStack.erodedPair.catalog.size + 9) * ({} : Naming).gap) := by
    decide +kernel
  exact ⟨hd, splitIds_fresh _ _ _ hd⟩

end Subsurface.Request
