import Subsurface.Error
/-!
Edits that change an object in place.

A builder edits its object store by store: each write lands at once, and a
check that fails after a write leaves that write behind. `InPlace σ` is such
an edit of a `σ`: run from an object, it gives its result or its error and
the object as it left it (`InPlace.runOn`). `InPlace.commit` is the edit as
a function that returns the edited object or the error, keeping nothing of
a failure; it loses nothing exactly when every failure of the edit comes
before its first write (`InPlace.FailsCleanly`).
-/

namespace Subsurface

/-- An edit of a `σ` that writes as it goes. -/
abbrev InPlace (σ : Type) := ExceptT Error (StateM σ)

namespace InPlace

variable {σ α β : Type}

/-- Runs an edit from `s`: its result or its error, and the object after it. -/
def runOn (e : InPlace σ α) (s : σ) : Except Error α × σ := (e.run).run s

/-- A result computed from the object, or the failure it reports. -/
def lift (r : Except Error α) : InPlace σ α :=
  match r with
  | .ok a => pure a
  | .error e => throw e

/-- Replaces the object by the result of `f`, or fails with its error. -/
def apply (f : σ → Except Error σ) : InPlace σ Unit := do
  set (← lift (f (← get)))

/-- The object the edit leaves when it goes through, or its error. -/
def commit (e : InPlace σ Unit) (s : σ) : Except Error σ :=
  match e.runOn s with
  | (.ok (), t) => .ok t
  | (.error err, _) => .error err

/-- The result of the edit with the object it leaves, or its error. -/
def runResult (e : InPlace σ α) (s : σ) : Except Error (α × σ) :=
  match e.runOn s with
  | (.ok a, t) => .ok (a, t)
  | (.error err, _) => .error err

/-- `e` fails cleanly from `s`: when it fails, it leaves `s` as it was. -/
def FailsCleanly (e : InPlace σ α) (s : σ) : Prop :=
  ∀ err t, e.runOn s = (.error err, t) → t = s

theorem runOn_bind (x : InPlace σ α) (f : α → InPlace σ β) (s : σ) :
    (x >>= f).runOn s = match x.runOn s with
      | (.ok a, t) => (f a).runOn t
      | (.error e, t) => (.error e, t) := by
  simp only [runOn, ExceptT.run_bind, StateT.run_bind]
  rcases (ExceptT.run x).run s with ⟨_ | a, t⟩
  · rfl
  · rfl

@[simp] theorem runOn_pure (a : α) (s : σ) : (pure a : InPlace σ α).runOn s = (.ok a, s) := rfl

@[simp] theorem runOn_get (s : σ) : (get : InPlace σ σ).runOn s = (.ok s, s) := rfl

@[simp] theorem runOn_set (t s : σ) : (set t : InPlace σ PUnit).runOn s = (.ok (), t) := rfl

@[simp] theorem runOn_modify (g : σ → σ) (s : σ) :
    (modify g : InPlace σ PUnit).runOn s = (.ok (), g s) := rfl

@[simp] theorem runOn_throw (e : Error) (s : σ) : (throw e : InPlace σ α).runOn s = (.error e, s) :=
  rfl

@[simp] theorem runOn_lift (r : Except Error α) (s : σ) : (lift r : InPlace σ α).runOn s = (r, s) := by
  cases r <;> rfl

theorem runOn_apply (f : σ → Except Error σ) (s : σ) :
    (apply f).runOn s = match f s with
      | .ok t => (.ok (), t)
      | .error e => (.error e, s) := by
  unfold apply
  rw [runOn_bind, runOn_get]
  dsimp only
  rw [runOn_bind, runOn_lift]
  cases f s <;> rfl

/-- A step that reads the object and fails or goes on without writing. -/
theorem runOn_lift_bind (r : Except Error α) (f : α → InPlace σ β) (s : σ) :
    (lift r >>= f).runOn s = match r with
      | .ok a => (f a).runOn s
      | .error e => (.error e, s) := by
  rw [runOn_bind, runOn_lift]
  cases r <;> rfl

theorem commit_of_runOn_ok {e : InPlace σ Unit} {s t : σ} (h : e.runOn s = (.ok (), t)) :
    commit e s = .ok t := by
  rw [commit, h]

theorem commit_of_runOn_error {e : InPlace σ Unit} {s t : σ} {err : Error}
    (h : e.runOn s = (.error err, t)) : commit e s = .error err := by
  rw [commit, h]

/-! ## Running an edit as a whole

Run as a whole, an edit is the chain of its steps as functions from the
object to the edited object or an error, each step given the object the
previous ones left. -/

-- Stated as rewrites rather than by `rfl`, so that `simp` leaves no
-- unfolding of a long edit for the kernel to redo.
@[simp] theorem commit_pure (s : σ) : (pure () : InPlace σ Unit).commit s = .ok s := by
  rw [commit, runOn_pure]

@[simp] theorem commit_modify (g : σ → σ) (s : σ) :
    (modify g : InPlace σ PUnit).commit s = .ok (g s) := by
  rw [commit, runOn_modify]

@[simp] theorem commit_apply (g : σ → Except Error σ) (s : σ) : (apply g).commit s = g s := by
  rw [commit, runOn_apply]
  cases g s <;> rfl

@[simp] theorem commit_get_bind (f : σ → InPlace σ Unit) (s : σ) :
    (get >>= f).commit s = (f s).commit s := by
  rw [commit, commit, runOn_bind, runOn_get]

@[simp] theorem commit_modify_bind (g : σ → σ) (f : PUnit → InPlace σ Unit) (s : σ) :
    (modify g >>= f).commit s = (f ⟨⟩).commit (g s) := by
  rw [commit, commit, runOn_bind, runOn_modify]

@[simp] theorem commit_lift_bind (r : Except Error α) (f : α → InPlace σ Unit) (s : σ) :
    (lift r >>= f).commit s = r >>= fun a => (f a).commit s := by
  cases r <;> rfl

@[simp] theorem commit_apply_bind (g : σ → Except Error σ) (f : Unit → InPlace σ Unit) (s : σ) :
    (apply g >>= f).commit s = g s >>= fun t => (f ()).commit t := by
  rw [commit, runOn_bind, runOn_apply]
  cases g s <;> rfl

/-- An edit that reads a failed check from the object fails there, before
it writes anything. -/
theorem failsCleanly_lift_bind {r : Except Error α} {f : α → InPlace σ β} {s : σ}
    (hf : ∀ a, r = .ok a → FailsCleanly (f a) s) : FailsCleanly (lift r >>= f) s := by
  intro err t h
  rw [runOn_lift_bind] at h
  cases hr : r with
  | ok a =>
    rw [hr] at h
    exact hf a hr err t h
  | error e =>
    rw [hr] at h
    exact (Prod.mk.inj h).2.symm

/-- An edit whose first step checks `r` on the object, and which, run as a
whole, fails only where that check does, fails at the check, before it
writes anything. -/
theorem runOn_eq_error_of_commit {r : σ → Except Error α} {f : σ → α → InPlace σ Unit}
    {s t : σ} {err : Error}
    (hc : ∀ err', commit (get >>= fun s => lift (r s) >>= f s) s = .error err' → r s = .error err')
    (h : (get >>= fun s => lift (r s) >>= f s).runOn s = (.error err, t)) :
    t = s ∧ r s = .error err := by
  have hr := hc err (commit_of_runOn_error h)
  rw [runOn_bind, runOn_get] at h
  dsimp only at h
  rw [runOn_lift_bind, hr] at h
  exact ⟨(Prod.mk.inj h).2.symm, hr⟩

/-- An edit that cannot fail fails cleanly. -/
theorem failsCleanly_of_ne_error {e : InPlace σ α} {s : σ}
    (h : ∀ err t, e.runOn s ≠ (.error err, t)) : FailsCleanly e s :=
  fun err t he => absurd he (h err t)

end InPlace

end Subsurface
