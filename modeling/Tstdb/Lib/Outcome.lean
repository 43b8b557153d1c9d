/-
# `Tstdb.Lib.Outcome` — computations that may stop with an excuse

A postcondition for a computation in `Except`: it returns and what it returns is as
stated, or it fails for a reason that is excused.  So no other failure is possible,
and where nothing is excused the computation returns.  The rules follow the way such
computations are put together.

A computation that also runs on fuel has an outcome of its own, `Concludes`: from some
amount of fuel on it is this result or this failure.
-/
import Mathlib
import Tstdb.Lib.Fuel

namespace Outcome

variable {ε α β : Type} {excused : ε → Prop} {Q R : α → Prop}

/-- The computation returns what is stated, or fails with an excuse. -/
def Ends (excused : ε → Prop) (Q : α → Prop) : Except ε α → Prop
  | .ok a => Q a
  | .error e => excused e

@[simp] theorem ends_ok {a : α} : Ends excused Q (.ok a) ↔ Q a := Iff.rfl

@[simp] theorem ends_pure {a : α} : Ends excused Q (pure a) ↔ Q a := Iff.rfl

@[simp] theorem ends_error {e : ε} : Ends excused Q (.error e) ↔ excused e := Iff.rfl

@[simp] theorem ends_throw {e : ε} : Ends excused Q (throw e) ↔ excused e := Iff.rfl

theorem Ends.imp {x : Except ε α} (h : Ends excused Q x) (hqr : ∀ a, Q a → R a) : Ends excused R x := by
  cases x with
  | ok a => exact hqr a h
  | error e => exact h

theorem Ends.excuse {excused' : ε → Prop} {x : Except ε α} (h : Ends excused Q x)
    (he : ∀ e, excused e → excused' e) : Ends excused' Q x := by
  cases x with
  | ok a => exact h
  | error e => exact he e h

theorem ends_trivial (x : Except ε α) : Ends (fun _ => True) (fun _ => True) x := by cases x <;> trivial

/-- First one computation, then the one it leads to. -/
theorem Ends.bind {S : β → Prop} {x : Except ε α} {f : α → Except ε β} (h : Ends excused Q x)
    (hf : ∀ a, Q a → Ends excused S (f a)) : Ends excused S (x >>= f) := by
  cases x with
  | ok a => exact hf a h
  | error e => exact h

theorem Ends.map {S : β → Prop} {x : Except ε α} {f : α → β} (h : Ends excused Q x)
    (hf : ∀ a, Q a → S (f a)) : Ends excused S (x.map f) := by
  cases x with
  | ok a => exact hf a h
  | error e => exact h

/-- Two statements about one computation, whatever excuses one of them. -/
theorem Ends.and {excused' : ε → Prop} {x : Except ε α} (h : Ends excused Q x) (h' : Ends excused' R x) :
    Ends excused (fun a => Q a ∧ R a) x := by
  cases x with
  | ok a => exact ⟨h, h'⟩
  | error e => exact h

/-- What is returned is as stated. -/
theorem Ends.ok {x : Except ε α} {a : α} (h : Ends excused Q x) (hx : x = .ok a) : Q a := by
  subst hx
  exact h

/-- Without an excuse the computation returns. -/
theorem Ends.returns {x : Except ε α} (h : Ends (fun _ => False) Q x) : ∃ a, x = .ok a ∧ Q a := by
  cases x with
  | ok a => exact ⟨a, rfl, h⟩
  | error e => exact h.elim

/-! ## On fuel -/

section Fuel

variable {f : Nat → Except ε α} {g : Nat → α → Except ε β} {r : Except ε α} {q : Except ε β} {a : α} {e : ε}

/-- From some amount of fuel on the outcome is this one. -/
def Concludes (f : Nat → Except ε α) (r : Except ε α) : Prop := ∃ N, ∀ n, N ≤ n → f n = r

theorem concludes_const (r : Except ε α) : Concludes (fun _ => r) r := ⟨0, fun _ _ => rfl⟩

theorem Concludes.bind_ok (hf : Concludes f (.ok a)) (hg : Concludes (fun n => g n a) q) :
    Concludes (fun n => f n >>= g n) q := by
  obtain ⟨N, hN⟩ := hf
  obtain ⟨M, hM⟩ := hg
  refine ⟨max N M, fun n hn => ?_⟩
  show f n >>= g n = q
  rw [hN n (le_trans (le_max_left N M) hn)]
  exact hM n (le_trans (le_max_right N M) hn)

theorem Concludes.bind_error (hf : Concludes f (.error e)) : Concludes (fun n => f n >>= g n) (.error e) := by
  obtain ⟨N, hN⟩ := hf
  refine ⟨N, fun n hn => ?_⟩
  show f n >>= g n = _
  rw [hN n hn]
  rfl

/-- The outcome tells whether a value is returned, and which. -/
theorem Concludes.settles_iff (h : Concludes f r) {b : α} : Fuel.Settles (fun n => (f n).toOption) b ↔ r = .ok b := by
  obtain ⟨N, hN⟩ := h
  constructor
  · rintro ⟨M, hM⟩
    have hr : r.toOption = some b := by
      rw [← hN (max N M) (le_max_left N M)]
      exact hM _ (le_max_right N M)
    cases r with
    | ok c => exact congrArg Except.ok (Option.some.inj hr)
    | error e => cases hr
  · rintro rfl
    exact ⟨N, fun n hn => by simp only [hN n hn]; rfl⟩

end Fuel

end Outcome
