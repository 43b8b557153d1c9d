/-
# `Tstdb.Lib.Fuel` — loops run on fuel

A loop or a recursion of unknown length is embedded as a function of a fuel
argument that answers `none` when the fuel runs out.  Such a function says what
the program does only through its limit: `Settles f b` holds when the answer is
`b` from some amount of fuel on.  That is at once "the program terminates" and
"its result is `b`", and it pins `b` down.
-/
import Mathlib

namespace Fuel

variable {β γ : Type}

/-- From some amount of fuel on, `f` answers `b`. -/
def Settles (f : Nat → Option β) (b : β) : Prop := ∃ N, ∀ n, N ≤ n → f n = some b

/-- More fuel never changes an answer. -/
def Mono (f : Nat → Option β) : Prop := ∀ n b, f n = some b → f (n + 1) = some b

theorem Settles.unique {f : Nat → Option β} {a b : β} (ha : Settles f a) (hb : Settles f b) :
    a = b := by
  obtain ⟨N, hN⟩ := ha
  obtain ⟨M, hM⟩ := hb
  have h1 := hN (max N M) (le_max_left N M)
  have h2 := hM (max N M) (le_max_right N M)
  exact Option.some.inj (h1.symm.trans h2)

theorem Mono.le {f : Nat → Option β} (hf : Mono f) {n m : Nat} (h : n ≤ m) {b : β}
    (hb : f n = some b) : f m = some b := by
  induction h with
  | refl => exact hb
  | step _ ih => exact hf _ _ ih

theorem Mono.settles {f : Nat → Option β} (hf : Mono f) {n : Nat} {b : β} (h : f n = some b) :
    Settles f b :=
  ⟨n, fun _ hm => hf.le hm h⟩

theorem Settles.answers {f : Nat → Option β} {b : β} (h : Settles f b) : ∃ n, f n = some b := by
  obtain ⟨N, hN⟩ := h
  exact ⟨N, hN N le_rfl⟩

/-- For a function that never changes its answer, settling is answering once. -/
theorem Mono.settles_iff {f : Nat → Option β} (hf : Mono f) {b : β} :
    Settles f b ↔ ∃ n, f n = some b :=
  ⟨Settles.answers, fun ⟨_, h⟩ => hf.settles h⟩

theorem settles_const (b : β) : Settles (fun _ => some b) b := ⟨0, fun _ _ => rfl⟩

/-- One level of recursion costs one unit of fuel. -/
theorem Settles.succ {f g : Nat → Option β} {b : β} (hg : ∀ n, g (n + 1) = f n)
    (h : Settles f b) : Settles g b := by
  obtain ⟨N, hN⟩ := h
  refine ⟨N + 1, fun n hn => ?_⟩
  obtain ⟨n, rfl⟩ : ∃ m, n = m + 1 := ⟨n - 1, by omega⟩
  rw [hg]
  exact hN n (by omega)

theorem Settles.pred {f g : Nat → Option β} {b : β} (hg : ∀ n, g (n + 1) = f n)
    (h : Settles g b) : Settles f b := by
  obtain ⟨N, hN⟩ := h
  exact ⟨N, fun n hn => by rw [← hg]; exact hN (n + 1) (by omega)⟩

theorem Settles.bind {f : Nat → Option β} {g : Nat → β → Option γ} {b : β} {c : γ}
    (hf : Settles f b) (hg : Settles (fun n => g n b) c) : Settles (fun n => (f n).bind (g n)) c := by
  obtain ⟨N, hN⟩ := hf
  obtain ⟨M, hM⟩ := hg
  refine ⟨max N M, fun n hn => ?_⟩
  show (f n).bind (g n) = some c
  rw [hN n (le_trans (le_max_left N M) hn)]
  exact hM n (le_trans (le_max_right N M) hn)

theorem Settles.map {f : Nat → Option β} {b : β} (h : Settles f b) (g : β → γ) :
    Settles (fun n => (f n).map g) (g b) := by
  obtain ⟨N, hN⟩ := h
  exact ⟨N, fun n hn => by simp only [hN n hn, Option.map_some]⟩

theorem Settles.congr {f g : Nat → Option β} {b : β} (h : Settles f b) (hfg : ∀ n, g n = f n) :
    Settles g b := by
  obtain ⟨N, hN⟩ := h
  exact ⟨N, fun n hn => by rw [hfg]; exact hN n hn⟩

end Fuel
