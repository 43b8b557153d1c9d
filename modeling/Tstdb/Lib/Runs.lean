/-
# `Tstdb.Lib.Runs` — runs of a step relation and what they preserve

A system takes one labelled step after another.  `Run step s as s'` says that the
labels `as` lead from `s` to `s'`.  A condition on the state before a step is put on
a run in one of two ways: `Guarded` cuts the step relation down to the steps that
meet it, `Meets` says that it holds wherever the labels lead, which asks nothing of
a run that does not exist.  The two rules are the ones safety proofs use: an
invariant that every step keeps holds after the run, and a state that is related to
an abstract one stays related to what the abstract machine makes of the same labels.
-/
import Mathlib

namespace Runs

variable {σ τ α : Type} {step : σ → α → σ → Prop}

/-- The labels lead from the first state to the second. -/
inductive Run (step : σ → α → σ → Prop) : σ → List α → σ → Prop
  | nil (s : σ) : Run step s [] s
  | cons {s s' s'' : σ} {a : α} {as : List α} (h : step s a s') (hs : Run step s' as s'') :
      Run step s (a :: as) s''

/-- The condition holds of every step of the run, in the state the step starts from. -/
def Meets (step : σ → α → σ → Prop) (P : σ → α → Prop) : σ → List α → Prop
  | _, [] => True
  | s, a :: as => P s a ∧ ∀ s', step s a s' → Meets step P s' as

theorem Meets.and {P Q : σ → α → Prop} : ∀ {as : List α} {s : σ}, Meets step P s as →
    Meets step Q s as → Meets step (fun s a => P s a ∧ Q s a) s as
  | [], _, _, _ => trivial
  | _ :: _, _, hp, hq => ⟨⟨hp.1, hq.1⟩, fun s' h => (hp.2 s' h).and (hq.2 s' h)⟩

theorem Meets.imp {P Q : σ → α → Prop} (hpq : ∀ s a, P s a → Q s a) : ∀ {as : List α} {s : σ},
    Meets step P s as → Meets step Q s as
  | [], _, _ => trivial
  | _ :: _, _, hp => ⟨hpq _ _ hp.1, fun s' h => (hp.2 s' h).imp hpq⟩

/-- Two conditions that agree wherever the invariant holds, which the steps that meet
them keep, are met by the same runs. -/
theorem Meets.congr {P Q : σ → α → Prop} {I : σ → Prop} (hpq : ∀ s a, I s → (P s a ↔ Q s a))
    (hstep : ∀ s a s', I s → Q s a → step s a s' → I s') : ∀ {as : List α} {s : σ}, I s →
    (Meets step P s as ↔ Meets step Q s as)
  | [], _, _ => Iff.rfl
  | _ :: _, _, hi => (and_congr_left' (hpq _ _ hi)).trans
      (and_congr_right fun hq => forall_congr' fun s' => imp_congr_right fun h =>
        Meets.congr hpq hstep (hstep _ _ s' hi hq h))

/-- Forward simulation: as long as the steps meet the condition, the run goes
through and stays related to the abstract one. -/
theorem Meets.simulates {P : σ → α → Prop} {R : σ → τ → Prop} (next : τ → α → τ)
    (hstep : ∀ s t a, R s t → P s a → ∃ s', step s a s' ∧ R s' (next t a)) :
    ∀ (as : List α) (s : σ) (t : τ), R s t → Meets step P s as →
      ∃ s', Run step s as s' ∧ R s' (as.foldl next t) := by
  intro as
  induction as with
  | nil => intro s t h _; exact ⟨s, .nil s, h⟩
  | cons a as ih =>
      intro s t h hm
      obtain ⟨s₁, h₁, r₁⟩ := hstep s t a h hm.1
      obtain ⟨s₂, h₂, r₂⟩ := ih s₁ (next t a) r₁ (hm.2 s₁ h₁)
      exact ⟨s₂, .cons h₁ h₂, r₂⟩

/-- The steps that meet a condition on the state they start from. -/
def Guarded (step : σ → α → σ → Prop) (P : σ → α → Prop) (s : σ) (a : α) (s' : σ) : Prop :=
  P s a ∧ step s a s'

theorem Run.unguard {P : σ → α → Prop} {as : List α} {s s' : σ} (h : Run (Guarded step P) s as s') :
    Run step s as s' := by
  induction h with
  | nil s => exact .nil s
  | cons h _ ih => exact .cons h.2 ih

/-- In a deterministic system a guarded run says that the labels meet the condition. -/
theorem Run.meets {P : σ → α → Prop} (hdet : ∀ s a s₁ s₂, step s a s₁ → step s a s₂ → s₁ = s₂)
    {as : List α} {s s' : σ} (h : Run (Guarded step P) s as s') : Meets step P s as := by
  induction h with
  | nil s => trivial
  | cons h _ ih => exact ⟨h.1, fun s₁ h₁ => hdet _ _ _ _ h.2 h₁ ▸ ih⟩

/-- Carry out a run, checking each state before its step. -/
def runChecked (exec : σ → α → Option σ) (check : σ → α → Bool) : σ → List α → Option σ
  | s, [] => some s
  | s, a :: as => if check s a then (exec s a).bind fun s => runChecked exec check s as else none

theorem runChecked_spec {exec : σ → α → Option σ} {check : σ → α → Bool} {P : σ → α → Prop}
    (hexec : ∀ s a s', exec s a = some s' → step s a s') (hcheck : ∀ s a, check s a = true → P s a) :
    ∀ {as : List α} {s s' : σ}, runChecked exec check s as = some s' → Run (Guarded step P) s as s' := by
  intro as
  induction as with
  | nil => intro s s' h; cases h; exact .nil s
  | cons a as ih =>
      intro s s' h
      simp only [runChecked] at h
      split_ifs at h with hc
      obtain ⟨s₁, h₁, h₂⟩ := Option.bind_eq_some_iff.mp h
      exact .cons ⟨hcheck s a hc, hexec s a s₁ h₁⟩ (ih h₂)

/-- The same without a condition, for an abstract machine that has a choice: its run has
the labels of the concrete one. -/
theorem Run.refines {step' : τ → α → τ → Prop} {R : σ → τ → Prop}
    (hstep : ∀ s t a s', R s t → step s a s' → ∃ t', step' t a t' ∧ R s' t') {as : List α} {s s' : σ}
    (h : Run step s as s') : ∀ t, R s t → ∃ t', Run step' t as t' ∧ R s' t' := by
  induction h with
  | nil s => exact fun t hr => ⟨t, .nil t, hr⟩
  | cons h _ ih =>
      intro t hr
      obtain ⟨t₁, h₁, hr₁⟩ := hstep _ t _ _ hr h
      obtain ⟨t₂, h₂, hr₂⟩ := ih t₁ hr₁
      exact ⟨t₂, .cons h₁ h₂, hr₂⟩

/-- An invariant of every step holds after every run. -/
theorem Run.preserves {I : σ → Prop} (hstep : ∀ s a s', I s → step s a s' → I s') {as : List α} {s s' : σ}
    (h : Run step s as s') : I s → I s' := by
  induction h with
  | nil s => exact fun hi => hi
  | cons h _ ih => exact fun hi => ih (hstep _ _ _ hi h)

/-- The same for an abstract machine that follows the labels. -/
theorem Run.simulates {R : σ → τ → Prop} (next : τ → α → τ)
    (hstep : ∀ s t a s', R s t → step s a s' → R s' (next t a)) {as : List α} {s s' : σ} (h : Run step s as s') :
    ∀ t, R s t → R s' (as.foldl next t) := by
  induction h with
  | nil s => exact fun t hr => hr
  | cons h _ ih => exact fun t hr => ih _ (hstep _ t _ _ hr h)

/-- An invariant that good steps keep, and a defect that any other step leaves for good:
a run ends with the one or the other, by whether its steps are good. -/
theorem Run.good_or_bad {P : σ → α → Prop} {I B : σ → Prop}
    (hdet : ∀ s a s₁ s₂, step s a s₁ → step s a s₂ → s₁ = s₂)
    (hgood : ∀ s a s', I s → P s a → step s a s' → I s') (hbad : ∀ s a s', I s → ¬P s a → step s a s' → B s')
    (hkeep : ∀ s a s', B s → step s a s' → B s') {as : List α} {s s' : σ} (h : Run step s as s') :
    I s → (Meets step P s as ∧ I s') ∨ (¬Meets step P s as ∧ B s') := by
  induction h with
  | nil s => exact fun hi => Or.inl ⟨trivial, hi⟩
  | @cons s s₁ s' a as h hs ih =>
      intro hi
      rcases Classical.em (P s a) with hp | hp
      · rcases ih (hgood _ _ _ hi hp h) with ⟨hm, hi'⟩ | ⟨hm, hb⟩
        · exact Or.inl ⟨⟨hp, fun s₂ h₂ => hdet _ _ _ _ h h₂ ▸ hm⟩, hi'⟩
        · exact Or.inr ⟨fun hall => hm (hall.2 _ h), hb⟩
      · exact Or.inr ⟨fun hall => hp hall.1, Run.preserves hkeep hs (hbad _ _ _ hi hp h)⟩

theorem Run.append {s s' s'' : σ} {as bs : List α} (h : Run step s as s') (h' : Run step s' bs s'') :
    Run step s (as ++ bs) s'' := by
  induction h with
  | nil s => exact h'
  | cons h _ ih => exact .cons h (ih h')

/-- A run passes through a state between two parts of its labels. -/
theorem Run.split {as bs : List α} : ∀ {s s'' : σ}, Run step s (as ++ bs) s'' →
    ∃ s', Run step s as s' ∧ Run step s' bs s'' := by
  induction as with
  | nil => exact fun h => ⟨_, .nil _, h⟩
  | cons a as ih =>
      intro s s'' h
      cases h with
      | cons h hs =>
          obtain ⟨s', h₁, h₂⟩ := ih hs
          exact ⟨s', .cons h h₁, h₂⟩

/-- A deterministic system has one run for given labels. -/
theorem Run.unique (hdet : ∀ s a s₁ s₂, step s a s₁ → step s a s₂ → s₁ = s₂) {as : List α} {s s' s'' : σ}
    (h : Run step s as s') (h' : Run step s as s'') : s' = s'' := by
  induction h with
  | nil s => cases h'; rfl
  | cons h _ ih =>
      cases h' with
      | cons h₁ h₁' =>
          obtain rfl := hdet _ _ _ _ h h₁
          exact ih h₁'

end Runs
