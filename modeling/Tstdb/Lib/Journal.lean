/-
# `Tstdb.Lib.Journal` — a log of assignments and the map it makes

A journal is a list of assignments of values to keys, carried out in order.  What
it makes of a map at a key is the last value it assigns there, and what was there
before if it assigns none.  So a journal that has been carried out changes nothing
when it is carried out again, and this stays so while it grows (`Settled`): the
fact a recovery rests on that may replay the same log any number of times.
-/
import Mathlib

namespace Journal

variable {α β : Type} [DecidableEq α]

/-- Carry out the assignments in order. -/
def replay (m : α → β) (log : List (α × β)) : α → β :=
  log.foldl (fun m e => Function.update m e.1 e.2) m

/-- The last value the journal assigns to a key. -/
def last? (log : List (α × β)) (k : α) : Option β := (log.reverse.find? fun e => e.1 = k).map Prod.snd

@[simp] theorem replay_nil (m : α → β) : replay m [] = m := rfl

theorem replay_append (m : α → β) (log log' : List (α × β)) :
    replay m (log ++ log') = replay (replay m log) log' := List.foldl_append

theorem replay_concat (m : α → β) (log : List (α × β)) (k : α) (v : β) :
    replay m (log ++ [(k, v)]) = Function.update (replay m log) k v := by
  rw [replay_append]
  rfl

theorem replay_apply (m : α → β) (k : α) (log : List (α × β)) :
    replay m log k = (last? log k).getD (m k) := by
  induction log using List.reverseRecOn with
  | nil => rfl
  | append_singleton log e ih =>
      obtain ⟨k', v⟩ := e
      rw [replay_concat]
      unfold last? at ih ⊢
      rw [List.reverse_append, List.reverse_singleton, List.singleton_append, List.find?_cons]
      by_cases h : k = k'
      · subst h
        simp
      · have h' : ¬ k' = k := fun e => h e.symm
        simp only [h', decide_false]
        rw [Function.update_of_ne h, ih]

/-- The journal changes nothing any more. -/
def Settled (m : α → β) (log : List (α × β)) : Prop := replay m log = m

/-- A second replay changes nothing. -/
theorem settled_replay (m : α → β) (log : List (α × β)) : Settled (replay m log) log := by
  funext k
  rw [replay_apply, replay_apply]
  cases last? log k <;> rfl

/-- A settled journal that grows is settled again once the new part is carried out. -/
theorem Settled.append {m : α → β} {log : List (α × β)} (h : Settled m log) (log' : List (α × β)) :
    Settled (replay m log') (log ++ log') := by
  have hm : replay m log' = replay m (log ++ log') := by rw [replay_append, h]
  rw [hm]
  exact settled_replay m (log ++ log')

end Journal
