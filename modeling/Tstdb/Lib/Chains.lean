/-
# `Tstdb.Lib.Chains` — linked lists that share one set of cells

Cells are linked by one `next` function, and every cell belongs to one of several
owners, each of which knows the head of its list.  `Chain next head l` says that the
cells from `head` on are `l`; being a finite list it is acyclic.  `Owned` says that
the lists of all owners are disjoint and together hold exactly the cells there are.

Two moves keep this up: the first cell of one list becomes the last of another
(`Owned.pass`), or the first of another (`Owned.release`).  An allocator with a free
list and queues that take cells from it and give them back makes no others.
-/
import Mathlib

namespace Chains

variable {α ω : Type}

/-- The cells from a head on through `next`, to the end. -/
def Chain (next : α → Option α) : Option α → List α → Prop
  | head, [] => head = none
  | head, a :: l => head = some a ∧ Chain next (next a) l

section Chain

variable {next next' : α → Option α} {head : Option α} {l l' : List α}

@[simp] theorem chain_nil : Chain next head [] ↔ head = none := Iff.rfl

@[simp] theorem chain_cons {a : α} : Chain next head (a :: l) ↔ head = some a ∧ Chain next (next a) l := Iff.rfl

/-- The head and the links determine the list. -/
theorem Chain.unique : ∀ {l l' : List α} {head : Option α}, Chain next head l → Chain next head l' → l = l' := by
  intro l
  induction l with
  | nil =>
      intro l' head h h'
      cases l' with
      | nil => rfl
      | cons a l' => exact absurd (h.symm.trans h'.1) (by simp)
  | cons a l ih =>
      intro l' head h h'
      cases l' with
      | nil => exact absurd (h'.symm.trans h.1) (by simp)
      | cons a' l' =>
          obtain rfl : a = a' := Option.some.inj (h.1.symm.trans h'.1)
          rw [ih h.2 h'.2]

/-- Only the links of the cells in the list matter. -/
theorem Chain.congr : ∀ {l : List α} {head : Option α}, Chain next head l → (∀ a ∈ l, next' a = next a) →
    Chain next' head l := by
  intro l
  induction l with
  | nil => intro head h _; exact h
  | cons a l ih =>
      intro head h hn
      refine ⟨h.1, ?_⟩
      rw [hn a List.mem_cons_self]
      exact ih h.2 fun b hb => hn b (List.mem_cons_of_mem a hb)

theorem Chain.head_eq (h : Chain next head l) : head = l.head? := by
  cases l with
  | nil => exact h
  | cons a l => exact h.1

/-- The last cell points nowhere. -/
theorem Chain.next_getLast : ∀ {l : List α} {head : Option α}, Chain next head l →
    ∀ t ∈ l.getLast?, next t = none := by
  intro l
  induction l with
  | nil => intro head _ t ht; cases ht
  | cons a l ih =>
      intro head h t ht
      cases l with
      | nil =>
          obtain rfl : a = t := by simpa using ht
          exact h.2
      | cons b l => exact ih h.2 t (by rwa [List.getLast?_cons_cons] at ht)

/-- A new cell is linked in behind the last one. -/
theorem Chain.append_singleton {b : α} : ∀ {l : List α} {head : Option α}, Chain next head l →
    (∀ a ∈ l, l.getLast? ≠ some a → next' a = next a) → (∀ t ∈ l.getLast?, next' t = some b) →
    next' b = none → Chain next' (if l = [] then some b else head) (l ++ [b]) := by
  intro l
  induction l with
  | nil => intro head _ _ _ hb; exact ⟨rfl, hb⟩
  | cons a l ih =>
      intro head h hn ht hb
      rw [if_neg (List.cons_ne_nil a l)]
      refine ⟨h.1, ?_⟩
      cases l with
      | nil => exact ⟨ht a rfl, hb⟩
      | cons c l =>
          have hi := ih h.2 ?_ ?_ hb
          · rw [if_neg (List.cons_ne_nil c l)] at hi
            by_cases hlast : (a :: c :: l).getLast? = some a
            · -- then `a` stands twice, and its link goes to `c` and nowhere
              have hnone := h.2.next_getLast a (by rwa [List.getLast?_cons_cons] at hlast)
              exact absurd (h.2.1.symm.trans hnone) (by simp)
            · rw [show next' a = next a from hn a List.mem_cons_self hlast]
              exact hi
          · intro x hx hx'
            exact hn x (List.mem_cons_of_mem a hx) (by rwa [List.getLast?_cons_cons])
          · intro t ht'
            exact ht t (by rwa [List.getLast?_cons_cons])

end Chain

/-- Every cell is in the list of exactly one owner, once. -/
structure Partition (P : α → Prop) (own : ω → List α) : Prop where
  nodup : ∀ o, (own o).Nodup
  disjoint : ∀ {o o' a}, a ∈ own o → a ∈ own o' → o = o'
  covers : ∀ a, P a ↔ ∃ o, a ∈ own o

/-- The lists of the owners are the chains from their heads. -/
structure Owned (P : α → Prop) (next : α → Option α) (head : ω → Option α) (own : ω → List α) : Prop
    extends Partition P own where
  chain : ∀ o, Chain next (head o) (own o)

section Moves

variable [DecidableEq ω] {P : α → Prop} {next next' : α → Option α} {head head' : ω → Option α}
  {own : ω → List α} {o o' : ω} {a : α} {l : List α}

/-- Cells may change places between two owners. -/
theorem Partition.exchange (h : Partition P own) (hne : o ≠ o') {l l' : List α}
    (hp : (l ++ l').Perm (own o ++ own o')) :
    Partition P (Function.update (Function.update own o l) o' l') := by
  have hold : (own o ++ own o').Nodup :=
    List.nodup_append.mpr ⟨h.nodup o, h.nodup o', fun a ha b hb e => hne (h.disjoint ha (e ▸ hb))⟩
  have hnew : (l ++ l').Nodup := hp.symm.nodup hold
  obtain ⟨hl, hl', hdis⟩ := List.nodup_append.mp hnew
  have hmem : ∀ a, a ∈ l ∨ a ∈ l' ↔ a ∈ own o ∨ a ∈ own o' := fun a => by
    rw [← List.mem_append, ← List.mem_append, hp.mem_iff]
  have hget : ∀ x, Function.update (Function.update own o l) o' l' x
      = if x = o' then l' else if x = o then l else own x := fun x => by
    simp only [Function.update_apply]
  refine ⟨fun x => ?_, fun {x y a} hx hy => ?_, fun a => ?_⟩
  · rw [hget]
    split_ifs
    · exact hl'
    · exact hl
    · exact h.nodup x
  · -- which of the two, or which third owner, has the cell
    have key : ∀ z, a ∈ Function.update (Function.update own o l) o' l' z →
        (z = o' ∧ a ∈ l') ∨ (z = o ∧ a ∈ l) ∨ (z ≠ o ∧ z ≠ o' ∧ a ∈ own z) := by
      intro z hz
      rw [hget] at hz
      split_ifs at hz with h₁ h₂
      · exact Or.inl ⟨h₁, hz⟩
      · exact Or.inr (Or.inl ⟨h₂, hz⟩)
      · exact Or.inr (Or.inr ⟨h₂, h₁, hz⟩)
    have third : ∀ z, z ≠ o → z ≠ o' → a ∈ own z → a ∈ l ∨ a ∈ l' → False := by
      intro z h₁ h₂ hz hl
      rcases (hmem a).mp hl with h' | h'
      · exact h₁ (h.disjoint hz h')
      · exact h₂ (h.disjoint hz h')
    rcases key x hx with ⟨rfl, ha⟩ | ⟨rfl, ha⟩ | ⟨h₁, h₂, ha⟩ <;>
      rcases key y hy with ⟨rfl, hb⟩ | ⟨rfl, hb⟩ | ⟨h₃, h₄, hb⟩
    · rfl
    · exact absurd rfl (hdis _ hb _ ha)
    · exact (third y h₃ h₄ hb (Or.inr ha)).elim
    · exact absurd rfl (hdis _ ha _ hb)
    · rfl
    · exact (third y h₃ h₄ hb (Or.inl ha)).elim
    · exact (third x h₁ h₂ ha (Or.inr hb)).elim
    · exact (third x h₁ h₂ ha (Or.inl hb)).elim
    · exact h.disjoint ha hb
  · rw [h.covers a]
    constructor
    · rintro ⟨z, hz⟩
      rcases Classical.em (z = o ∨ z = o') with hzo | hzo
      · have hz' : a ∈ l ∨ a ∈ l' := (hmem a).mpr (by
          rcases hzo with rfl | rfl
          · exact Or.inl hz
          · exact Or.inr hz)
        rcases hz' with hz' | hz'
        · exact ⟨o, by rw [hget, if_neg hne, if_pos rfl]; exact hz'⟩
        · exact ⟨o', by rw [hget, if_pos rfl]; exact hz'⟩
      · obtain ⟨h₁, h₂⟩ := not_or.mp hzo
        exact ⟨z, by rw [hget, if_neg h₂, if_neg h₁]; exact hz⟩
    · rintro ⟨z, hz⟩
      rw [hget] at hz
      split_ifs at hz
      · rcases (hmem a).mp (Or.inr hz) with h' | h'
        · exact ⟨o, h'⟩
        · exact ⟨o', h'⟩
      · rcases (hmem a).mp (Or.inl hz) with h' | h'
        · exact ⟨o, h'⟩
        · exact ⟨o', h'⟩
      · exact ⟨z, hz⟩

omit [DecidableEq ω] in
/-- The cells of other lists are other cells. -/
theorem Partition.ne_of_mem (h : Partition P own) {x y : ω} {a b : α} (ha : a ∈ own x) (hb : b ∈ own y)
    (hne : x ≠ y) : a ≠ b := fun e => hne (h.disjoint ha (e ▸ hb))

/-- The first cell of one list becomes the last of another. -/
theorem Owned.pass (h : Owned P next head own) (hne : o ≠ o') (ho : own o = a :: l)
    (hnext : ∀ b, b ≠ a → (own o').getLast? ≠ some b → next' b = next b)
    (hlast : ∀ t ∈ (own o').getLast?, next' t = some a) (ha : next' a = none)
    (hhead : head' o = next a) (hhead' : head' o' = if own o' = [] then some a else head o')
    (hother : ∀ x, x ≠ o → x ≠ o' → head' x = head x) :
    Owned P next' head' (Function.update (Function.update own o l) o' (own o' ++ [a])) := by
  have hao : a ∈ own o := by rw [ho]; exact List.mem_cons_self
  have hnd : a ∉ l := by
    have := h.nodup o
    rw [ho] at this
    exact (List.nodup_cons.mp this).1
  have hc := h.chain o
  rw [ho] at hc
  refine ⟨h.toPartition.exchange hne ?_, fun x => ?_⟩
  · rw [ho, ← List.append_assoc, List.cons_append]
    exact List.perm_append_singleton a (l ++ own o')
  · simp only [Function.update_apply]
    split_ifs with h₁ h₂
    · subst h₁
      rw [hhead']
      refine (h.chain x).append_singleton (fun b hb hb' => ?_) hlast ha
      exact hnext b (h.ne_of_mem hb hao (Ne.symm hne)) hb'
    · subst h₂
      rw [hhead]
      refine hc.2.congr fun b hb => ?_
      have hbo : b ∈ own x := by rw [ho]; exact List.mem_cons_of_mem a hb
      refine hnext b (fun e => hnd (e ▸ hb)) fun e => ?_
      exact hne (h.disjoint hbo (List.mem_of_getLast? e))
    · rw [hother x h₂ h₁]
      refine (h.chain x).congr fun b hb => ?_
      refine hnext b (h.ne_of_mem hb hao h₂) fun e => ?_
      exact h₁ (h.disjoint hb (List.mem_of_getLast? e))

/-- The first cell of one list becomes the first of another. -/
theorem Owned.release (h : Owned P next head own) (hne : o ≠ o') (ho : own o = a :: l)
    (hnext : ∀ b, b ≠ a → next' b = next b) (ha : next' a = head o')
    (hhead : head' o = next a) (hhead' : head' o' = some a)
    (hother : ∀ x, x ≠ o → x ≠ o' → head' x = head x) :
    Owned P next' head' (Function.update (Function.update own o l) o' (a :: own o')) := by
  have hao : a ∈ own o := by rw [ho]; exact List.mem_cons_self
  have hnd : a ∉ l := by
    have := h.nodup o
    rw [ho] at this
    exact (List.nodup_cons.mp this).1
  have hc := h.chain o
  rw [ho] at hc
  refine ⟨h.toPartition.exchange hne ?_, fun x => ?_⟩
  · rw [ho, List.cons_append]
    exact List.perm_middle
  · simp only [Function.update_apply]
    split_ifs with h₁ h₂
    · subst h₁
      refine ⟨hhead', ?_⟩
      rw [ha]
      exact (h.chain x).congr fun b hb => hnext b (h.ne_of_mem hb hao (Ne.symm hne))
    · subst h₂
      rw [hhead]
      exact hc.2.congr fun b hb => hnext b (fun e => hnd (e ▸ hb))
    · rw [hother x h₂ h₁]
      exact (h.chain x).congr fun b hb => hnext b (h.ne_of_mem hb hao h₂)

end Moves

end Chains
