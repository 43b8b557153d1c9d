/-
# `Tstdb.Lib.TernaryWords` — the words of a ternary search tree in order

Walking a tree left child, node, middle child, right child lists the words that have
a value, in the lexicographic order in which a word comes before its extensions
(`words_sorted`, `mem_words`).  Three walks visit a part of the tree only, and the
last section of this file says which words they list: those below a bound, those
from a bound on, and those with a given prefix.

The bounds here are words with a terminator, a letter `z` that no node has.  A walk
that compares a word with a bound letter by letter and meets the end of the bound
compares with `z`; so it takes an extension of the bound for smaller when its next
letter is below `z`.
-/
import Mathlib
import Tstdb.Lib.TernaryTree

namespace TTree

variable {ι α ν : Type}

/-- The word of the node itself, where it has a value. -/
def here [Zero ν] [DecidableEq ν] (c : α) (v : ν) : List (List α) := if v = 0 then [] else [[c]]

/-- The words with a value, in the order of the walk. -/
def words [Zero ν] [DecidableEq ν] : TTree ι α ν → List (List α)
  | nil => []
  | node _ c v l m r => l.words ++ (here c v ++ (m.words.map (c :: ·) ++ r.words))

/-- The longest path, counted in letters. -/
def depth : TTree ι α ν → Nat
  | nil => 0
  | node _ _ _ l m r => max l.depth (max (m.depth + 1) r.depth)

section Words

variable [Zero ν] [DecidableEq ν]

theorem mem_here {c : α} {v : ν} {w : List α} : w ∈ here c v ↔ v ≠ 0 ∧ w = [c] := by
  by_cases h : v = 0 <;> simp [here, h]

@[simp] theorem reverse_here (c : α) (v : ν) : (here c v).reverse = here c v := by
  unfold here
  split_ifs <;> rfl

/-- A word starts with a letter of the top level. -/
theorem head_of_mem_words : ∀ {t : TTree ι α ν} {w : List α}, w ∈ t.words → ∃ a k, w = a :: k ∧ a ∈ t.sibs := by
  intro t
  induction t with
  | nil => intro w h; cases h
  | node i c v l m r ihl ihm ihr =>
      intro w h
      simp only [words, List.mem_append, List.mem_map] at h
      simp only [sibs, List.mem_append, List.mem_cons]
      rcases h with h | h | ⟨k, -, rfl⟩ | h
      · obtain ⟨a, k, e, ha⟩ := ihl h
        exact ⟨a, k, e, Or.inl ha⟩
      · exact ⟨c, [], (mem_here.mp h).2, Or.inr (Or.inl rfl)⟩
      · exact ⟨c, k, rfl, Or.inr (Or.inl rfl)⟩
      · obtain ⟨a, k, e, ha⟩ := ihr h
        exact ⟨a, k, e, Or.inr (Or.inr ha)⟩

end Words

section Order

variable [LinearOrder α] [Zero ν] [DecidableEq ν]

/-- The words of the left child come before everything that starts with the letter. -/
theorem words_lt_of_left {l : TTree ι α ν} {c : α} (hl : ∀ a ∈ l.sibs, a < c) {w : List α} (hw : w ∈ l.words)
    (k : List α) : w < c :: k := by
  obtain ⟨a, w', rfl, ha⟩ := head_of_mem_words hw
  exact List.cons_lt_cons_iff.mpr (Or.inl (hl a ha))

theorem lt_words_of_right {r : TTree ι α ν} {c : α} (hr : ∀ a ∈ r.sibs, c < a) {w : List α} (hw : w ∈ r.words)
    (k : List α) : c :: k < w := by
  obtain ⟨a, w', rfl, ha⟩ := head_of_mem_words hw
  exact List.cons_lt_cons_iff.mpr (Or.inl (hr a ha))

/-- The walk lists exactly the words that have a value. -/
theorem mem_words : ∀ {t : TTree ι α ν}, t.Ordered → ∀ {w : List α}, w ∈ t.words ↔ t.lookup w ≠ 0 := by
  intro t
  induction t with
  | nil => intro _ w; cases w <;> simp [words, lookup]
  | node i c v l m r ihl ihm ihr =>
      rintro ⟨hl, hr, ol, om, or⟩ w
      have inl : ∀ {k : List α}, c :: k ∉ l.words := fun h => lt_irrefl _ (words_lt_of_left hl h _)
      have inr : ∀ {k : List α}, c :: k ∉ r.words := fun h => lt_irrefl _ (lt_words_of_right hr h _)
      cases w with
      | nil =>
          have hno : ∀ t : TTree ι α ν, [] ∉ t.words := fun t h => by
            obtain ⟨a, k, e, -⟩ := head_of_mem_words h
            cases e
          simpa [lookup] using hno (node i c v l m r)
      | cons a k =>
          simp only [words, List.mem_append, List.mem_map, mem_here, lookup]
          rcases lt_trichotomy a c with h | rfl | h
          · rw [if_pos h, ← ihl ol]
            constructor
            · rintro (h' | ⟨-, e⟩ | ⟨k', -, e⟩ | h')
              · exact h'
              · exact absurd (List.cons.inj e).1 (ne_of_lt h)
              · exact absurd (List.cons.inj e).1.symm (ne_of_lt h)
              · exact absurd (List.cons_lt_cons_iff.mpr (Or.inl h)) (lt_asymm (lt_words_of_right hr h' []))
            · exact Or.inl
          · rw [if_neg (lt_irrefl _), if_neg (lt_irrefl _)]
            by_cases hk : k = []
            · subst hk
              rw [if_pos rfl]
              constructor
              · rintro (h' | ⟨hv, -⟩ | ⟨k', hk', e⟩ | h')
                · exact absurd h' inl
                · exact hv
                · obtain ⟨b, k'', rfl, -⟩ := head_of_mem_words hk'
                  cases e
                · exact absurd h' inr
              · exact fun hv => Or.inr (Or.inl ⟨hv, rfl⟩)
            · rw [if_neg hk, ← ihm om]
              constructor
              · rintro (h' | ⟨-, e⟩ | ⟨k', hk', e⟩ | h')
                · exact absurd h' inl
                · exact absurd (List.cons.inj e).2 hk
                · rwa [← (List.cons.inj e).2]
                · exact absurd h' inr
              · exact fun h' => Or.inr (Or.inr (Or.inl ⟨k, h', rfl⟩))
          · rw [if_neg (lt_asymm h), if_pos h, ← ihr or]
            constructor
            · rintro (h' | ⟨-, e⟩ | ⟨k', -, e⟩ | h')
              · exact absurd (List.cons_lt_cons_iff.mpr (Or.inl h)) (lt_asymm (words_lt_of_left hl h' []))
              · exact absurd (List.cons.inj e).1 (ne_of_gt h)
              · exact absurd (List.cons.inj e).1.symm (ne_of_gt h)
              · exact h'
            · exact fun h' => Or.inr (Or.inr (Or.inr h'))

theorem words_sorted : ∀ {t : TTree ι α ν}, t.Ordered → t.words.Pairwise (· < ·) := by
  intro t
  induction t with
  | nil => intro _; exact List.Pairwise.nil
  | node i c v l m r ihl ihm ihr =>
      intro ⟨hl, hr, ol, om, or⟩
      have hhere : (here c v).Pairwise (· < ·) := by unfold here; split_ifs <;> simp
      have hmid : (m.words.map (c :: ·)).Pairwise (· < ·) :=
        (ihm om).map (c :: ·) fun a b h => List.cons_lt_cons_iff.mpr (Or.inr ⟨rfl, h⟩)
      simp only [words, List.pairwise_append]
      refine ⟨ihl ol, ⟨hhere, ⟨hmid, ihr or, fun w hw w' hw' => ?_⟩, fun w hw w' hw' => ?_⟩,
        fun w hw w' hw' => ?_⟩
      · obtain ⟨k, -, rfl⟩ := List.mem_map.mp hw
        exact lt_words_of_right hr hw' k
      · obtain ⟨-, rfl⟩ := mem_here.mp hw
        rcases List.mem_append.mp hw' with h | h
        · obtain ⟨k, hk, rfl⟩ := List.mem_map.mp h
          obtain ⟨b, k', rfl, -⟩ := head_of_mem_words hk
          exact List.cons_lt_cons_iff.mpr (Or.inr ⟨rfl, List.nil_lt_cons _ _⟩)
        · exact lt_words_of_right hr h []
      · rcases List.mem_append.mp hw' with h | h
        · obtain ⟨-, rfl⟩ := mem_here.mp h
          exact words_lt_of_left hl hw []
        · rcases List.mem_append.mp h with h | h
          · obtain ⟨k, -, rfl⟩ := List.mem_map.mp h
            exact words_lt_of_left hl hw k
          · obtain ⟨a, k, rfl, ha⟩ := head_of_mem_words hw
            exact lt_trans (List.cons_lt_cons_iff.mpr (Or.inl (hl a ha))) (lt_words_of_right hr h [])

/-! ## Walks that visit a part -/

omit [LinearOrder α] in
theorem filter_map_cons (c : α) (P : List α → Prop) [DecidablePred P] (ws : List (List α)) :
    (ws.map (c :: ·)).filter (fun w => P w) = (ws.filter fun w => P (c :: w)).map (c :: ·) := by
  rw [List.filter_map]
  rfl

/-- Below a bound: at each node the walk goes to one side or goes on with the rest of
the bound. -/
theorem filter_lt_node {i : ι} {c : α} {v : ν} {l m r : TTree ι α ν} (h : (node i c v l m r).Ordered) (a : α)
    (k : List α) : (node i c v l m r).words.filter (· < a :: k) =
      if a < c then l.words.filter (· < a :: k)
      else if c < a then l.words ++ (here c v ++ (m.words.map (c :: ·) ++ r.words.filter (· < a :: k)))
      else l.words ++ ((if k = [] then [] else here c v) ++ (m.words.filter (· < k)).map (c :: ·)) := by
  obtain ⟨hl, hr, -, -, -⟩ := h
  have hnil : ∀ (ws : List (List α)), (∀ w ∈ ws, ¬ w < a :: k) → ws.filter (· < a :: k) = [] := fun ws h =>
    List.filter_eq_nil_iff.mpr fun w hw => by simpa using h w hw
  have hall : ∀ (ws : List (List α)), (∀ w ∈ ws, w < a :: k) → ws.filter (· < a :: k) = ws := fun ws h =>
    List.filter_eq_self.mpr fun w hw => by simpa using h w hw
  simp only [words, List.filter_append]
  rcases lt_trichotomy a c with hac | rfl | hca
  · have hgt : ∀ k', ¬ c :: k' < a :: k := fun k' => lt_asymm (List.cons_lt_cons_iff.mpr (Or.inl hac))
    rw [if_pos hac, hnil (here c v), hnil (m.words.map _), hnil r.words]
    · simp
    · exact fun w hw hlt => hgt [] (lt_trans (lt_words_of_right hr hw []) hlt)
    · intro w hw
      obtain ⟨k', -, rfl⟩ := List.mem_map.mp hw
      exact hgt k'
    · intro w hw
      rw [(mem_here.mp hw).2]
      exact hgt []
  · rw [if_neg (lt_irrefl _), if_neg (lt_irrefl _), hall l.words fun w hw => words_lt_of_left hl hw k,
      hnil r.words fun w hw => lt_asymm (lt_words_of_right hr hw k), filter_map_cons]
    have hmid : ∀ w : List α, (a :: w < a :: k) = (w < k) := fun w => by simp
    simp only [hmid, List.append_nil]
    congr 2
    by_cases hk : k = []
    · rw [if_pos hk, hnil]
      intro w hw hlt
      rw [(mem_here.mp hw).2, hk] at hlt
      exact lt_irrefl _ hlt
    · rw [if_neg hk, hall]
      intro w hw
      obtain ⟨b, k', rfl⟩ := List.exists_cons_of_ne_nil hk
      rw [(mem_here.mp hw).2]
      exact List.cons_lt_cons_iff.mpr (Or.inr ⟨rfl, List.nil_lt_cons _ _⟩)
  · have hlt : ∀ k', c :: k' < a :: k := fun k' => List.cons_lt_cons_iff.mpr (Or.inl hca)
    rw [if_neg (lt_asymm hca), if_pos hca, hall l.words, hall (here c v), hall (m.words.map _)]
    · intro w hw
      obtain ⟨k', -, rfl⟩ := List.mem_map.mp hw
      exact hlt k'
    · intro w hw
      rw [(mem_here.mp hw).2]
      exact hlt []
    · exact fun w hw => lt_trans (words_lt_of_left hl hw []) (hlt [])

/-- From a bound on, as a walk sees it: the bound itself, and what comes after the
terminated bound. -/
def From (z : α) (k w : List α) : Prop := w = k ∨ k ++ [z] < w

instance (z : α) (k w : List α) : Decidable (From z k w) := by unfold From; infer_instance

theorem from_cons {z a c : α} {k w : List α} :
    From z (a :: k) (c :: w) ↔ a < c ∨ a = c ∧ From z k w := by
  simp only [From, List.cons.injEq, List.cons_append, List.cons_lt_cons_iff]
  constructor
  · rintro (⟨rfl, rfl⟩ | h | ⟨rfl, h⟩)
    · exact Or.inr ⟨rfl, Or.inl rfl⟩
    · exact Or.inl h
    · exact Or.inr ⟨rfl, Or.inr h⟩
  · rintro (h | ⟨rfl, rfl | h⟩)
    · exact Or.inr (Or.inl h)
    · exact Or.inl ⟨rfl, rfl⟩
    · exact Or.inr (Or.inr ⟨rfl, h⟩)

theorem from_of_lt {z b : α} {k : List α} (h : k.headD z < b) (w : List α) : From z k (b :: w) := by
  cases k with
  | nil => exact Or.inr (List.cons_lt_cons_iff.mpr (Or.inl h))
  | cons a k => exact from_cons.mpr (Or.inl h)

theorem not_from_of_lt {z b : α} {k : List α} (h : b < k.headD z) (w : List α) : ¬ From z k (b :: w) := by
  cases k with
  | nil =>
      rintro (h' | h')
      · cases h'
      · exact lt_asymm h' (List.cons_lt_cons_iff.mpr (Or.inl h))
  | cons a k =>
      intro h'
      rcases from_cons.mp h' with h'' | ⟨e, -⟩
      · exact lt_asymm h h''
      · exact ne_of_gt h e

/-- From a bound on: the mirror image of `filter_lt_node`, and the bound itself where
it ends at the node. -/
theorem filter_from_node {i : ι} {c z : α} {v : ν} {l m r : TTree ι α ν} (h : (node i c v l m r).Ordered)
    (hz : c ≠ z) (k : List α) : (node i c v l m r).words.filter (From z k) =
      if k.headD z < c then l.words.filter (From z k) ++ (here c v ++ (m.words.map (c :: ·) ++ r.words))
      else if c < k.headD z then r.words.filter (From z k)
      else (if k.tail = [] then here c v else []) ++
        ((m.words.filter (From z k.tail)).map (c :: ·) ++ r.words) := by
  obtain ⟨hl, hr, -, -, -⟩ := h
  have hnil : ∀ (ws : List (List α)), (∀ w ∈ ws, ¬ From z k w) → ws.filter (From z k) = [] := fun ws h =>
    List.filter_eq_nil_iff.mpr fun w hw => by simpa using h w hw
  have hall : ∀ (ws : List (List α)), (∀ w ∈ ws, From z k w) → ws.filter (From z k) = ws := fun ws h =>
    List.filter_eq_self.mpr fun w hw => by simpa using h w hw
  have hhead : ∀ w ∈ here c v, ∃ k', w = c :: k' := fun w hw => ⟨[], (mem_here.mp hw).2⟩
  have hmid : ∀ w ∈ m.words.map (c :: ·), ∃ k', w = c :: k' := fun w hw => by
    obtain ⟨k', -, rfl⟩ := List.mem_map.mp hw
    exact ⟨k', rfl⟩
  simp only [words, List.filter_append]
  rcases lt_trichotomy (k.headD z) c with hac | hac | hca
  · have hfrom : ∀ w, (∃ k', w = c :: k') → From z k w := by
      rintro w ⟨k', rfl⟩
      exact from_of_lt hac k'
    rw [if_pos hac, hall (here c v) fun w hw => hfrom w (hhead w hw),
      hall (m.words.map _) fun w hw => hfrom w (hmid w hw), hall r.words]
    intro w hw
    obtain ⟨b, k', rfl, hb⟩ := head_of_mem_words hw
    exact from_of_lt (lt_trans hac (hr b hb)) k'
  · -- the letters are the same, so the bound has not ended
    cases k with
    | nil => exact absurd hac.symm hz
    | cons a k =>
        have hac' : a = c := hac
        subst hac'
        simp only [List.headD_cons, lt_irrefl, if_false, List.tail_cons]
        rw [hnil l.words, hall r.words, filter_map_cons]
        · have hsame : ∀ w : List α, From z (a :: k) (a :: w) = From z k w := fun w => by
            rw [from_cons]; simp
          simp only [hsame, List.nil_append]
          congr 1
          by_cases hk : k = []
          · subst hk
            refine (hall _ fun w hw => ?_).trans (if_pos rfl).symm
            exact Or.inl (mem_here.mp hw).2
          · simp only [hk, if_false]
            refine hnil _ fun w hw hf => ?_
            rw [(mem_here.mp hw).2, hsame] at hf
            rcases hf with e | hlt
            · exact hk e.symm
            · exact List.not_lt_nil _ hlt
        · intro w hw
          obtain ⟨b, k', rfl, hb⟩ := head_of_mem_words hw
          exact from_of_lt (hr b hb) k'
        · intro w hw
          obtain ⟨b, k', rfl, hb⟩ := head_of_mem_words hw
          exact not_from_of_lt (hl b hb) k'
  · have hnot : ∀ w, (∃ k', w = c :: k') → ¬ From z k w := by
      rintro w ⟨k', rfl⟩
      exact not_from_of_lt hca k'
    rw [if_neg (lt_asymm hca), if_pos hca, hnil l.words, hnil (here c v) fun w hw => hnot w (hhead w hw),
      hnil (m.words.map _) fun w hw => hnot w (hmid w hw)]
    · simp
    · intro w hw
      obtain ⟨b, k', rfl, hb⟩ := head_of_mem_words hw
      exact not_from_of_lt (lt_trans (hl b hb) hca) k'

/-- Below a terminated bound. -/
theorem filter_below_node {i : ι} {c z : α} {v : ν} {l m r : TTree ι α ν} (h : (node i c v l m r).Ordered)
    (hz : c ≠ z) (k : List α) : (node i c v l m r).words.filter (· < k ++ [z]) =
      if k.headD z < c then l.words.filter (· < k ++ [z])
      else if c < k.headD z then
        l.words ++ (here c v ++ (m.words.map (c :: ·) ++ r.words.filter (· < k ++ [z])))
      else l.words ++ (here c v ++ (m.words.filter (· < k.tail ++ [z])).map (c :: ·)) := by
  cases k with
  | nil =>
      have hf := filter_lt_node h z []
      simp only [List.nil_append, List.headD_nil, List.tail_nil] at hf ⊢
      rw [hf]
      rcases lt_trichotomy z c with h' | h' | h'
      · simp only [h', if_true]
      · exact absurd h'.symm hz
      · simp only [h', lt_asymm h', if_true, if_false]
  | cons a k =>
      have hf := filter_lt_node h a (k ++ [z])
      rw [if_neg (show k ++ [z] ≠ [] by simp)] at hf
      exact hf

/-! ## Bounds and the order -/

/-- The walk below a bound lists the words up to the bound, and those extensions of
the bound that go on with a letter below the terminator. -/
theorem lt_append_iff {z : α} : ∀ {k w : List α}, w < k ++ [z] ↔ w ≤ k ∨ ∃ x u, w = k ++ x :: u ∧ x < z := by
  intro k
  induction k with
  | nil =>
      intro w
      cases w with
      | nil => simp
      | cons b w =>
          have hle : ¬ b :: w ≤ [] := not_le_of_gt (List.nil_lt_cons b w)
          simp [List.cons_lt_cons_iff, hle]
  | cons a k ih =>
      intro w
      cases w with
      | nil => simp [le_of_lt (List.nil_lt_cons a k)]
      | cons b w =>
          have hle : b :: w ≤ a :: k ↔ b < a ∨ b = a ∧ w ≤ k := by
            rw [le_iff_lt_or_eq, List.cons_lt_cons_iff, le_iff_lt_or_eq, List.cons.injEq]
            tauto
          rw [List.cons_append, List.cons_lt_cons_iff, ih, hle]
          simp only [List.cons_append, List.cons.injEq]
          grind

/-- The walk from a bound on leaves out those extensions of the bound. -/
theorem from_iff {z : α} : ∀ {k w : List α}, z ∉ w → (From z k w ↔ k ≤ w ∧ ¬ ∃ x u, w = k ++ x :: u ∧ x < z) := by
  intro k
  induction k with
  | nil =>
      intro w hw
      cases w with
      | nil => simp [From]
      | cons b w =>
          have hbz : b ≠ z := fun e => hw (by simp [e])
          have hle : [] ≤ b :: w := le_of_lt (List.nil_lt_cons b w)
          rcases lt_or_gt_of_ne hbz with h | h
          · simpa [h, hle] using not_from_of_lt (k := []) h w
          · simpa [hle, le_of_lt h] using from_of_lt (k := []) h w
  | cons a k ih =>
      intro w hw
      cases w with
      | nil =>
          have hle : ¬ a :: k ≤ [] := not_le_of_gt (List.nil_lt_cons a k)
          simp [From, hle]
      | cons b w =>
          have hle : a :: k ≤ b :: w ↔ a < b ∨ a = b ∧ k ≤ w := by
            rw [le_iff_lt_or_eq, List.cons_lt_cons_iff, le_iff_lt_or_eq, List.cons.injEq]
            tauto
          have hw' : z ∉ w := fun h => hw (List.mem_cons_of_mem _ h)
          rw [from_cons, ih hw', hle]
          simp only [List.cons_append, List.cons.injEq]
          grind

/-! ## Prefixes -/

/-- The value and the middle child of the node a word ends at. -/
def under : TTree ι α ν → List α → Option (ν × TTree ι α ν)
  | nil, _ => none
  | node .., [] => none
  | node _ c v l m r, a :: k =>
      if a < c then l.under (a :: k)
      else if c < a then r.under (a :: k)
      else if k = [] then some (v, m)
      else m.under k

omit [DecidableEq ν] in
theorem lookup_of_under : ∀ {t : TTree ι α ν} {k : List α}, t.lookup k = ((t.under k).map Prod.fst).getD 0 := by
  intro t
  induction t with
  | nil => intro k; cases k <;> rfl
  | node i c v l m r ihl ihm ihr =>
      intro k
      cases k with
      | nil => rfl
      | cons a k =>
          simp only [lookup, under]
          split_ifs
          · exact ihl
          · exact ihr
          · rfl
          · exact ihm

omit [Zero ν] [DecidableEq ν] in
/-- Whether the word can be gone on with in the tree. -/
theorem find?_append {t : TTree ι α ν} {w : List α} (hw : w ≠ []) : ∀ {k : List α}, k ≠ [] →
    t.find? (k ++ w) = (t.under k).bind fun p => p.2.find? w := by
  induction t with
  | nil => intro k hk; cases k <;> rfl
  | node i c v l m r ihl ihm ihr =>
      intro k hk
      cases k with
      | nil => exact absurd rfl hk
      | cons a k =>
          simp only [List.cons_append, find?, under]
          split_ifs with h1 h2 h3 h4 h5
          · exact ihl hk
          · exact ihr hk
          · exact absurd (List.append_eq_nil_iff.mp h3).2 hw
          · exact absurd (List.append_eq_nil_iff.mp h3).2 hw
          · rw [h5]; rfl
          · exact ihm h5

omit [Zero ν] [DecidableEq ν] in
theorem eq_nil_iff_find? {t : TTree ι α ν} : t = nil ↔ ∀ w, w ≠ [] → t.find? w = none := by
  constructor
  · rintro rfl w -
    cases w <;> rfl
  · intro h
    cases t with
    | nil => rfl
    | node i c v l m r =>
        have hc := h [c] (by simp)
        simp [find?] at hc

/-- The words with a given prefix: the prefix and what hangs below its node. -/
theorem filter_prefix : ∀ (t : TTree ι α ν), t.Ordered → ∀ (k : List α), k ≠ [] →
    t.words.filter (fun w => decide (k <+: w)) =
      match t.under k with
      | none => []
      | some (v, m) => (if v = 0 then [] else [k]) ++ m.words.map (k ++ ·) := by
  intro t
  induction t with
  | nil => intro _ k _; cases k <;> rfl
  | node i c v l m r ihl ihm ihr =>
      intro ⟨hl, hr, ol, om, or⟩ k hk
      obtain ⟨a, k, rfl⟩ := List.exists_cons_of_ne_nil hk
      have hnil : ∀ (ws : List (List α)), (∀ w ∈ ws, ∃ b u, w = b :: u ∧ b ≠ a) →
          ws.filter (fun w => decide (a :: k <+: w)) = [] := fun ws h =>
        List.filter_eq_nil_iff.mpr fun w hw => by
          obtain ⟨b, u, rfl, hb⟩ := h w hw
          simp [List.cons_prefix_cons, Ne.symm hb]
      have hside : ∀ s : TTree ι α ν, a ∉ s.sibs → ∀ w ∈ s.words, ∃ b u, w = b :: u ∧ b ≠ a := fun s hs w hw => by
        obtain ⟨b, u, rfl, hb⟩ := head_of_mem_words hw
        exact ⟨b, u, rfl, fun e => hs (e ▸ hb)⟩
      have hnode : c ≠ a → ∀ w ∈ here c v ++ m.words.map (c :: ·), ∃ b u, w = b :: u ∧ b ≠ a := by
        intro hca w hw
        rcases List.mem_append.mp hw with h | h
        · exact ⟨c, [], (mem_here.mp h).2, hca⟩
        · obtain ⟨u, -, rfl⟩ := List.mem_map.mp h
          exact ⟨c, u, rfl, hca⟩
      simp only [words, under]
      rcases lt_trichotomy a c with h | rfl | h
      · rw [if_pos h, ← ihl ol _ hk, ← List.append_assoc (here c v), List.filter_append, List.filter_append,
          hnil _ (hnode (ne_of_gt h)), hnil r.words (hside r fun hm => lt_asymm h (hr a hm))]
        simp
      · rw [if_neg (lt_irrefl _), if_neg (lt_irrefl _), List.filter_append, List.filter_append,
          List.filter_append, hnil l.words (hside l fun hm => lt_irrefl _ (hl a hm)),
          hnil r.words (hside r fun hm => lt_irrefl _ (hr a hm)), filter_map_cons]
        have hsame : ∀ w : List α, (a :: k <+: a :: w) = (k <+: w) := fun w => by simp
        simp only [hsame, List.nil_append, List.append_nil]
        by_cases hk0 : k = []
        · subst hk0
          simp [here]
        · rw [if_neg hk0, ihm om k hk0]
          have hno : (here a v).filter (fun w => decide (a :: k <+: w)) = [] := by
            refine List.filter_eq_nil_iff.mpr fun w hw => ?_
            rw [(mem_here.mp hw).2]
            simpa using hk0
          rw [hno]
          cases m.under k with
          | none => rfl
          | some p =>
              by_cases hv : p.1 = 0
              · simp [hv, Function.comp_def]
              · simp [hv, Function.comp_def]
      · rw [if_neg (lt_asymm h), if_pos h, ← ihr or _ hk, ← List.append_assoc (here c v), List.filter_append,
          List.filter_append, hnil _ (hnode (ne_of_lt h)), hnil l.words (hside l fun hm => lt_asymm h (hl a hm))]
        simp

end Order

end TTree
