/-
# `Tstdb.Lib.TernaryTree` — ternary search trees whose nodes carry a name

A ternary search tree stores a finite map from non-empty words to values.  Each
node holds one letter and a value; its left and right children are the siblings
with a smaller and a greater letter, its middle child holds the tails of the
words that continue through the letter.

The nodes here also carry a *name* `i : ι` (an address, say).  No operation reads
a name to decide anything: names are what an implementation in memory has to
account for, so `put` is told which names its new nodes get and `erase` says which
ones survive.  The value `0` means "no value", so absence needs no option type.

The development is over an arbitrary linear order of letters.
-/
import Mathlib

/-- A ternary search tree: name, letter, value, then left, middle and right child. -/
inductive TTree (ι α ν : Type) where
  | nil
  | node (i : ι) (c : α) (v : ν) (l m r : TTree ι α ν)
deriving DecidableEq, Repr

namespace TTree

variable {ι α ν : Type}

/-- The names in the tree. -/
def ids : TTree ι α ν → List ι
  | nil => []
  | node i _ _ l m r => i :: (l.ids ++ m.ids ++ r.ids)

/-- The name at the top; `0` stands for "no node". -/
def root [Zero ι] : TTree ι α ν → ι
  | nil => 0
  | node i _ _ _ _ _ => i

/-- The letters at the top level, that is along left and right children only. -/
def sibs : TTree ι α ν → List α
  | nil => []
  | node _ c _ l _ r => l.sibs ++ c :: r.sibs

/-- At every level the siblings form a binary search tree on their letters. -/
def Ordered [LT α] : TTree ι α ν → Prop
  | nil => True
  | node _ c _ l m r =>
      (∀ a ∈ l.sibs, a < c) ∧ (∀ a ∈ r.sibs, c < a) ∧ l.Ordered ∧ m.Ordered ∧ r.Ordered

/-- No node is there for nothing: one without a middle child has a value. -/
def Tight [Zero ν] : TTree ι α ν → Prop
  | nil => True
  | node _ _ v l m r => (m = nil → v ≠ 0) ∧ l.Tight ∧ m.Tight ∧ r.Tight

/-- The three links of a node. -/
inductive Side where
  | left | mid | right
deriving DecidableEq, Repr

/-- The child on one side. -/
def kid : Side → TTree ι α ν → TTree ι α ν
  | _, nil => nil
  | .left, node _ _ _ l _ _ => l
  | .mid, node _ _ _ _ m _ => m
  | .right, node _ _ _ _ _ r => r

/-- The tree with another child on one side. -/
def withKid : Side → TTree ι α ν → TTree ι α ν → TTree ι α ν
  | _, nil, _ => nil
  | .left, node i c v _ m r, q => node i c v q m r
  | .mid, node i c v l _ r, q => node i c v l q r
  | .right, node i c v l m _, q => node i c v l m q

section Ops

variable [LinearOrder α] [Zero ν]

/-- The value of a word, `0` when it has none. -/
def lookup : TTree ι α ν → List α → ν
  | nil, _ => 0
  | node .., [] => 0
  | node _ c v l m r, a :: k =>
      if a < c then l.lookup (a :: k)
      else if c < a then r.lookup (a :: k)
      else if k = [] then v
      else m.lookup k

/-- The node a word ends at. -/
def find? : TTree ι α ν → List α → Option ι
  | nil, _ => none
  | node .., [] => none
  | node i c _ l m r, a :: k =>
      if a < c then l.find? (a :: k)
      else if c < a then r.find? (a :: k)
      else if k = [] then some i
      else m.find? k

/-- A bare path for one word, its nodes named from the list. -/
def chain : List α → ν → List ι → TTree ι α ν
  | [], _, _ => nil
  | _, _, [] => nil
  | a :: k, v, i :: is => node i a (if k = [] then v else 0) nil (chain k v is) nil

/-- Store `v` under a word; new nodes take their names from the list, in order. -/
def put : TTree ι α ν → List α → ν → List ι → TTree ι α ν
  | nil, k, w, is => chain k w is
  | t@(node ..), [], _, _ => t
  | node i c v l m r, a :: k, w, is =>
      if a < c then node i c v (l.put (a :: k) w is) m r
      else if c < a then node i c v l m (r.put (a :: k) w is)
      else if k = [] then node i c w l m r
      else node i c v l (m.put k w is) r

/-- How many nodes `put` has to add: the length of the word's missing suffix. -/
def missing : TTree ι α ν → List α → Nat
  | nil, k => k.length
  | node .., [] => 0
  | node _ c _ l m r, a :: k =>
      if a < c then l.missing (a :: k)
      else if c < a then r.missing (a :: k)
      else if k = [] then 0
      else m.missing k

/-- Hang the tree `r` under the rightmost node of the sibling tree. -/
def hang (r : TTree ι α ν) : TTree ι α ν → TTree ι α ν
  | nil => r
  | node i c v l m r' => node i c v l m (hang r r')

variable [DecidableEq ν]

/-- Drop the top node when it has neither a value nor a middle child. -/
def prune : TTree ι α ν → TTree ι α ν
  | node i c v l nil r => if v = 0 then hang r l else node i c v l nil r
  | t => t

/-- Erase a word that has a node, pruning on the way back up; `none` when the
word's path is not in the tree. -/
def erase? : TTree ι α ν → List α → Option (TTree ι α ν)
  | nil, _ => none
  | node .., [] => none
  | node i c v l m r, a :: k =>
      if a < c then (l.erase? (a :: k)).map fun l' => prune (node i c v l' m r)
      else if c < a then (r.erase? (a :: k)).map fun r' => prune (node i c v l m r')
      else if k = [] then some (prune (node i c 0 l m r))
      else (m.erase? k).map fun m' => prune (node i c v l m' r)

/-- Erase a word; a word whose path is not in the tree changes nothing. -/
def erase (t : TTree ι α ν) (k : List α) : TTree ι α ν := (t.erase? k).getD t

/-- Would pruning the top node hang its right siblings under its left ones? -/
def Hangs : TTree ι α ν → Prop
  | node _ _ v l nil r => v = 0 ∧ l ≠ nil ∧ r ≠ nil
  | _ => False

/-- Does erasing the word prune a node that has both a left and a right child? -/
def HangsOn : TTree ι α ν → List α → Prop
  | nil, _ => False
  | node .., [] => False
  | node i c v l m r, a :: k =>
      if a < c then l.HangsOn (a :: k) ∨ ∃ l', l.erase? (a :: k) = some l' ∧ (node i c v l' m r).Hangs
      else if c < a then
        r.HangsOn (a :: k) ∨ ∃ r', r.erase? (a :: k) = some r' ∧ (node i c v l m r').Hangs
      else if k = [] then (node i c 0 l m r).Hangs
      else m.HangsOn k ∨ ∃ m', m.erase? k = some m' ∧ (node i c v l m' r).Hangs

end Ops

/-! ## Shape: what needs no order on the letters -/

section Shape

theorem mem_ids_withKid {i : ι} {c : α} {v : ν} {l m r q : TTree ι α ν} {side : Side} {j : ι}
    (h : j = i ∨ j ∈ q.ids) : j ∈ ((node i c v l m r).withKid side q).ids := by
  cases side <;> simp only [withKid, ids, List.mem_cons, List.mem_append] <;>
    rcases h with h | h <;> simp [h]

/-- The names of a node outside one of its children. -/
def outer : Side → TTree ι α ν → List ι
  | _, nil => []
  | .left, node i _ _ _ m r => i :: (m.ids ++ r.ids)
  | .mid, node i _ _ l _ r => i :: (l.ids ++ r.ids)
  | .right, node i _ _ l m _ => i :: (l.ids ++ m.ids)

theorem ids_perm_outer (side : Side) (t : TTree ι α ν) :
    t.ids.Perm (outer side t ++ (t.kid side).ids) := by
  cases t with
  | nil => cases side <;> exact List.Perm.refl _
  | node i c v l m r =>
      cases side <;> simp only [ids, outer, kid, List.cons_append, List.perm_cons, List.append_assoc]
      · exact (List.perm_append_comm).trans (by simp)
      · exact List.Perm.append_left _ List.perm_append_comm
      · exact List.Perm.refl _

theorem ids_withKid_perm (side : Side) (i : ι) (c : α) (v : ν) (l m r q : TTree ι α ν) :
    ((node i c v l m r).withKid side q).ids.Perm (outer side (node i c v l m r) ++ q.ids) := by
  cases side <;> simp only [ids, outer, withKid, List.cons_append, List.perm_cons, List.append_assoc]
  · exact (List.perm_append_comm).trans (by simp)
  · exact List.Perm.append_left _ List.perm_append_comm
  · exact List.Perm.refl _

theorem sibs_hang (r : TTree ι α ν) : ∀ l : TTree ι α ν, (hang r l).sibs = l.sibs ++ r.sibs := by
  intro l
  induction l with
  | nil => rfl
  | node i c v l m r' _ _ ih => simp [hang, sibs, ih]

theorem ids_hang (r : TTree ι α ν) : ∀ l : TTree ι α ν, (hang r l).ids = l.ids ++ r.ids := by
  intro l
  induction l with
  | nil => rfl
  | node i c v l m r' _ _ ih => simp [hang, ids, ih]

theorem hang_nil : ∀ l : TTree ι α ν, hang nil l = l := by
  intro l
  induction l with
  | nil => rfl
  | node i c v l m r' _ _ ih => simp [hang, ih]

variable [Zero ν]

theorem Tight.hang {r : TTree ι α ν} (tr : r.Tight) : ∀ {l : TTree ι α ν}, l.Tight →
    (TTree.hang r l).Tight := by
  intro l
  induction l with
  | nil => intro _; exact tr
  | node i c v l m r' _ _ ih =>
      intro ht
      obtain ⟨hm, tl, tm, tr'⟩ := ht
      exact ⟨hm, tl, tm, ih tr'⟩

theorem sibs_chain (v : ν) : ∀ (k : List α) (is : List ι), ∀ a ∈ (chain k v is).sibs, k.head? = some a
  | [], _, a, h => by simp [chain, sibs] at h
  | _ :: _, [], a, h => by simp [chain, sibs] at h
  | b :: k, i :: is, a, h => by simpa [chain, sibs, eq_comm] using h

theorem chain_ne_nil {k : List α} {v : ν} {is : List ι} (hk : k ≠ []) (hl : k.length ≤ is.length) :
    chain k v is ≠ nil := by
  cases k with
  | nil => exact absurd rfl hk
  | cons a k =>
      cases is with
      | nil => simp at hl
      | cons i is => simp [chain]

theorem ids_chain (v : ν) : ∀ (k : List α) (is : List ι), k.length ≤ is.length →
    (chain k v is).ids = is.take k.length
  | [], _, _ => rfl
  | _ :: _, [], h => by simp at h
  | a :: k, i :: is, h => by
      simp only [chain, ids, List.nil_append, List.append_nil, List.length_cons, List.take_succ_cons]
      rw [ids_chain v k is (by simpa using h)]

theorem Tight.chain {v : ν} (hv : v ≠ 0) : ∀ (k : List α) (is : List ι), k.length ≤ is.length →
    (TTree.chain k v is).Tight
  | [], _, _ => trivial
  | _ :: _, [], _ => trivial
  | a :: k, i :: is, h => by
      have hlen : k.length ≤ is.length := by simpa using h
      refine ⟨fun hm => ?_, trivial, Tight.chain hv k is hlen, trivial⟩
      by_cases hk : k = []
      · simpa [hk] using hv
      · exact absurd hm (chain_ne_nil hk hlen)

variable [DecidableEq ν]

/-- Pruning either leaves the tree alone or removes a bare top node. -/
theorem prune_cases (t : TTree ι α ν) :
    t.prune = t ∨ ∃ i c l r, t = node i c 0 l nil r ∧ t.prune = hang r l := by
  cases t with
  | nil => exact Or.inl rfl
  | node i c v l m r =>
      cases m with
      | node => exact Or.inl rfl
      | nil =>
          by_cases hv : v = 0
          · exact Or.inr ⟨i, c, l, r, by rw [hv], by simp [prune, hv]⟩
          · exact Or.inl (by simp [prune, hv])

theorem sibs_prune {t : TTree ι α ν} : ∀ a ∈ t.prune.sibs, a ∈ t.sibs := by
  intro a ha
  rcases prune_cases t with h | ⟨i, c, l, r, rfl, h⟩
  · rwa [h] at ha
  · rw [h, sibs_hang, List.mem_append] at ha
    simp only [sibs, List.mem_append, List.mem_cons]
    exact ha.imp id Or.inr

/-- A pruned tree is tight as soon as its children are. -/
theorem Tight.prune {i : ι} {c : α} {v : ν} {l m r : TTree ι α ν} (tl : l.Tight) (tm : m.Tight)
    (tr : r.Tight) : (node i c v l m r).prune.Tight := by
  cases m with
  | node j d w l' m' r' => exact ⟨fun h => by simp at h, tl, tm, tr⟩
  | nil =>
      by_cases hv : v = 0
      · simp only [TTree.prune, if_pos hv]; exact tr.hang tl
      · simp only [TTree.prune, if_neg hv]; exact ⟨fun _ => hv, tl, trivial, tr⟩

end Shape

/-! ## Words below or above every letter of a level -/

section Laws

variable [LinearOrder α]

theorem missing_le : ∀ (t : TTree ι α ν) (k : List α), t.missing k ≤ k.length := by
  intro t
  induction t with
  | nil => intro k; exact Nat.le_refl _
  | node i c w l m r ihl ihm ihr =>
      intro k
      cases k with
      | nil => exact Nat.zero_le _
      | cons a k =>
          simp only [missing]
          split_ifs with h1 h2 h3
          · exact ihl _
          · exact ihr _
          · exact Nat.zero_le _
          · exact Nat.le_succ_of_le (ihm k)

theorem Ordered.hang {r : TTree ι α ν} (or : r.Ordered) : ∀ {l : TTree ι α ν}, l.Ordered →
    (∀ a ∈ l.sibs, ∀ b ∈ r.sibs, a < b) → (TTree.hang r l).Ordered := by
  intro l
  induction l with
  | nil => intro _ _; exact or
  | node i c v l m r' _ _ ih =>
      intro ho hlt
      obtain ⟨hl, hr, ol, om, or'⟩ := ho
      refine ⟨hl, fun a ha => ?_, ol, om, ih or' fun a ha => hlt a (by simp [sibs, ha])⟩
      rw [sibs_hang, List.mem_append] at ha
      rcases ha with ha | ha
      · exact hr a ha
      · exact hlt c (by simp [sibs]) a ha

variable [Zero ν]

@[simp] theorem lookup_nil (k : List α) : (nil : TTree ι α ν).lookup k = 0 := by
  cases k <;> rfl

theorem lookup_below {t : TTree ι α ν} {a : α} (k : List α) (h : ∀ b ∈ t.sibs, a < b) :
    t.lookup (a :: k) = 0 := by
  induction t with
  | nil => rfl
  | node i c v l m r ihl _ _ =>
      have hc : a < c := h c (by simp [sibs])
      simp only [lookup, if_pos hc]
      exact ihl fun b hb => h b (by simp [sibs, hb])

theorem lookup_above {t : TTree ι α ν} {a : α} (k : List α) (h : ∀ b ∈ t.sibs, b < a) :
    t.lookup (a :: k) = 0 := by
  induction t with
  | nil => rfl
  | node i c v l m r _ _ ihr =>
      have hc : c < a := h c (by simp [sibs])
      simp only [lookup, if_neg (lt_asymm hc), if_pos hc]
      exact ihr fun b hb => h b (by simp [sibs, hb])

theorem lookup_of_find?_none : ∀ (t : TTree ι α ν) (k : List α), t.find? k = none →
    t.lookup k = 0 := by
  intro t
  induction t with
  | nil => intro k _; simp
  | node i c v l m r ihl ihm ihr =>
      intro k h
      cases k with
      | nil => rfl
      | cons a k =>
          simp only [find?] at h
          simp only [lookup]
          split_ifs at h ⊢ with h1 h2 h3
          · exact ihl _ h
          · exact ihr _ h
          · exact ihm _ h

/-! ## Storing a word -/

theorem lookup_chain_same (v : ν) : ∀ (k : List α) (is : List ι), k ≠ [] → k.length ≤ is.length →
    (chain k v is).lookup k = v
  | [], _, h, _ => absurd rfl h
  | a :: k, [], _, h => by simp at h
  | a :: k, i :: is, _, h => by
      simp only [chain, lookup, lt_irrefl, if_false]
      by_cases hk : k = []
      · simp [hk]
      · simp only [if_neg hk]
        exact lookup_chain_same v k is hk (by simpa using h)

theorem lookup_chain_other (v : ν) : ∀ (k k' : List α) (is : List ι), k' ≠ k →
    (chain k v is).lookup k' = 0
  | [], _, _, _ => by simp [chain]
  | _ :: _, _, [], _ => by simp [chain]
  | _ :: _, [], _ :: _, _ => rfl
  | a :: k, b :: k', i :: is, h => by
      simp only [chain, lookup]
      split_ifs with h1 h2 h3 h4
      · rfl
      · rfl
      · -- same letter, and `k'` ends here: the word is another one, so `k` goes on
        have hab : b = a := le_antisymm (not_lt.mp h2) (not_lt.mp h1)
        exact absurd (by rw [hab, h3, h4]) h
      · rfl
      · have hab : b = a := le_antisymm (not_lt.mp h2) (not_lt.mp h1)
        exact lookup_chain_other v k k' is fun e => h (by rw [hab, e])

theorem lookup_put_same (v : ν) (is : List ι) : ∀ (t : TTree ι α ν) (k : List α), k ≠ [] →
    k.length ≤ is.length → (t.put k v is).lookup k = v := by
  intro t
  induction t with
  | nil => intro k hk hl; exact lookup_chain_same v k is hk hl
  | node i c w l m r ihl ihm ihr =>
      intro k hk hl
      cases k with
      | nil => exact absurd rfl hk
      | cons a k =>
          simp only [put]
          split_ifs with h1 h2 h3
          · simpa only [lookup, if_pos h1] using ihl (a :: k) hk hl
          · simpa only [lookup, if_neg h1, if_pos h2] using ihr (a :: k) hk hl
          · simp only [lookup, if_neg h1, if_neg h2, if_pos h3]
          · simp only [lookup, if_neg h1, if_neg h2, if_neg h3]
            exact ihm k h3 (by simp only [List.length_cons] at hl; omega)

theorem lookup_put_other (v : ν) (is : List ι) : ∀ (t : TTree ι α ν) (k k' : List α), k' ≠ k →
    (t.put k v is).lookup k' = t.lookup k' := by
  intro t
  induction t with
  | nil => intro k k' h; simpa [put] using lookup_chain_other v k k' is h
  | node i c w l m r ihl ihm ihr =>
      intro k k' h
      cases k with
      | nil => rfl
      | cons a k =>
          cases k' with
          | nil => simp only [put]; split_ifs <;> rfl
          | cons b k' =>
              simp only [put]
              split_ifs with h1 h2 h3
              · simp only [lookup, ihl (a :: k) (b :: k') h]
              · simp only [lookup, ihr (a :: k) (b :: k') h]
              · -- the word of this very node: `b :: k'` reads elsewhere
                simp only [lookup]
                split_ifs with g1 g2 g3
                · rfl
                · rfl
                · have hac : a = c := le_antisymm (not_lt.mp h2) (not_lt.mp h1)
                  have hbc : b = c := le_antisymm (not_lt.mp g2) (not_lt.mp g1)
                  exact absurd (by rw [hac, hbc, h3, g3]) h
                · rfl
              · simp only [lookup]
                split_ifs with g1 g2 g3
                · rfl
                · rfl
                · rfl
                · have hac : a = c := le_antisymm (not_lt.mp h2) (not_lt.mp h1)
                  have hbc : b = c := le_antisymm (not_lt.mp g2) (not_lt.mp g1)
                  exact ihm k k' fun e => h (by rw [hac, hbc, e])

theorem sibs_put (v : ν) (is : List ι) : ∀ (t : TTree ι α ν) (k : List α),
    ∀ a ∈ (t.put k v is).sibs, a ∈ t.sibs ∨ k.head? = some a := by
  intro t
  induction t with
  | nil => intro k a h; exact Or.inr (sibs_chain v k is a h)
  | node i c w l m r ihl _ ihr =>
      intro k b h
      cases k with
      | nil => exact Or.inl h
      | cons a k =>
          simp only [put] at h
          split_ifs at h with h1 h2 h3
          · simp only [sibs, List.mem_append, List.mem_cons] at h ⊢
            rcases h with h | h
            · exact (ihl (a :: k) b h).imp Or.inl id
            · exact Or.inl (Or.inr h)
          · simp only [sibs, List.mem_append, List.mem_cons] at h ⊢
            rcases h with h | h | h
            · exact Or.inl (Or.inl h)
            · exact Or.inl (Or.inr (Or.inl h))
            · exact (ihr (a :: k) b h).imp (fun h => Or.inr (Or.inr h)) id
          · exact Or.inl h
          · exact Or.inl h

theorem Ordered.chain (v : ν) : ∀ (k : List α) (is : List ι), (TTree.chain k v is).Ordered
  | [], _ => trivial
  | _ :: _, [] => trivial
  | _ :: k, _ :: is =>
      ⟨fun _ h => absurd h List.not_mem_nil, fun _ h => absurd h List.not_mem_nil, trivial,
        Ordered.chain v k is, trivial⟩

theorem Ordered.put (v : ν) (is : List ι) : ∀ (t : TTree ι α ν) (k : List α), t.Ordered →
    (t.put k v is).Ordered := by
  intro t
  induction t with
  | nil => intro k _; exact Ordered.chain v k is
  | node i c w l m r ihl ihm ihr =>
      intro k ho
      obtain ⟨hl, hr, ol, om, or⟩ := ho
      cases k with
      | nil => exact ⟨hl, hr, ol, om, or⟩
      | cons a k =>
          simp only [TTree.put]
          split_ifs with h1 h2 h3
          · refine ⟨fun b hb => ?_, hr, ihl _ ol, om, or⟩
            rcases sibs_put v is l (a :: k) b hb with hb | hb
            · exact hl b hb
            · cases hb; exact h1
          · refine ⟨hl, fun b hb => ?_, ol, om, ihr _ or⟩
            rcases sibs_put v is r (a :: k) b hb with hb | hb
            · exact hr b hb
            · cases hb; exact h2
          · exact ⟨hl, hr, ol, om, or⟩
          · exact ⟨hl, hr, ol, ihm _ om, or⟩

theorem put_ne_nil {t : TTree ι α ν} {k : List α} {v : ν} {is : List ι} (hk : k ≠ [])
    (hl : k.length ≤ is.length) : t.put k v is ≠ nil := by
  cases t with
  | nil => exact chain_ne_nil hk hl
  | node i c w l m r =>
      cases k with
      | nil => exact absurd rfl hk
      | cons a k => simp only [put]; split_ifs <;> simp

theorem Tight.put {v : ν} (hv : v ≠ 0) (is : List ι) : ∀ (t : TTree ι α ν) (k : List α),
    k.length ≤ is.length → t.Tight → (t.put k v is).Tight := by
  intro t
  induction t with
  | nil => intro k hl _; exact Tight.chain hv k is hl
  | node i c w l m r ihl ihm ihr =>
      intro k hl ht
      obtain ⟨hm, tl, tm, tr⟩ := ht
      cases k with
      | nil => exact ⟨hm, tl, tm, tr⟩
      | cons a k =>
          have hk : k.length ≤ is.length := by simp only [List.length_cons] at hl; omega
          simp only [TTree.put]
          split_ifs with h1 h2 h3
          · exact ⟨hm, ihl _ hl tl, tm, tr⟩
          · exact ⟨hm, tl, tm, ihr _ hl tr⟩
          · exact ⟨fun _ => hv, tl, tm, tr⟩
          · exact ⟨fun hn => absurd hn (put_ne_nil h3 hk), tl, ihm _ hk tm, tr⟩

/-- `put` names its new nodes with exactly the first `missing` names of the list. -/
theorem ids_put (v : ν) (is : List ι) : ∀ (t : TTree ι α ν) (k : List α), k.length ≤ is.length →
    (t.put k v is).ids.Perm (t.ids ++ is.take (t.missing k)) := by
  intro t
  induction t with
  | nil => intro k hl; simp [put, missing, ids, ids_chain v k is hl]
  | node i c w l m r ihl ihm ihr =>
      intro k hl
      cases k with
      | nil => simp [put, missing]
      | cons a k =>
          have hk : k.length ≤ is.length := by simp only [List.length_cons] at hl; omega
          simp only [put, missing]
          split_ifs with h1 h2 h3
          · simp only [ids, List.cons_append, List.perm_cons, List.append_assoc]
            refine ((ihl (a :: k) hl).append_right _).trans ?_
            simp only [List.append_assoc]
            refine List.Perm.append_left _ (List.perm_append_comm.trans ?_)
            simp only [List.append_assoc, List.Perm.refl]
          · simp only [ids, List.cons_append, List.perm_cons, List.append_assoc]
            exact List.Perm.append_left _ (List.Perm.append_left _ (ihr (a :: k) hl))
          · simp [ids]
          · simp only [ids, List.cons_append, List.perm_cons, List.append_assoc]
            refine List.Perm.append_left _ (((ihm k hk).append_right _).trans ?_)
            simp only [List.append_assoc]
            exact List.Perm.append_left _ List.perm_append_comm

/-! ## Where the nodes of a stored word are -/

/-- A node that is there stays where it is. -/
theorem find?_put_old (v : ν) (is : List ι) : ∀ (t : TTree ι α ν) (k w : List α) (i : ι),
    t.find? w = some i → (t.put k v is).find? w = some i := by
  intro t
  induction t with
  | nil => intro k w i h; cases w <;> simp [find?] at h
  | node i c u l m r ihl ihm ihr =>
      intro k w j h
      cases k with
      | nil => exact h
      | cons a k =>
          cases w with
          | nil => simp [find?] at h
          | cons b w =>
              simp only [find?] at h
              simp only [put]
              split_ifs with h1 h2 h3
              · simp only [find?]
                split_ifs at h ⊢
                · exact ihl _ _ _ h
                all_goals exact h
              · simp only [find?]
                split_ifs at h ⊢
                · exact h
                · exact ihr _ _ _ h
                all_goals exact h
              · simpa only [find?] using h
              · simp only [find?]
                split_ifs at h ⊢
                · exact h
                · exact h
                · exact h
                · exact ihm _ _ _ h

theorem find?_chain_other (v : ν) : ∀ (k w : List α) (is : List ι), ¬w <+: k → (chain k v is).find? w = none := by
  intro k
  induction k with
  | nil => intro w is _; cases w <;> simp [chain, find?]
  | cons a k ih =>
      intro w is h
      cases is with
      | nil => cases w <;> simp [chain, find?]
      | cons i is =>
          cases w with
          | nil => exact absurd List.nil_prefix h
          | cons b w =>
              rcases lt_trichotomy b a with hba | rfl | hba
              · cases w <;> simp [chain, find?, hba]
              · have hw : ¬w <+: k := fun hp => h (List.cons_prefix_cons.mpr ⟨rfl, hp⟩)
                have hne : w ≠ [] := fun e => hw (e ▸ List.nil_prefix)
                simp only [chain, find?, lt_irrefl, if_false, if_neg hne]
                exact ih w is hw
              · simp [chain, find?, hba, lt_asymm hba]

/-- A word that is no prefix of the stored one ends where it ended before. -/
theorem find?_put_other (v : ν) (is : List ι) : ∀ (t : TTree ι α ν) (k w : List α), ¬w <+: k →
    (t.put k v is).find? w = t.find? w := by
  intro t
  induction t with
  | nil => intro k w h; simpa [put, find?] using find?_chain_other v k w is h
  | node i c u l m r ihl ihm ihr =>
      intro k w h
      cases k with
      | nil => rfl
      | cons a k =>
          cases w with
          | nil => exact absurd List.nil_prefix h
          | cons b w =>
              simp only [put]
              split_ifs with h1 h2 h3
              · simp only [find?, ihl _ _ h]
              · simp only [find?, ihr _ _ h]
              · simp only [find?]
              · simp only [find?]
                split_ifs with g1 g2 g3
                · rfl
                · rfl
                · rfl
                · have hba : b = a := by
                    rw [le_antisymm (not_lt.mp g2) (not_lt.mp g1), le_antisymm (not_lt.mp h2) (not_lt.mp h1)]
                  exact ihm _ _ fun hp => h (List.cons_prefix_cons.mpr ⟨hba, hp⟩)

theorem find?_chain_initial (v : ν) : ∀ (k w : List α) (is : List ι), w ≠ [] → w <+: k → k.length ≤ is.length →
    (chain k v is).find? w ≠ none := by
  intro k
  induction k with
  | nil => intro w is hw hp; exact absurd (List.prefix_nil.mp hp) hw
  | cons a k ih =>
      intro w is hw hp hl
      obtain ⟨b, w, rfl⟩ := List.exists_cons_of_ne_nil hw
      obtain ⟨rfl, htail⟩ := List.cons_prefix_cons.mp hp
      obtain ⟨i, is, rfl⟩ := List.exists_cons_of_length_pos (Nat.lt_of_lt_of_le (Nat.succ_pos _) hl)
      simp only [chain, find?, lt_irrefl, if_false]
      rcases Classical.em (w = []) with he | he
      · rw [if_pos he]
        exact Option.some_ne_none i
      · rw [if_neg he]
        exact ih w is he htail (Nat.le_of_succ_le_succ hl)

/-- Every prefix of a stored word has a node. -/
theorem find?_put_initial (v : ν) (is : List ι) : ∀ (t : TTree ι α ν) (k w : List α), w ≠ [] → w <+: k →
    k.length ≤ is.length → (t.put k v is).find? w ≠ none := by
  intro t
  induction t with
  | nil => intro k w hw hp hl; exact find?_chain_initial v k w is hw hp hl
  | node i c u l m r ihl ihm ihr =>
      intro k w hw hp hl
      obtain ⟨b, w, rfl⟩ := List.exists_cons_of_ne_nil hw
      obtain ⟨k', rfl⟩ := hp
      simp only [List.cons_append, put]
      rcases lt_trichotomy b c with hlt | rfl | hgt
      · simp only [if_pos hlt, find?]
        exact ihl (b :: (w ++ k')) (b :: w) hw ⟨k', rfl⟩ hl
      · simp only [lt_irrefl, if_false]
        rcases Classical.em (w ++ k' = []) with he | he
        · rw [if_pos he]
          simp [find?, (List.append_eq_nil_iff.mp he).1]
        · simp only [if_neg he, find?, lt_irrefl, if_false]
          rcases Classical.em (w = []) with hw' | hw'
          · rw [if_pos hw']
            exact Option.some_ne_none i
          · rw [if_neg hw']
            exact ihm (w ++ k') w hw' ⟨k', rfl⟩ (Nat.le_of_succ_le (by simpa using hl))
      · simp only [if_neg (lt_asymm hgt), if_pos hgt, find?]
        exact ihr (b :: (w ++ k')) (b :: w) hw ⟨k', rfl⟩ hl

omit [Zero ν] in
/-- The nodes of a word's path that are not there are those of its missing suffix. -/
theorem find?_take_eq_none : ∀ (t : TTree ι α ν) (k : List α) (j : Nat), 0 < j → j ≤ k.length →
    (t.find? (k.take j) = none ↔ k.length < j + t.missing k) := by
  intro t
  induction t with
  | nil =>
      intro k j h0 hj
      have hnone : (nil : TTree ι α ν).find? (k.take j) = none := by cases k.take j <;> rfl
      simp only [hnone, missing, true_iff]
      omega
  | node i c u l m r ihl ihm ihr =>
      intro k j h0 hj
      obtain ⟨j, rfl⟩ : ∃ n, j = n + 1 := ⟨j - 1, by omega⟩
      cases k with
      | nil => simp at hj
      | cons a k =>
          simp only [List.length_cons, Nat.add_le_add_iff_right] at hj
          have ihl' := ihl (a :: k) (j + 1) h0 (by simpa using hj)
          have ihr' := ihr (a :: k) (j + 1) h0 (by simpa using hj)
          simp only [List.take_succ_cons, find?, missing] at ihl' ihr' ⊢
          split_ifs with h1 h2 h3 h4 h5
          · exact ihl'
          · exact ihr'
          · subst h4
            simp only [List.length_nil] at hj
            simp only [List.length_cons, List.length_nil, false_iff]
            omega
          · -- the word goes on and this is the node of its first letter
            have hj0 : j = 0 := by
              rcases Nat.eq_zero_or_pos j with h | h
              · exact h
              · exact absurd (List.take_eq_nil_iff.mp h3) (by simp only [h4, or_false]; omega)
            subst hj0
            have hle := missing_le m k
            simp only [List.length_cons, false_iff]
            omega
          · exact absurd (by rw [h5, List.take_nil]) h3
          · have hj0 : 0 < j := Nat.pos_of_ne_zero fun e => h3 (by rw [e]; rfl)
            rw [ihm k j hj0 hj, List.length_cons]
            omega

theorem find?_chain_take (v : ν) : ∀ (k : List α) (is : List ι) (j : Nat), j < k.length →
    k.length ≤ is.length → (chain k v is).find? (k.take (j + 1)) = is[j]? := by
  intro k
  induction k with
  | nil => intro is j hj; simp at hj
  | cons a k ih =>
      intro is j hj hl
      cases is with
      | nil => simp at hl
      | cons i is =>
          simp only [chain, List.take_succ_cons, find?, lt_irrefl, if_false]
          cases j with
          | zero => simp
          | succ j =>
              have hj' : j < k.length := by simpa using hj
              have hne : k.take (j + 1) ≠ [] := fun e => by
                have := congrArg List.length e
                simp only [List.length_take, List.length_nil] at this
                omega
              rw [if_neg hne, List.getElem?_cons_succ]
              exact ih is j hj' (by simpa using hl)

/-- The new nodes take the names in order along the missing suffix. -/
theorem find?_put_new (v : ν) (is : List ι) : ∀ (t : TTree ι α ν) (k : List α) (j : Nat),
    j < t.missing k → k.length ≤ is.length →
    (t.put k v is).find? (k.take (k.length - t.missing k + j + 1)) = is[j]? := by
  intro t
  induction t with
  | nil =>
      intro k j hj hl
      simp only [missing, Nat.sub_self, Nat.zero_add] at hj ⊢
      exact find?_chain_take v k is j hj hl
  | node i c u l m r ihl ihm ihr =>
      intro k j hj hl
      cases k with
      | nil => simp [missing] at hj
      | cons a k =>
          have hle := missing_le (node i c u l m r) (a :: k)
          simp only [missing, put] at hj hle ⊢
          split_ifs at hj hle ⊢ with h1 h2 h3
          · simp only [List.take_succ_cons, find?, if_pos h1]
            simpa only [List.take_succ_cons] using ihl (a :: k) j hj hl
          · simp only [List.take_succ_cons, find?, if_neg h1, if_pos h2]
            simpa only [List.take_succ_cons] using ihr (a :: k) j hj hl
          · omega
          · have hmk := missing_le m k
            have hlen : (a :: k).length - m.missing k + j + 1 = (k.length - m.missing k + j + 1) + 1 := by
              simp only [List.length_cons]; omega
            have hne : k.take (k.length - m.missing k + j + 1) ≠ [] := fun e => by
              rcases List.take_eq_nil_iff.mp e with h | h
              · omega
              · exact h3 h
            rw [hlen, List.take_succ_cons]
            simp only [find?, if_neg h1, if_neg h2, if_neg hne]
            exact ihm k j hj (by simp only [List.length_cons] at hl; omega)

/-! ## Hanging and pruning -/

/-- Words at or below a pivot read in the left part, words above it in the hung one. -/
theorem lookup_hang {r : TTree ι α ν} {c : α} (hr : ∀ b ∈ r.sibs, c < b) :
    ∀ {l : TTree ι α ν}, (∀ a ∈ l.sibs, a < c) → ∀ (a : α) (k : List α),
      (hang r l).lookup (a :: k) = if c < a then r.lookup (a :: k) else l.lookup (a :: k) := by
  intro l
  induction l with
  | nil =>
      intro _ a k
      simp only [hang, lookup_nil]
      split_ifs with h
      · rfl
      · exact lookup_below k fun b hb => lt_of_le_of_lt (not_lt.mp h) (hr b hb)
  | node i d v l m r' _ _ ih =>
      intro hl a k
      have hd : d < c := hl d (by simp [sibs])
      have ih' := ih (fun b hb => hl b (by simp [sibs, hb])) a k
      simp only [hang, lookup, ih']
      split_ifs with h1 h2 h3 h4 h5
      · exact absurd (lt_trans hd h2) (lt_asymm h1)
      all_goals first
        | rfl
        | (exfalso; exact absurd (lt_trans hd ‹c < a›) ‹¬ d < a›)

variable [DecidableEq ν]

theorem Ordered.prune {t : TTree ι α ν} (ho : t.Ordered) : t.prune.Ordered := by
  rcases prune_cases t with h | ⟨i, c, l, r, rfl, h⟩
  · rwa [h]
  · obtain ⟨hl, hr, ol, _, or⟩ := ho
    rw [h]
    exact or.hang ol fun a ha b hb => lt_trans (hl a ha) (hr b hb)

theorem lookup_prune {t : TTree ι α ν} (ho : t.Ordered) (a : α) (k : List α) :
    t.prune.lookup (a :: k) = t.lookup (a :: k) := by
  rcases prune_cases t with h | ⟨i, c, l, r, rfl, h⟩
  · rw [h]
  · obtain ⟨hl, hr, _⟩ := ho
    rw [h, lookup_hang hr hl]
    simp only [lookup, ite_self]
    rcases lt_trichotomy a c with hac | rfl | hca
    · rw [if_neg (lt_asymm hac), if_pos hac]
    · simp only [lt_irrefl, if_false]
      exact lookup_above k hl
    · rw [if_pos hca, if_neg (lt_asymm hca), if_pos hca]

/-! ## Erasing a word -/

theorem isSome_erase? : ∀ (t : TTree ι α ν) (k : List α), (t.erase? k).isSome = (t.find? k).isSome := by
  intro t
  induction t with
  | nil => intro k; cases k <;> rfl
  | node i c v l m r ihl ihm ihr =>
      intro k
      cases k with
      | nil => rfl
      | cons a k =>
          simp only [erase?, find?]
          split_ifs with h1 h2 h3
          · simpa using ihl (a :: k)
          · simpa using ihr (a :: k)
          · rfl
          · simpa using ihm k

theorem sibs_erase? : ∀ (t : TTree ι α ν) (k : List α) {t' : TTree ι α ν}, t.erase? k = some t' →
    ∀ a ∈ t'.sibs, a ∈ t.sibs := by
  intro t
  induction t with
  | nil => intro k t' h; cases k <;> simp [erase?] at h
  | node i c v l m r ihl _ ihr =>
      intro k t' h b hb
      cases k with
      | nil => simp [erase?] at h
      | cons a k =>
          simp only [erase?] at h
          split_ifs at h with h1 h2 h3
          · obtain ⟨l', hl', rfl⟩ := Option.map_eq_some_iff.mp h
            have hb := sibs_prune b hb
            simp only [sibs, List.mem_append, List.mem_cons] at hb ⊢
            exact hb.imp (ihl (a :: k) hl' b) id
          · obtain ⟨r', hr', rfl⟩ := Option.map_eq_some_iff.mp h
            have hb := sibs_prune b hb
            simp only [sibs, List.mem_append, List.mem_cons] at hb ⊢
            exact hb.imp id (Or.imp id (ihr (a :: k) hr' b))
          · cases h
            simpa only [sibs] using sibs_prune b hb
          · obtain ⟨m', hm', rfl⟩ := Option.map_eq_some_iff.mp h
            simpa only [sibs] using sibs_prune b hb

theorem Ordered.erase? : ∀ (t : TTree ι α ν) (k : List α) {t' : TTree ι α ν}, t.Ordered →
    t.erase? k = some t' → t'.Ordered := by
  intro t
  induction t with
  | nil => intro k t' _ h; cases k <;> simp [TTree.erase?] at h
  | node i c v l m r ihl ihm ihr =>
      intro k t' ho h
      obtain ⟨hl, hr, ol, om, or⟩ := ho
      cases k with
      | nil => simp [TTree.erase?] at h
      | cons a k =>
          simp only [TTree.erase?] at h
          split_ifs at h with h1 h2 h3
          · obtain ⟨l', hl', rfl⟩ := Option.map_eq_some_iff.mp h
            exact Ordered.prune
              ⟨fun b hb => hl b (sibs_erase? l _ hl' b hb), hr, ihl _ ol hl', om, or⟩
          · obtain ⟨r', hr', rfl⟩ := Option.map_eq_some_iff.mp h
            exact Ordered.prune
              ⟨hl, fun b hb => hr b (sibs_erase? r _ hr' b hb), ol, om, ihr _ or hr'⟩
          · cases h; exact Ordered.prune ⟨hl, hr, ol, om, or⟩
          · obtain ⟨m', hm', rfl⟩ := Option.map_eq_some_iff.mp h
            exact Ordered.prune ⟨hl, hr, ol, ihm _ om hm', or⟩

theorem Tight.erase? : ∀ (t : TTree ι α ν) (k : List α) {t' : TTree ι α ν}, t.Tight →
    t.erase? k = some t' → t'.Tight := by
  intro t
  induction t with
  | nil => intro k t' _ h; cases k <;> simp [TTree.erase?] at h
  | node i c v l m r ihl ihm ihr =>
      intro k t' ht h
      obtain ⟨_, tl, tm, tr⟩ := ht
      cases k with
      | nil => simp [TTree.erase?] at h
      | cons a k =>
          simp only [TTree.erase?] at h
          split_ifs at h with h1 h2 h3
          · obtain ⟨l', hl', rfl⟩ := Option.map_eq_some_iff.mp h
            exact Tight.prune (ihl _ tl hl') tm tr
          · obtain ⟨r', hr', rfl⟩ := Option.map_eq_some_iff.mp h
            exact Tight.prune tl tm (ihr _ tr hr')
          · cases h; exact Tight.prune tl tm tr
          · obtain ⟨m', hm', rfl⟩ := Option.map_eq_some_iff.mp h
            exact Tight.prune tl (ihm _ tm hm') tr

theorem Tight.erase {t : TTree ι α ν} (ht : t.Tight) (k : List α) : (t.erase k).Tight := by
  unfold TTree.erase
  cases h : t.erase? k with
  | some t' => exact Tight.erase? t k ht h
  | none => exact ht

/-- Erasing removes the word and nothing else. -/
theorem lookup_erase? : ∀ (t : TTree ι α ν) (k : List α) {t' : TTree ι α ν}, t.Ordered →
    t.erase? k = some t' → ∀ k' ≠ [], t'.lookup k' = if k' = k then 0 else t.lookup k' := by
  intro t
  induction t with
  | nil => intro k t' _ h; cases k <;> simp [erase?] at h
  | node i c v l m r ihl ihm ihr =>
      intro k t' ho h k' hk'
      have ho' := ho
      obtain ⟨hl, hr, ol, om, or⟩ := ho
      cases k with
      | nil => simp [erase?] at h
      | cons a k =>
          obtain ⟨b, k', rfl⟩ := List.exists_cons_of_ne_nil hk'
          simp only [erase?] at h
          split_ifs at h with h1 h2 h3
          · obtain ⟨l', hl', rfl⟩ := Option.map_eq_some_iff.mp h
            have ho₁ : (node i c v l' m r).Ordered :=
              ⟨fun x hx => hl x (sibs_erase? l _ hl' x hx), hr, Ordered.erase? l _ ol hl', om, or⟩
            rw [lookup_prune ho₁]
            simp only [lookup, ihl _ ol hl' (b :: k') hk']
            by_cases hbc : b < c
            · simp only [if_pos hbc]
            · have hne : b :: k' ≠ a :: k := fun e => hbc (by cases e; exact h1)
              simp only [if_neg hbc, if_neg hne]
          · obtain ⟨r', hr', rfl⟩ := Option.map_eq_some_iff.mp h
            have ho₁ : (node i c v l m r').Ordered :=
              ⟨hl, fun x hx => hr x (sibs_erase? r _ hr' x hx), ol, om, Ordered.erase? r _ or hr'⟩
            rw [lookup_prune ho₁]
            simp only [lookup, ihr _ or hr' (b :: k') hk']
            by_cases hbc : c < b
            · simp only [if_pos hbc, if_neg (lt_asymm hbc)]
            · have hne : b :: k' ≠ a :: k := fun e => hbc (by cases e; exact h2)
              simp only [if_neg hbc, if_neg hne]
          · cases h
            have hac : a = c := le_antisymm (not_lt.mp h2) (not_lt.mp h1)
            have ho₁ : (node i c (0 : ν) l m r).Ordered := ⟨hl, hr, ol, om, or⟩
            rw [lookup_prune ho₁]
            subst hac
            subst h3
            simp only [lookup, List.cons.injEq]
            rcases lt_trichotomy b a with hba | rfl | hab
            · rw [if_pos hba, if_pos hba, if_neg fun e => absurd e.1 (ne_of_lt hba)]
            · simp only [lt_irrefl, if_false, true_and]
              by_cases hk0 : k' = []
              · simp only [if_pos hk0]
              · simp only [if_neg hk0]
            · rw [if_neg (lt_asymm hab), if_pos hab, if_neg (lt_asymm hab), if_pos hab,
                if_neg fun e => absurd e.1 (ne_of_gt hab)]
          · obtain ⟨m', hm', rfl⟩ := Option.map_eq_some_iff.mp h
            have hac : a = c := le_antisymm (not_lt.mp h2) (not_lt.mp h1)
            have ho₁ : (node i c v l m' r).Ordered := ⟨hl, hr, ol, Ordered.erase? m _ om hm', or⟩
            rw [lookup_prune ho₁]
            simp only [lookup]
            by_cases hbc : b = c
            · subst hbc
              subst hac
              simp only [lt_irrefl, if_false]
              by_cases hk0 : k' = []
              · simp [hk0, Ne.symm h3]
              · simp only [if_neg hk0, ihm _ om hm' k' hk0, List.cons.injEq, true_and]
            · have hne : b :: k' ≠ a :: k := fun e => hbc (by cases e; exact hac)
              rcases lt_or_gt_of_ne hbc with hlt | hgt
              · simp only [if_pos hlt, if_neg hne]
              · simp only [if_neg (lt_asymm hgt), if_pos hgt, if_neg hne]

theorem lookup_erase {t : TTree ι α ν} (ho : t.Ordered) (k : List α) {k' : List α} (hk' : k' ≠ []) :
    (t.erase k).lookup k' = if k' = k then 0 else t.lookup k' := by
  unfold erase
  cases h : t.erase? k with
  | some t' => exact lookup_erase? t k ho h k' hk'
  | none =>
      have hf : t.find? k = none := by
        have := isSome_erase? t k
        rw [h] at this
        simpa using this.symm
      show t.lookup k' = _
      split_ifs with e
      · rw [e]; exact lookup_of_find?_none t k hf
      · rfl

/-! ## A tight tree that stores nothing is empty -/

theorem exists_lookup_ne_zero : ∀ {t : TTree ι α ν}, t.Ordered → t.Tight → t ≠ nil →
    ∃ (a : α) (k : List α), a ∈ t.sibs ∧ t.lookup (a :: k) ≠ 0 := by
  intro t
  induction t with
  | nil => intro _ _ h; exact absurd rfl h
  | node i c v l m r _ ihm _ =>
      intro ho ht _
      obtain ⟨hl, hr, ol, om, or⟩ := ho
      obtain ⟨hm, tl, tm, tr⟩ := ht
      by_cases hmn : m = nil
      · exact ⟨c, [], by simp [sibs], by simpa [lookup] using hm hmn⟩
      · obtain ⟨a, k, _, hk⟩ := ihm om tm hmn
        exact ⟨c, a :: k, by simp [sibs], by simpa [lookup] using hk⟩

theorem eq_nil_of_lookup_zero {t : TTree ι α ν} (ho : t.Ordered) (ht : t.Tight)
    (h : ∀ k, k ≠ [] → t.lookup k = 0) : t = nil := by
  by_contra hne
  obtain ⟨a, k, _, hk⟩ := exists_lookup_ne_zero ho ht hne
  exact hk (h (a :: k) (List.cons_ne_nil a k))

end Laws

end TTree
