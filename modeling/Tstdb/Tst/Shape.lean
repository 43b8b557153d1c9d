/-
# `Tstdb.Tst.Shape` — which tree an arena holds

The arena of `tst.c` is an array of numbers; what it stands for is a ternary
search tree whose node names are positions in the array.  `Rep` says that the
cells hold a given tree (everything but the `parent` fields), `Parents` that the
`parent` fields are the ones the links demand, and `FreeList` that the free list
visits the given positions.  `Arena` puts them together: it is the representation
invariant of the index.

The two halves are kept apart on purpose.  `remove_node` leaves one `parent` field
behind when it hangs the right siblings under the left ones, so after such a
delete `Rep` holds and `Parents` does not.
-/
import Mathlib
import Tstdb.Lib.Fuel
import Tstdb.Lib.TernaryTree
import Tstdb.Tst.Arena

namespace Tstdb

open Fuel

/-- A tree of arena positions, letters ordered as `char`. -/
abbrev Tree := TTree Nat Int Nat

/-- The letters a key is compared by. -/
def letters (key : List UInt8) : List Int := key.map char

theorem letters_inj {k k' : List UInt8} : letters k = letters k' ↔ k = k' :=
  ⟨fun h => List.map_injective_iff.mpr (fun _ _ => char_inj.mp) h, fun h => h ▸ rfl⟩

theorem letters_eq_nil {k : List UInt8} : letters k = [] ↔ k = [] := by simp [letters]

@[simp] theorem length_letters (k : List UInt8) : (letters k).length = k.length := by simp [letters]

theorem letters_drop {s : List UInt8} {d : Nat} (h : d < s.length) :
    letters (s.drop d) = char (s.getD d 0) :: letters (s.drop (d + 1)) := by
  rw [letters, List.drop_eq_getElem_cons h, List.map_cons, List.getD_eq_getElem _ _ h]
  rfl

theorem letters_drop_eq_nil {s : List UInt8} {d : Nat} :
    letters (s.drop (d + 1)) = [] ↔ ¬ d + 1 < s.length := by
  simp [letters]

/-! ## Representation -/

/-- The cells hold the tree, `parent` fields aside. -/
def Rep (data : Nat → TstNode) : Tree → Prop
  | .nil => True
  | .node i c v l m r =>
      (i ≠ 0 ∧ char (data i).c = c ∧ (data i).value = v ∧
        (data i).left = l.root ∧ (data i).mid = m.root ∧ (data i).right = r.root) ∧
      Rep data l ∧ Rep data m ∧ Rep data r

/-- Every node of the tree names the holder of its link as parent; the top one names `p`. -/
def Parents (data : Nat → TstNode) : Nat → Tree → Prop
  | _, .nil => True
  | p, .node i _ _ l m r =>
      (data i).parent = p ∧ Parents data i l ∧ Parents data i m ∧ Parents data i r

/-- The list threaded through `mid` from `h` visits exactly these positions. -/
def FreeList (data : Nat → TstNode) : Nat → List Nat → Prop
  | h, [] => h = 0
  | h, i :: F => h = i ∧ i ≠ 0 ∧ FreeList data (data i).mid F

/-- Two nodes that differ in `parent` at most. -/
def Alike (n n' : TstNode) : Prop := { n with parent := 0 } = { n' with parent := 0 }

theorem Alike.refl (n : TstNode) : Alike n n := rfl

theorem Alike.of_eq {n n' : TstNode} (h : n = n') : Alike n n' := h ▸ Alike.refl n

theorem Alike.fields {n n' : TstNode} (h : Alike n n') :
    n.c = n'.c ∧ n.left = n'.left ∧ n.mid = n'.mid ∧ n.right = n'.right ∧ n.value = n'.value := by
  simp only [Alike, TstNode.mk.injEq] at h
  exact ⟨h.1, h.2.1, h.2.2.1, h.2.2.2.1, h.2.2.2.2.2⟩

@[simp] theorem root_nil : (TTree.nil : Tree).root = 0 := rfl
@[simp] theorem root_node (i : Nat) (c : Int) (v : Nat) (l m r : Tree) :
    (TTree.node i c v l m r).root = i := rfl

theorem Rep.congr {data data' : Nat → TstNode} : ∀ {t : Tree},
    (∀ j ∈ t.ids, Alike (data' j) (data j)) → Rep data t → Rep data' t := by
  intro t
  induction t with
  | nil => intro _ _; trivial
  | node i c v l m r ihl ihm ihr =>
      intro hs h
      obtain ⟨⟨hi, hc, hv, hl, hm, hr⟩, rl, rm, rr⟩ := h
      simp only [TTree.ids, List.mem_cons, List.mem_append] at hs
      obtain ⟨ec, el, em, er, ev⟩ := (hs i (Or.inl rfl)).fields
      refine ⟨⟨hi, ec ▸ hc, ev ▸ hv, el ▸ hl, em ▸ hm, er ▸ hr⟩, ?_, ?_, ?_⟩
      · exact ihl (fun j hj => hs j (Or.inr (Or.inl (Or.inl hj)))) rl
      · exact ihm (fun j hj => hs j (Or.inr (Or.inl (Or.inr hj)))) rm
      · exact ihr (fun j hj => hs j (Or.inr (Or.inr hj))) rr

theorem Rep.frame {data data' : Nat → TstNode} {t : Tree} (h : Rep data t)
    (hs : ∀ j ∈ t.ids, data' j = data j) : Rep data' t :=
  Rep.congr (fun j hj => .of_eq (hs j hj)) h

theorem Parents.frame {data data' : Nat → TstNode} : ∀ {t : Tree} {p : Nat},
    (∀ j ∈ t.ids, (data' j).parent = (data j).parent) → Parents data p t → Parents data' p t := by
  intro t
  induction t with
  | nil => intro _ _ _; trivial
  | node i c v l m r ihl ihm ihr =>
      intro p hs h
      obtain ⟨hp, pl, pm, pr⟩ := h
      simp only [TTree.ids, List.mem_cons, List.mem_append] at hs
      refine ⟨(hs i (Or.inl rfl)).trans hp, ?_, ?_, ?_⟩
      · exact ihl (fun j hj => hs j (Or.inr (Or.inl (Or.inl hj)))) pl
      · exact ihm (fun j hj => hs j (Or.inr (Or.inl (Or.inr hj)))) pm
      · exact ihr (fun j hj => hs j (Or.inr (Or.inr hj))) pr

theorem FreeList.frame {data data' : Nat → TstNode} : ∀ {F : List Nat} {h : Nat},
    (∀ j ∈ F, (data' j).mid = (data j).mid) → FreeList data h F → FreeList data' h F
  | [], _, _, h => h
  | i :: F, _, hs, ⟨hh, hi, hF⟩ => by
      refine ⟨hh, hi, ?_⟩
      rw [hs i List.mem_cons_self]
      exact FreeList.frame (fun j hj => hs j (List.mem_cons_of_mem _ hj)) hF

/-- The link of a node on one side. -/
def TstNode.kid : TTree.Side → TstNode → Nat
  | .left, n => n.left
  | .mid, n => n.mid
  | .right, n => n.right

/-- The node with another link on one side. -/
def TstNode.withKid : TTree.Side → TstNode → Nat → TstNode
  | .left, n, x => { n with left := x }
  | .mid, n, x => { n with mid := x }
  | .right, n, x => { n with right := x }

theorem Rep.update {data : Nat → TstNode} {t : Tree} (h : Rep data t) {i : Nat} (hi : i ∉ t.ids)
    (n : TstNode) : Rep (Function.update data i n) t :=
  h.frame fun j hj => Function.update_of_ne (fun e : j = i => hi (e ▸ hj)) n data

theorem Parents.update {data : Nat → TstNode} {p : Nat} {t : Tree} (h : Parents data p t) {i : Nat}
    (hi : i ∉ t.ids) (n : TstNode) : Parents (Function.update data i n) p t :=
  h.frame fun j hj =>
    congrArg TstNode.parent (Function.update_of_ne (fun e : j = i => hi (e ▸ hj)) n data)

theorem FreeList.update {data : Nat → TstNode} {h : Nat} {F : List Nat} (hf : FreeList data h F)
    {i : Nat} (hi : i ∉ F) (n : TstNode) : FreeList (Function.update data i n) h F :=
  hf.frame fun j hj =>
    congrArg TstNode.mid (Function.update_of_ne (fun e : j = i => hi (e ▸ hj)) n data)

@[simp] theorem TstDb.set_data (db : TstDb) (i : Nat) (n : TstNode) :
    (db.set i n).data = Function.update db.data i n := rfl

theorem TstDb.set_set (db : TstDb) (i : Nat) (n n' : TstNode) : (db.set i n).set i n' = db.set i n' := by
  simp [TstDb.set]

/-- Replacing one child: the new child is in place, the node's link leads to it, the
other children are as they were. -/
theorem Rep.withKid {data data' : Nat → TstNode} {i : Nat} {c : Int} {v : Nat} {l m r q : Tree}
    {side : TTree.Side} (h : Rep data (.node i c v l m r)) (hq : Rep data' q)
    (hcell : Alike (data' i) ((data i).withKid side q.root))
    (hout : ∀ j ∈ (TTree.node i c v l m r).ids, j ≠ i → j ∉ ((TTree.node i c v l m r).kid side).ids →
      data' j = data j)
    (hnd : (TTree.node i c v l m r).ids.Nodup) :
    Rep data' ((TTree.node i c v l m r).withKid side q) := by
  obtain ⟨⟨hi, hc, hv, hl, hm, hr⟩, rl, rm, rr⟩ := h
  obtain ⟨ec, el, em, er, ev⟩ := hcell.fields
  simp only [TTree.ids, List.mem_cons, List.mem_append, List.nodup_cons, List.nodup_append,
    not_or] at hout hnd
  obtain ⟨⟨⟨nil_, nim⟩, nir⟩, ⟨⟨-, -, dlm⟩, -, dlr⟩⟩ := hnd
  cases side <;> simp only [TTree.kid, TTree.withKid, TstNode.withKid] at *
  · exact ⟨⟨hi, ec ▸ hc, ev ▸ hv, el, em ▸ hm, er ▸ hr⟩, hq,
      rm.frame fun j hj => hout j (by grind) (by grind) (by grind),
      rr.frame fun j hj => hout j (by grind) (by grind) (by grind)⟩
  · exact ⟨⟨hi, ec ▸ hc, ev ▸ hv, el ▸ hl, em, er ▸ hr⟩,
      rl.frame fun j hj => hout j (by grind) (by grind) (by grind), hq,
      rr.frame fun j hj => hout j (by grind) (by grind) (by grind)⟩
  · exact ⟨⟨hi, ec ▸ hc, ev ▸ hv, el ▸ hl, em ▸ hm, er⟩,
      rl.frame fun j hj => hout j (by grind) (by grind) (by grind),
      rm.frame fun j hj => hout j (by grind) (by grind) (by grind), hq⟩

/-- The same for the parent fields. -/
theorem Parents.withKid {data data' : Nat → TstNode} {p p' i : Nat} {c : Int} {v : Nat}
    {l m r q : Tree} {side : TTree.Side} (h : Parents data p (.node i c v l m r))
    (hq : Parents data' i q) (htop : (data' i).parent = p')
    (hout : ∀ j ∈ (TTree.node i c v l m r).ids, j ≠ i → j ∉ ((TTree.node i c v l m r).kid side).ids →
      data' j = data j)
    (hnd : (TTree.node i c v l m r).ids.Nodup) :
    Parents data' p' ((TTree.node i c v l m r).withKid side q) := by
  obtain ⟨-, pl, pm, pr⟩ := h
  simp only [TTree.ids, List.mem_cons, List.mem_append, List.nodup_cons, List.nodup_append,
    not_or] at hout hnd
  obtain ⟨⟨⟨nil_, nim⟩, nir⟩, ⟨⟨-, -, dlm⟩, -, dlr⟩⟩ := hnd
  have keep : ∀ j, data' j = data j → (data' j).parent = (data j).parent := fun j e => by rw [e]
  cases side <;> simp only [TTree.kid, TTree.withKid] at *
  · exact ⟨htop, hq, pm.frame fun j hj => keep j (hout j (by grind) (by grind) (by grind)),
      pr.frame fun j hj => keep j (hout j (by grind) (by grind) (by grind))⟩
  · exact ⟨htop, pl.frame fun j hj => keep j (hout j (by grind) (by grind) (by grind)), hq,
      pr.frame fun j hj => keep j (hout j (by grind) (by grind) (by grind))⟩
  · exact ⟨htop, pl.frame fun j hj => keep j (hout j (by grind) (by grind) (by grind)),
      pm.frame fun j hj => keep j (hout j (by grind) (by grind) (by grind)), hq⟩

theorem Rep.ids_ne_zero {data : Nat → TstNode} : ∀ {t : Tree}, Rep data t → ∀ j ∈ t.ids, j ≠ 0 := by
  intro t
  induction t with
  | nil => intro _ j hj; exact absurd hj List.not_mem_nil
  | node i c v l m r ihl ihm ihr =>
      intro h j hj
      obtain ⟨⟨hi, _⟩, rl, rm, rr⟩ := h
      simp only [TTree.ids, List.mem_cons, List.mem_append] at hj
      rcases hj with rfl | (hj | hj) | hj
      · exact hi
      · exact ihl rl j hj
      · exact ihm rm j hj
      · exact ihr rr j hj

theorem FreeList.ne_zero {data : Nat → TstNode} : ∀ {F : List Nat} {h : Nat},
    FreeList data h F → ∀ j ∈ F, j ≠ 0
  | [], _, _, j, hj => absurd hj List.not_mem_nil
  | _ :: _, _, ⟨_, hi, hF⟩, j, hj => by
      rcases List.mem_cons.mp hj with rfl | hj
      · exact hi
      · exact hF.ne_zero j hj

theorem Rep.root_eq_zero {data : Nat → TstNode} {t : Tree} (h : Rep data t) :
    t.root = 0 ↔ t = .nil := by
  cases t with
  | nil => simp
  | node i c v l m r => simpa using h.1.1

theorem root_mem_ids {t : Tree} (h : t ≠ .nil) : t.root ∈ t.ids := by
  cases t with
  | nil => exact absurd rfl h
  | node i c v l m r => simp [TTree.ids]

/-- An arena holds one tree at most: the cells determine it from its top position. -/
theorem Rep.unique {data : Nat → TstNode} : ∀ {t t' : Tree}, Rep data t → Rep data t' →
    t.root = t'.root → t = t' := by
  intro t
  induction t with
  | nil =>
      intro t' _ h' he
      exact ((h'.root_eq_zero).mp (by simpa using he.symm)).symm
  | node i c v l m r ihl ihm ihr =>
      intro t' h h' he
      cases t' with
      | nil => exact absurd he h.1.1
      | node i' c' v' l' m' r' =>
          obtain rfl : i = i' := he
          obtain ⟨⟨_, hc, hv, hl, hm, hr⟩, rl, rm, rr⟩ := h
          obtain ⟨⟨_, hc', hv', hl', hm', hr'⟩, rl', rm', rr'⟩ := h'
          rw [ihl rl rl' (hl.symm.trans hl'), ihm rm rm' (hm.symm.trans hm'),
            ihr rr rr' (hr.symm.trans hr'), ← hc, ← hc', ← hv, ← hv']

/-! ## The representation invariant -/

/-- The arena holds the tree `t` and the free list `F`: siblings are ordered, and
the two together are the positions `1..size`, each once. -/
structure Arena (db : TstDb) (t : Tree) (F : List Nat) : Prop where
  root : db.root = t.root
  rep : Rep db.data t
  ordered : t.Ordered
  free : FreeList db.data db.fHead F
  cover : (t.ids ++ F).Perm (List.range' 1 db.size)
  null : (db.data 0).value = 0

theorem Arena.nodup {db : TstDb} {t : Tree} {F : List Nat} (h : Arena db t F) :
    (t.ids ++ F).Nodup := (h.cover.nodup_iff).mpr List.nodup_range'

theorem Arena.le_size {db : TstDb} {t : Tree} {F : List Nat} (h : Arena db t F) :
    ∀ j ∈ t.ids ++ F, j ≤ db.size := by
  intro j hj
  have := (h.cover.mem_iff).mp hj
  simp only [List.mem_range'_1] at this
  omega

/-- An arena holds one tree and one free list at most. -/
theorem FreeList.unique {data : Nat → TstNode} : ∀ {F F' : List Nat} {h : Nat},
    FreeList data h F → FreeList data h F' → F = F'
  | [], [], _, _, _ => rfl
  | [], _ :: _, _, h, ⟨h', hi, _⟩ => absurd (h'.symm.trans h) hi
  | _ :: _, [], _, ⟨h, hi, _⟩, h' => absurd (h.symm.trans h') hi
  | i :: F, i' :: F', _, ⟨h, _, hF⟩, ⟨h', _, hF'⟩ => by
      obtain rfl : i = i' := h.symm.trans h'
      rw [FreeList.unique hF hF']

theorem Arena.unique {db : TstDb} {t t' : Tree} {F F' : List Nat} (h : Arena db t F)
    (h' : Arena db t' F') : t = t' ∧ F = F' :=
  ⟨h.rep.unique h'.rep (h.root.symm.trans h'.root), h.free.unique h'.free⟩

/-! ## Searching -/

/-- The search loop finds the node the key ends at. -/
theorem searchLoop_settles {db : TstDb} (key : List UInt8) : ∀ (t : Tree) (d : Nat),
    Rep db.data t → d < key.length →
    Settles (fun n => searchLoop n db key t.root d) ((t.find? (letters (key.drop d))).getD 0) := by
  intro t
  induction t with
  | nil =>
      intro d _ _
      refine Settles.succ (f := fun _ => some 0) (fun n => ?_) (settles_const 0)
      simp [searchLoop]
  | node i c v l m r ihl ihm ihr =>
      intro d h hd
      obtain ⟨⟨hi, hc, _, hl, hm, hr⟩, rl, rm, rr⟩ := h
      rw [letters_drop hd]
      simp only [TTree.find?]
      by_cases h1 : char (key.getD d 0) < c
      · simp only [if_pos h1]
        rw [← letters_drop hd]
        refine Settles.succ (fun n => ?_) (ihl d rl hd)
        rw [searchLoop, root_node, if_neg hi, hc, if_pos h1, hl]
      · by_cases h2 : c < char (key.getD d 0)
        · simp only [if_neg h1, if_pos h2]
          rw [← letters_drop hd]
          refine Settles.succ (fun n => ?_) (ihr d rr hd)
          rw [searchLoop, root_node, if_neg hi, hc, if_neg h1, if_pos h2, hr]
        · by_cases h3 : d + 1 < key.length
          · have h3' : letters (key.drop (d + 1)) ≠ [] := fun e => letters_drop_eq_nil.mp e h3
            simp only [if_neg h1, if_neg h2, if_neg h3']
            refine Settles.succ (fun n => ?_) (ihm (d + 1) rm h3)
            rw [searchLoop, root_node, if_neg hi, hc, if_neg h1, if_neg h2, if_pos h3, hm]
          · simp only [if_neg h1, if_neg h2, if_pos (letters_drop_eq_nil.mpr h3)]
            refine Settles.succ (f := fun _ => some i) (fun n => ?_) (settles_const i)
            rw [searchLoop, root_node, if_neg hi, hc, if_neg h1, if_neg h2, if_neg h3]

theorem Rep.value_of_find? {data : Nat → TstNode} : ∀ {t : Tree} {k : List Int} {x : Nat},
    Rep data t → t.find? k = some x → (data x).value = t.lookup k ∧ x ∈ t.ids := by
  intro t
  induction t with
  | nil => intro k x _ h; cases k <;> simp [TTree.find?] at h
  | node i c v l m r ihl ihm ihr =>
      intro k x h hf
      obtain ⟨⟨_, _, hv, _⟩, rl, rm, rr⟩ := h
      cases k with
      | nil => simp [TTree.find?] at hf
      | cons a k =>
          simp only [TTree.find?] at hf
          simp only [TTree.lookup, TTree.ids, List.mem_cons, List.mem_append]
          split_ifs at hf ⊢ with h1 h2 h3
          · exact (ihl rl hf).imp id fun h => Or.inr (Or.inl (Or.inl h))
          · exact (ihr rr hf).imp id fun h => Or.inr (Or.inr h)
          · cases hf; exact ⟨hv, Or.inl rfl⟩
          · exact (ihm rm hf).imp id fun h => Or.inr (Or.inl (Or.inr h))

/-- `tst_get` terminates and reads the tree's value, `0` for an absent key. -/
theorem Arena.get {db : TstDb} {t : Tree} {F : List Nat} (h : Arena db t F) {key : List UInt8}
    (hk : key ≠ []) : Settles (fun n => tstGet n db key) (t.lookup (letters key)) := by
  have hlen : 0 < key.length := List.length_pos_iff.mpr hk
  have hs := searchLoop_settles key t 0 h.rep hlen
  rw [List.drop_zero] at hs
  have hval : (db.data ((t.find? (letters key)).getD 0)).value = t.lookup (letters key) := by
    cases hf : t.find? (letters key) with
    | none => rw [TTree.lookup_of_find?_none t _ hf, Option.getD_none, h.null]
    | some x => exact (h.rep.value_of_find? hf).1
  rw [← hval]
  refine (hs.map fun node => (db.data node).value).congr fun n => ?_
  simp only [tstGet, search, if_neg (Nat.ne_of_gt hlen), h.root]

end Tstdb
