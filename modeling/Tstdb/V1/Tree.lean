/-
# `Tstdb.V1.Tree` — the tree of v1 is the tree of v2 without the parents

`insert` makes the same nodes in the same order and sets the same links as its
successor does, which writes `parent` fields besides.  A mirror of a v1 arena has one
number for the two fields that tell what a node holds, `0` for a node nothing was
stored in.  What is known of `tst_put` there holds of `put` here: it stores the key in
the tree, and the search finds the node the key ends at.
-/
import Mathlib
import Tstdb.Lib.Fuel
import Tstdb.Lib.TernaryTree
import Tstdb.Tst.Arena
import Tstdb.Tst.Shape
import Tstdb.Tst.Put
import Tstdb.Tst.Runs
import Tstdb.Tst.NullNode
import Tstdb.V1.Library

namespace Tstdb.V1

open Fuel TTree

/-! ## Mirrors -/

/-- What a node with this number in its mirror holds: the length and the value. -/
def heldBy : Nat → Nat × Nat
  | 0 => (0, NO_VALUE)
  | n + 1 => Nat.unpair n

/-- The number of a node that holds these two. -/
def holding (smallValueLen value : Nat) : Nat := Nat.pair smallValueLen value + 1

@[simp] theorem heldBy_holding (smallValueLen value : Nat) :
    heldBy (holding smallValueLen value) = (smallValueLen, value) := Nat.unpair_pair _ _

theorem holding_ne_zero (smallValueLen value : Nat) : holding smallValueLen value ≠ 0 := Nat.succ_ne_zero _

/-- The same letter and links, and the number of what is held. -/
structure Cell (n : TstNode) (m : Tstdb.TstNode) : Prop where
  c : n.c = m.c
  left : n.left = m.left
  mid : n.mid = m.mid
  right : n.right = m.right
  held : (n.smallValueLen, n.value) = heldBy m.value

structure Mirrors (db : TstDb) (tst : Tstdb.TstDb) : Prop where
  root : db.root = tst.root
  size : db.size = tst.size
  cap : db.cap = tst.cap
  fHead : tst.fHead = 0
  data : ∀ i, Cell (db.data i) (tst.data i)

/-- Every arena without a tree has a mirror. -/
theorem Mirrors.create (mem : Nat → TstNode) (file hint : List UInt8) :
    ∃ tst, Mirrors (createTstDb mem file hint) tst ∧ Planted tst .nil := by
  refine ⟨⟨0, 0, 409600, 0, fun i => ⟨(mem i).c, (mem i).left, (mem i).mid, (mem i).right, 0,
    holding (mem i).smallValueLen (mem i).value⟩, 409600⟩, ⟨rfl, rfl, rfl, rfl, fun i => ?_⟩,
    rfl, trivial, rfl, List.Perm.refl _⟩
  exact ⟨rfl, rfl, rfl, rfl, (heldBy_holding _ _).symm⟩

/-- The second differs from the first in the tree only. -/
structure SameFiles (db db' : TstDb) : Prop where
  file : db'.file = db.file
  hint : db'.hint = db.hint
  readPos : db'.readPos = db.readPos
  ready : db'.ready = db.ready

theorem SameFiles.refl (db : TstDb) : SameFiles db db := ⟨rfl, rfl, rfl, rfl⟩

theorem SameFiles.trans {db db₁ db₂ : TstDb} (h : SameFiles db db₁) (h' : SameFiles db₁ db₂) : SameFiles db db₂ :=
  ⟨h'.file.trans h.file, h'.hint.trans h.hint, h'.readPos.trans h.readPos, h'.ready.trans h.ready⟩

/-- Writing a node in both. -/
theorem Mirrors.set {db : TstDb} {tst : Tstdb.TstDb} {x : Nat} {n : TstNode} {m : Tstdb.TstNode} (h : Mirrors db tst)
    (hc : Cell n m) : Mirrors (db.set x n) (tst.set x m) := by
  refine ⟨h.root, h.size, h.cap, h.fHead, fun i => ?_⟩
  rcases Classical.em (i = x) with rfl | hi
  · simp only [TstDb.set, TstDb.set_data, Function.update_self]
    exact hc
  · simp only [TstDb.set, TstDb.set_data, Function.update_of_ne hi]
    exact h.data i

/-- The files play no part. -/
theorem Mirrors.congr {db db' : TstDb} {tst : Tstdb.TstDb} (h : Mirrors db tst) (hr : db'.root = db.root)
    (hs : db'.size = db.size) (hc : db'.cap = db.cap) (hd : db'.data = db.data) : Mirrors db' tst :=
  ⟨hr.trans h.root, hs.trans h.size, hc.trans h.cap, h.fHead, fun i => hd ▸ h.data i⟩

/-! ## Inserting -/

theorem ensureEnoughSpace_mirrors {db : TstDb} {tst : Tstdb.TstDb} (h : Mirrors db tst) :
    Mirrors (ensureEnoughSpace db) (Tstdb.ensureEnoughSpace tst) ∧ SameFiles db (ensureEnoughSpace db) := by
  unfold ensureEnoughSpace Tstdb.ensureEnoughSpace
  rw [h.cap, h.size]
  rcases Classical.em (dec32 tst.cap ≤ tst.size) with hfull | hfull
  · rw [if_pos hfull, if_pos hfull]
    exact ⟨⟨h.root, rfl, rfl, h.fHead, h.data⟩, rfl, rfl, rfl, rfl⟩
  · rw [if_neg hfull, if_neg hfull]
    exact ⟨⟨h.root, h.size, h.cap, h.fHead, h.data⟩, rfl, rfl, rfl, rfl⟩

theorem newNode_mirrors {db : TstDb} {tst : Tstdb.TstDb} (h : Mirrors db tst) :
    (newNode db).1 = (Tstdb.newNode tst).1 ∧ Mirrors (newNode db).2 (Tstdb.newNode tst).2 ∧
      SameFiles db (newNode db).2 := by
  obtain ⟨hspace, hfiles⟩ := ensureEnoughSpace_mirrors h
  have hset := hspace.set (x := u32 ((Tstdb.ensureEnoughSpace tst).size + 1)) (n := TstNode.fresh) (m := TstNode.zero)
    ⟨rfl, rfl, rfl, rfl, rfl⟩
  rw [Tstdb.newNode, if_pos h.fHead]
  simp only [newNode, hspace.size]
  exact ⟨trivial, ⟨hset.root, rfl, hset.cap, hset.fHead, hset.data⟩, hfiles.trans ⟨rfl, rfl, rfl, rfl⟩⟩

/-- The node `insert` is at, made first where there was none. -/
theorem start_mirrors {db : TstDb} {tst : Tstdb.TstDb} (h : Mirrors db tst) (node : Nat) (c : UInt8) :
    ∃ x db₁ tst₁, (if node = 0 then ((newNode db).1, (newNode db).2.set (newNode db).1
        { (newNode db).2.data (newNode db).1 with c := c }) else (node, db)) = (x, db₁) ∧
      (if node = 0 then ((Tstdb.newNode tst).1, (Tstdb.newNode tst).2.set (Tstdb.newNode tst).1
        { (Tstdb.newNode tst).2.data (Tstdb.newNode tst).1 with c := c }) else (node, tst)) = (x, tst₁) ∧
      Mirrors db₁ tst₁ ∧ SameFiles db db₁ := by
  rcases Classical.em (node = 0) with h0 | h0
  · obtain ⟨hx, hm, hfiles⟩ := newNode_mirrors h
    have hcell := hm.data (Tstdb.newNode tst).1
    rw [if_pos h0, if_pos h0, hx]
    exact ⟨_, _, _, rfl, rfl, hm.set ⟨rfl, hcell.left, hcell.mid, hcell.right, hcell.held⟩,
      hfiles.trans ⟨rfl, rfl, rfl, rfl⟩⟩
  · rw [if_neg h0, if_neg h0]
    exact ⟨node, db, tst, rfl, rfl, h, .refl db⟩

/-- On the way back one link is written, and in the mirror the parent too. -/
theorem relink_mirrors {db : TstDb} {tst : Tstdb.TstDb} (h : Mirrors db tst) (x p : Nat) {n : TstNode}
    {m : Tstdb.TstNode} (hc : Cell n m) :
    Mirrors (db.set x n) ((tst.set x m).set x { (tst.set x m).data x with parent := p }) := by
  rw [TstDb.set_set, TstDb.set_data_same]
  exact h.set ⟨hc.c, hc.left, hc.mid, hc.right, hc.held⟩

/-- What the later `insert` answers on the mirror, this one answers as well. -/
theorem insert_mirrors (s : List UInt8) (value smallValueLen len : Nat) : ∀ (fuel : Nat) (db : TstDb)
    (tst : Tstdb.TstDb) (node d p : Nat) (r : Nat × Tstdb.TstDb), Mirrors db tst →
    Tstdb.insert fuel tst node s (holding smallValueLen value) d len p = some r →
    ∃ db', insert fuel db node s value d len smallValueLen = some (r.1, db') ∧ Mirrors db' r.2 ∧ SameFiles db db' := by
  intro fuel
  induction fuel with
  | zero => intro db tst node d p r _ h; simp [Tstdb.insert] at h
  | succ fuel ih =>
      intro db tst node d p r hm h
      obtain ⟨x, db₁, tst₁, h₁, h₁', hm₁, hf₁⟩ := start_mirrors hm node (s.getD d 0)
      have hcell := hm₁.data x
      simp only [Tstdb.insert, h₁'] at h
      simp only [insert, h₁, hcell.c]
      -- one level down, and the link on the way back
      have down : ∀ (e y : Nat) (link : TstNode → Nat → TstNode) (link' : Tstdb.TstNode → Nat → Tstdb.TstNode),
          (∀ n m no, Cell n m → Cell (link n no) (link' m no)) →
          ((Tstdb.insert fuel tst₁ y s (holding smallValueLen value) e len x).map fun q =>
            (x, (q.2.set x (link' (q.2.data x) q.1)).set x
              { (q.2.set x (link' (q.2.data x) q.1)).data x with parent := p })) = some r →
          ∃ db', ((insert fuel db₁ y s value e len smallValueLen).map fun q =>
            (x, q.2.set x (link (q.2.data x) q.1))) = some (r.1, db') ∧ Mirrors db' r.2 ∧ SameFiles db db' := by
        intro e y link link' hlink hr
        obtain ⟨q, hq, rfl⟩ := Option.map_eq_some_iff.mp hr
        obtain ⟨db₂, h₂, hm₂, hf₂⟩ := ih db₁ tst₁ y e x q hm₁ hq
        rw [h₂]
        exact ⟨_, rfl, relink_mirrors hm₂ x p (hlink _ _ _ (hm₂.data x)), (hf₁.trans hf₂).trans ⟨rfl, rfl, rfl, rfl⟩⟩
      rcases Classical.em (char (s.getD d 0) < char (tst₁.data x).c) with hlt | hlt
      · rw [if_pos hlt] at h ⊢
        rw [hcell.left]
        exact down d _ (fun n no => { n with left := no }) (fun m no => { m with left := no })
          (fun n m no hc => ⟨hc.c, rfl, hc.mid, hc.right, hc.held⟩) h
      · rw [if_neg hlt] at h ⊢
        rcases Classical.em (char (tst₁.data x).c < char (s.getD d 0)) with hgt | hgt
        · rw [if_pos hgt] at h ⊢
          rw [hcell.right]
          exact down d _ (fun n no => { n with right := no }) (fun m no => { m with right := no })
            (fun n m no hc => ⟨hc.c, hc.left, hc.mid, rfl, hc.held⟩) h
        · rw [if_neg hgt] at h ⊢
          rcases Classical.em (d + 1 < len) with hd | hd
          · rw [if_pos hd] at h ⊢
            rw [hcell.mid]
            exact down (d + 1) _ (fun n no => { n with mid := no }) (fun m no => { m with mid := no })
              (fun n m no hc => ⟨hc.c, hc.left, rfl, hc.right, hc.held⟩) h
          · rw [if_neg hd] at h ⊢
            obtain rfl := Option.some.inj h
            exact ⟨_, rfl, relink_mirrors hm₁ x p
              ⟨rfl, hcell.left, hcell.mid, hcell.right, (heldBy_holding _ _).symm⟩,
              hf₁.trans ⟨rfl, rfl, rfl, rfl⟩⟩

theorem insert_mono : ∀ (n : Nat) (db : TstDb) (node : Nat) (s : List UInt8) (v d len small : Nat)
    (r : Nat × TstDb), insert n db node s v d len small = some r → insert (n + 1) db node s v d len small = some r := by
  intro n
  induction n with
  | zero => intro db node s v d len small r h; simp [insert] at h
  | succ n ih =>
      intro db node s v d len small r h
      rw [insert] at h ⊢
      dsimp only at h ⊢
      split_ifs at h ⊢ with h1 h2 h3
      all_goals first
        | exact h
        | (obtain ⟨q, hq, rfl⟩ := Option.map_eq_some_iff.mp h
           rw [ih _ _ _ _ _ _ _ _ hq]
           rfl)

theorem put_mono (db : TstDb) (key : List UInt8) (v small : Nat) : Mono fun n => put n db key v small := by
  intro n b h
  simp only [put] at h ⊢
  split_ifs at h ⊢
  · exact h
  · obtain ⟨q, hq, rfl⟩ := Option.map_eq_some_iff.mp h
    rw [insert_mono _ _ _ _ _ _ _ _ _ hq]
    rfl

/-- `put` on an arena whose mirror holds a tree. -/
theorem put_stores {db : TstDb} {tst : Tstdb.TstDb} {t : Tree} (hm : Mirrors db tst) (hp : Planted tst t)
    {key : List UInt8} (hk : key ≠ []) (value smallValueLen : Nat) (hroom : db.size + key.length < ARENA_LIMIT) :
    ∃ db' tst', Settles (fun n => put n db key value smallValueLen) db' ∧ Mirrors db' tst' ∧
      Planted tst' (t.put (letters key) (holding smallValueLen value) (supply [] db.size key.length)) ∧
      SameFiles db db' ∧ db'.size = db.size + t.missing (letters key) := by
  have hlen : ¬key.length = 0 := fun h => hk (List.length_eq_zero_iff.mp h)
  rw [hm.size] at hroom ⊢
  have hlt : tst.size + key.length < UINT32 := lt_trans hroom (by decide)
  obtain ⟨tst', hset, hroot, hrep, hfree, hcover, hsize, -, -⟩ :=
    tstPut_stores hp.root hp.rep hp.free hp.cover hk (holding smallValueLen value) (Arena.put_room t [] hlt)
  obtain ⟨n, hn⟩ := hset.answers
  rw [Tstdb.tstPut, if_neg hlen] at hn
  obtain ⟨r, hr, rfl⟩ := Option.map_eq_some_iff.mp hn
  obtain ⟨db₁, h₁, hm₁, hf₁⟩ := insert_mirrors key value smallValueLen key.length n db tst tst.root 0 0 r hm hr
  have hput : put n db key value smallValueLen = some { db₁ with root := r.1 } := by
    simp only [put, if_neg hlen, hm.root, h₁, Option.map_some]
  refine ⟨_, { r.2 with root := r.1 }, (put_mono db key value smallValueLen).settles hput,
    ⟨rfl, hm₁.size, hm₁.cap, hm₁.fHead, hm₁.data⟩, ⟨hroot, hrep, by simpa using hfree, by simpa using hcover⟩,
    hf₁.trans ⟨rfl, rfl, rfl, rfl⟩, ?_⟩
  exact hm₁.size.trans hsize

/-! ## Searching -/

/-- The recursion of `search` on the mirror. -/
theorem search_mirrors {db : TstDb} {tst : Tstdb.TstDb} (h : Mirrors db tst) (key : List UInt8) :
    ∀ (fuel node d : Nat), search fuel db node key d key.length = searchLoop fuel tst key node d := by
  intro fuel
  induction fuel with
  | zero => intro node d; rfl
  | succ fuel ih =>
      intro node d
      have hcell := h.data node
      simp only [search, searchLoop, hcell.c, hcell.left, hcell.mid, hcell.right, ih]

/-- `get_node` finds the node the key ends at, which holds what the tree has for it. -/
theorem getNode_finds {db : TstDb} {tst : Tstdb.TstDb} {t : Tree} (hm : Mirrors db tst) (hp : Planted tst t)
    {key : List UInt8} (hk : key ≠ []) : Settles (fun n => getNode n db key) ((t.find? (letters key)).getD 0) ∧
      ∀ x, t.find? (letters key) = some x → x ≠ 0 ∧
        ((db.data x).smallValueLen, (db.data x).value) = heldBy (t.lookup (letters key)) := by
  have hlen : 0 < key.length := List.length_pos_iff.mpr hk
  refine ⟨?_, fun x hx => ?_⟩
  · have hloop := searchLoop_settles key t 0 hp.rep hlen
    rw [List.drop_zero, ← hp.root, ← hm.root] at hloop
    exact hloop.congr fun n => by simp only [getNode, if_neg (Nat.ne_of_gt hlen), search_mirrors hm]
  · obtain ⟨hval, hmem⟩ := hp.rep.value_of_find? hx
    exact ⟨hp.rep.ids_ne_zero x hmem, by rw [(hm.data x).held, hval]⟩

end Tstdb.V1
