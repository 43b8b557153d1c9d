/-
# `Tstdb.Tst.Twin` — two arenas that agree on their live part

Reloading an index file gives the nodes up to `cap` and whatever `malloc` left
behind them, so an index that is rebuilt agrees with the first one on the header
and on the nodes `1..size` only (`Twin`).  That is enough: as long as no link leads
past `size` (`Closed`) the calls never look further, and they keep both properties.
This needs nothing of the tree; it holds of an arena whose links have gone wrong as
well.
-/
import Mathlib
import Tstdb.Tst.Arena
import Tstdb.Tst.Shape
import Tstdb.Tst.Runs

namespace Tstdb

/-- The headers and the nodes `1..size` are the same. -/
structure Twin (db db' : TstDb) : Prop where
  root : db'.root = db.root
  size : db'.size = db.size
  cap : db'.cap = db.cap
  fHead : db'.fHead = db.fHead
  data : ∀ i, i ≠ 0 → i ≤ db.size → db'.data i = db.data i

/-- No link leads past `size`. -/
structure LinksWithin (size : Nat) (n : TstNode) : Prop where
  left : n.left ≤ size
  mid : n.mid ≤ size
  right : n.right ≤ size
  parent : n.parent ≤ size

/-- The links stay in the live part, which lies inside the block. -/
structure Closed (db : TstDb) : Prop where
  root : db.root ≤ db.size
  fHead : db.fHead ≤ db.size
  size : db.size < db.cap
  cap : ∃ k, k ≤ 13 ∧ db.cap = 409600 * 2 ^ k
  links : ∀ i, i ≠ 0 → i ≤ db.size → LinksWithin db.size (db.data i)

theorem Twin.refl (db : TstDb) : Twin db db := ⟨rfl, rfl, rfl, rfl, fun _ _ _ => rfl⟩

theorem Twin.symm {db db' : TstDb} (h : Twin db db') : Twin db' db :=
  ⟨h.root.symm, h.size.symm, h.cap.symm, h.fHead.symm, fun i hi hle => (h.data i hi (h.size ▸ hle)).symm⟩

theorem Twin.trans {db db₁ db₂ : TstDb} (h : Twin db db₁) (h' : Twin db₁ db₂) : Twin db db₂ :=
  ⟨h'.root.trans h.root, h'.size.trans h.size, h'.cap.trans h.cap, h'.fHead.trans h.fHead,
    fun i hi hle => (h'.data i hi (h.size.symm ▸ hle)).trans (h.data i hi hle)⟩

theorem Closed.twin {db db' : TstDb} (h : Closed db) (t : Twin db db') : Closed db' := by
  refine ⟨?_, ?_, ?_, ?_, fun i hi hle => ?_⟩
  · rw [t.root, t.size]; exact h.root
  · rw [t.fHead, t.size]; exact h.fHead
  · rw [t.size, t.cap]; exact h.size
  · rw [t.cap]; exact h.cap
  · rw [t.size] at hle ⊢
    rw [t.data i hi hle]
    exact h.links i hi hle

/-- The arena with nothing behind its live part. -/
def TstDb.live (db : TstDb) : TstDb :=
  { db with data := fun i => if i ≠ 0 ∧ i ≤ db.size then db.data i else TstNode.zero }

theorem Twin.live (db : TstDb) : Twin db db.live :=
  ⟨rfl, rfl, rfl, rfl, fun _ hi hle => if_pos ⟨hi, hle⟩⟩

/-! ## Writing a node -/

section Set

variable {db db' : TstDb} {x : Nat} {n : TstNode}

theorem Twin.set (t : Twin db db') : Twin (db.set x n) (db'.set x n) := by
  refine ⟨t.root, t.size, t.cap, t.fHead, fun i hi hle => ?_⟩
  by_cases hx : i = x
  · subst hx; simp
  · rw [TstDb.set_data_other _ _ hx, TstDb.set_data_other _ _ hx]
    exact t.data i hi hle

theorem Closed.set (h : Closed db) (hn : LinksWithin db.size n) : Closed (db.set x n) := by
  refine ⟨h.root, h.fHead, h.size, h.cap, fun i hi hle => ?_⟩
  by_cases hx : i = x
  · subst hx; rw [TstDb.set_data_same]; exact hn
  · rw [TstDb.set_data_other _ _ hx]
    exact h.links i hi hle

theorem LinksWithin.mono {size size' : Nat} (h : LinksWithin size n) (hle : size ≤ size') :
    LinksWithin size' n :=
  ⟨le_trans h.left hle, le_trans h.mid hle, le_trans h.right hle, le_trans h.parent hle⟩

end Set

/-! ## Allocating and freeing -/

theorem Closed.cap_room {db : TstDb} (h : Closed db) (hroom : db.size + 1 < ARENA_LIMIT)
    (hfull : dec32 db.cap ≤ db.size) : ∃ k, k ≤ 13 ∧ u32 (db.cap * 2) = 409600 * 2 ^ k ∧
      db.size + 1 < u32 (db.cap * 2) := by
  obtain ⟨k, hk, hcap⟩ := h.cap
  have hpos : 0 < db.cap := Nat.lt_of_le_of_lt (Nat.zero_le _) h.size
  have hdec : dec32 db.cap = db.cap - 1 := if_neg (Nat.ne_of_gt hpos)
  rw [hdec] at hfull
  have hsize := h.size
  have hcaplt : db.cap < 3355443200 := by unfold ARENA_LIMIT at hroom; omega
  have hk13 : k < 13 := by
    by_contra hge
    have hk' : k = 13 := by omega
    subst hk'
    norm_num at hcap
    omega
  have hdouble : db.cap * 2 = 409600 * 2 ^ (k + 1) := by rw [hcap, pow_succ, Nat.mul_assoc]
  have hsmall : db.cap * 2 < UINT32 := by
    have hpow : 2 ^ (k + 1) ≤ 2 ^ 13 := Nat.pow_le_pow_right (by decide) (by omega)
    have h13 : (2 : Nat) ^ 13 = 8192 := by norm_num
    rw [hdouble]
    unfold UINT32
    omega
  rw [u32_of_lt hsmall]
  exact ⟨k + 1, by omega, hdouble, by omega⟩

/-- `new_node` on twins. -/
theorem newNode_twin {db db' : TstDb} (t : Twin db db') (h : Closed db) (hroom : db.size + 1 < ARENA_LIMIT) :
    (newNode db').1 = (newNode db).1 ∧ Twin (newNode db).2 (newNode db').2 ∧ Closed (newNode db).2 ∧
      (newNode db).1 ≠ 0 ∧ (newNode db).1 ≤ (newNode db).2.size ∧
      (newNode db).2.data (newNode db).1 = TstNode.zero ∧
      db.size ≤ (newNode db).2.size ∧ (newNode db).2.size ≤ db.size + 1 := by
  have hzero : ∀ size, LinksWithin size TstNode.zero := fun size =>
    ⟨Nat.zero_le _, Nat.zero_le _, Nat.zero_le _, Nat.zero_le _⟩
  by_cases hf : db.fHead = 0
  · have hf' : db'.fHead = 0 := t.fHead.trans hf
    have hu : u32 (db.size + 1) = db.size + 1 := u32_of_lt (lt_trans hroom (by decide))
    have hcap : (ensureEnoughSpace db').cap = (ensureEnoughSpace db).cap := by
      unfold ensureEnoughSpace
      rw [t.cap, t.size]
      split
      · rfl
      · exact t.cap
    have hnew : newNode db = (db.size + 1, { (ensureEnoughSpace db).set (db.size + 1) TstNode.zero with
        size := db.size + 1 }) := by
      rw [newNode, if_pos hf]
      simp only [ensureEnoughSpace_size, hu]
    have hnew' : newNode db' = (db.size + 1, { (ensureEnoughSpace db').set (db.size + 1) TstNode.zero with
        size := db.size + 1 }) := by
      rw [newNode, if_pos hf']
      simp only [ensureEnoughSpace_size, t.size, hu]
    rw [hnew, hnew']
    refine ⟨rfl, ⟨?_, rfl, hcap, ?_, fun i hi hle => ?_⟩, ⟨?_, ?_, ?_, ?_, fun i hi hle => ?_⟩,
      Nat.succ_ne_zero _, le_rfl, by simp, Nat.le_succ _, le_rfl⟩
    · simp [t.root]
    · simp [t.fHead]
    · by_cases hx : i = db.size + 1
      · subst hx; simp
      · show ((ensureEnoughSpace db').set _ _).data i = ((ensureEnoughSpace db).set _ _).data i
        rw [TstDb.set_data_other _ _ hx, TstDb.set_data_other _ _ hx, ensureEnoughSpace_data,
          ensureEnoughSpace_data]
        exact t.data i hi (by have : i ≤ db.size + 1 := hle; omega)
    · show (ensureEnoughSpace db).root ≤ db.size + 1
      rw [ensureEnoughSpace_root]
      exact le_trans h.root (Nat.le_succ _)
    · show (ensureEnoughSpace db).fHead ≤ db.size + 1
      rw [ensureEnoughSpace_fHead, hf]
      exact Nat.zero_le _
    · show db.size + 1 < (ensureEnoughSpace db).cap
      unfold ensureEnoughSpace
      split
      · rename_i hfull
        obtain ⟨-, -, -, hlt⟩ := h.cap_room hroom hfull
        exact hlt
      · rename_i hfull
        have hpos : 0 < db.cap := Nat.lt_of_le_of_lt (Nat.zero_le _) h.size
        rw [show dec32 db.cap = db.cap - 1 from if_neg (Nat.ne_of_gt hpos)] at hfull
        omega
    · show ∃ k, k ≤ 13 ∧ (ensureEnoughSpace db).cap = 409600 * 2 ^ k
      unfold ensureEnoughSpace
      split
      · rename_i hfull
        obtain ⟨k, hk, hcapk, -⟩ := h.cap_room hroom hfull
        exact ⟨k, hk, hcapk⟩
      · exact h.cap
    · show LinksWithin (db.size + 1) (((ensureEnoughSpace db).set _ _).data i)
      by_cases hx : i = db.size + 1
      · subst hx; rw [TstDb.set_data_same]; exact hzero _
      · rw [TstDb.set_data_other _ _ hx, ensureEnoughSpace_data]
        have hle' : i ≤ db.size + 1 := hle
        exact (h.links i hi (by omega)).mono (Nat.le_succ _)
  · have hf' : db'.fHead ≠ 0 := by rw [t.fHead]; exact hf
    have hnew : newNode db = (db.fHead, { db.set db.fHead TstNode.zero with
        fHead := (db.data db.fHead).mid }) := by rw [newNode, if_neg hf]
    have hnew' : newNode db' = (db.fHead, { db'.set db.fHead TstNode.zero with
        fHead := (db.data db.fHead).mid }) := by
      rw [newNode, if_neg hf']
      simp only [t.fHead, t.data _ hf h.fHead]
    rw [hnew, hnew']
    have ht := t.set (x := db.fHead) (n := TstNode.zero)
    have hc := h.set (x := db.fHead) (hzero db.size)
    exact ⟨rfl, ⟨ht.root, ht.size, ht.cap, rfl, ht.data⟩,
      ⟨hc.root, (h.links _ hf h.fHead).mid, hc.size, hc.cap, hc.links⟩, hf, h.fHead, by simp, le_rfl,
      Nat.le_succ _⟩

theorem freeNode_twin {db db' : TstDb} {x : Nat} (t : Twin db db') (h : Closed db) (hx0 : x ≠ 0)
    (hx : x ≤ db.size) : Twin (freeNode db x) (freeNode db' x) ∧ Closed (freeNode db x) := by
  have hl := h.links x hx0 hx
  have hn : LinksWithin db.size { db.data x with mid := db.fHead, value := 0 } :=
    ⟨hl.left, h.fHead, hl.right, hl.parent⟩
  have ht := t.set (x := x) (n := { db.data x with mid := db.fHead, value := 0 })
  have hc := h.set (x := x) hn
  have hsame : freeNode db' x = { db'.set x { db.data x with mid := db.fHead, value := 0 } with fHead := x } := by
    rw [freeNode, t.data x hx0 hx, t.fHead]
  rw [hsame]
  exact ⟨⟨ht.root, ht.size, ht.cap, rfl, ht.data⟩, ⟨hc.root, hx, hc.size, hc.cap, hc.links⟩⟩

/-! ## The calls -/

/-- Look-ups that end do so at the same node, in the live part. -/
theorem searchLoop_twin {db db' : TstDb} (t : Twin db db') (h : Closed db) (key : List UInt8) :
    ∀ (n x d r : Nat), x ≤ db.size → searchLoop n db key x d = some r →
      searchLoop n db' key x d = some r ∧ r ≤ db.size := by
  intro n
  induction n with
  | zero => intro x d r _ hr; simp [searchLoop] at hr
  | succ n ih =>
      intro x d r hx hr
      rw [searchLoop] at hr ⊢
      by_cases hx0 : x = 0
      · rw [if_pos hx0] at hr ⊢
        obtain rfl := Option.some.inj hr
        exact ⟨rfl, Nat.zero_le _⟩
      · have hl := h.links x hx0 hx
        rw [if_neg hx0] at hr ⊢
        simp only [t.data x hx0 hx]
        dsimp only at hr
        split_ifs at hr ⊢
        · exact ih _ _ _ hl.left hr
        · exact ih _ _ _ hl.right hr
        · exact ih _ _ _ hl.mid hr
        · obtain rfl := Option.some.inj hr
          exact ⟨rfl, hx⟩

theorem maxLoop_twin {db db' : TstDb} (t : Twin db db') (h : Closed db) :
    ∀ (n x r : Nat), x ≠ 0 → x ≤ db.size → maxLoop n db x = some r →
      maxLoop n db' x = some r ∧ r ≠ 0 ∧ r ≤ db.size := by
  intro n
  induction n with
  | zero => intro x r _ _ hr; simp [maxLoop] at hr
  | succ n ih =>
      intro x r hx0 hx hr
      rw [maxLoop] at hr ⊢
      rw [t.data x hx0 hx]
      split_ifs at hr ⊢ with hz
      · obtain rfl := Option.some.inj hr
        exact ⟨rfl, hx0, hx⟩
      · exact ih _ _ hz (h.links x hx0 hx).right hr

/-- `remove_node` on twins. -/
theorem removeNode_twin {db db' : TstDb} (t : Twin db db') (h : Closed db) {n x : Nat} {r : Nat × TstDb}
    (hx0 : x ≠ 0) (hx : x ≤ db.size) (hr : removeNode n db x = some r) :
    ∃ db₁', removeNode n db' x = some (r.1, db₁') ∧ Twin r.2 db₁' ∧ Closed r.2 ∧ r.2.size = db.size ∧
      r.1 ≤ db.size := by
  obtain ⟨tf, hf⟩ := freeNode_twin t h hx0 hx
  have hl := h.links x hx0 hx
  simp only [removeNode, t.data x hx0 hx] at hr ⊢
  split_ifs at hr ⊢ with h1 h2 h3
  · obtain rfl := Option.some.inj hr
    exact ⟨_, rfl, tf, hf, rfl, Nat.zero_le _⟩
  · obtain rfl := Option.some.inj hr
    exact ⟨_, rfl, tf, hf, rfl, hl.left⟩
  · obtain rfl := Option.some.inj hr
    exact ⟨_, rfl, tf, hf, rfl, hl.right⟩
  · obtain ⟨p, hp, rfl⟩ := Option.map_eq_some_iff.mp hr
    have hleft : (db.data x).left ≠ 0 := fun e => by omega
    obtain ⟨hp', hp0, hple⟩ := maxLoop_twin tf hf _ _ _ hleft hl.left hp
    have hpl := hf.links p hp0 hple
    refine ⟨_, by rw [hp']; rfl, ?_, hf.set ⟨hpl.left, hpl.mid, hl.right, hpl.parent⟩, rfl, hl.left⟩
    rw [tf.data p hp0 hple]
    exact tf.set

/-- Writing one node of the live part, as a function of what is there. -/
theorem Twin.modify {db db' : TstDb} (t : Twin db db') {x : Nat} (hx0 : x ≠ 0) (hx : x ≤ db.size)
    (f : TstNode → TstNode) : Twin (db.set x (f (db.data x))) (db'.set x (f (db'.data x))) := by
  rw [t.data x hx0 hx]
  exact t.set

theorem adopt_twin {db db' : TstDb} (t : Twin db db') (h : Closed db) {x p : Nat} (hx : x ≤ db.size)
    (hp : p ≤ db.size) : Twin (adopt db x p) (adopt db' x p) ∧ Closed (adopt db x p) ∧
      (adopt db x p).size = db.size := by
  unfold adopt
  by_cases hx0 : x = 0
  · rw [if_pos hx0, if_pos hx0]
    exact ⟨t, h, rfl⟩
  · have hl := h.links x hx0 hx
    rw [if_neg hx0, if_neg hx0]
    exact ⟨t.modify hx0 hx fun n => { n with parent := p }, h.set ⟨hl.left, hl.mid, hl.right, hp⟩, rfl⟩

/-- Below a parent: the removed node is unlinked with `link` and the climb goes on. -/
theorem unlink_twin {db db' : TstDb} (t : Twin db db') (h : Closed db) {x p : Nat} (link : TstNode → Nat → TstNode)
    (hp0 : p ≠ 0) (hp : p ≤ db.size) (hx : x ≤ db.size)
    (hlink : ∀ n : TstNode, LinksWithin db.size n → LinksWithin db.size (link n x)) :
    Twin (adopt (db.set p (link (db.data p) x)) x p) (adopt (db'.set p (link (db'.data p) x)) x p) ∧
      Closed (adopt (db.set p (link (db.data p) x)) x p) ∧
      (adopt (db.set p (link (db.data p) x)) x p).size = db.size :=
  adopt_twin (t.modify hp0 hp fun n => link n x) (h.set (hlink _ (h.links p hp0 hp))) hx hp

/-- The climb of `tst_delete` on twins; node `0`, which it may write, is not in the
live part. -/
theorem climb_twin : ∀ (n : Nat) (db db' : TstDb) (x : Nat) (r : TstDb), Twin db db' → Closed db →
    x ≤ db.size → climb n db x = some r → ∃ r', climb n db' x = some r' ∧ Twin r r' ∧ Closed r := by
  intro n
  induction n with
  | zero => intro db db' x r _ _ _ hr; simp [climb] at hr
  | succ n ih =>
      intro db db' x r t h hx hr
      rw [climb] at hr ⊢
      by_cases hx0 : x = 0
      · rw [if_pos hx0] at hr ⊢
        obtain rfl := Option.some.inj hr
        exact ⟨db', rfl, t, h⟩
      · have hpar := (h.links x hx0 hx).parent
        rw [if_neg hx0] at hr ⊢
        dsimp only at hr ⊢
        rw [t.data x hx0 hx]
        by_cases hgone : (db.data x).mid = 0 ∧ (db.data x).value = 0
        · rw [if_pos hgone] at hr ⊢
          by_cases hp : 0 < (db.data x).parent
          · have hp0 : (db.data x).parent ≠ 0 := Nat.pos_iff_ne_zero.mp hp
            rw [if_pos hp] at hr ⊢
            rw [t.data _ hp0 hpar]
            -- which child of its parent the node is decides which link is written
            split_ifs at hr ⊢
            · obtain ⟨q, hq, hr⟩ := Option.bind_eq_some_iff.mp hr
              obtain ⟨db₁', hq', tq, hcq, hs, hle⟩ := removeNode_twin t h hx0 hx hq
              obtain ⟨t', h', hs'⟩ := unlink_twin tq hcq (fun m y => { m with left := y })
                hp0 (hs ▸ hpar) (hs ▸ hle)
                (fun m hm => ⟨hs ▸ hle, hm.mid, hm.right, hm.parent⟩)
              rw [hq']
              exact ih _ _ _ _ t' h' (by rw [hs', hs]; exact hpar) hr
            · obtain ⟨q, hq, hr⟩ := Option.bind_eq_some_iff.mp hr
              obtain ⟨db₁', hq', tq, hcq, hs, hle⟩ := removeNode_twin t h hx0 hx hq
              obtain ⟨t', h', hs'⟩ := unlink_twin tq hcq (fun m y => { m with right := y })
                hp0 (hs ▸ hpar) (hs ▸ hle)
                (fun m hm => ⟨hm.left, hm.mid, hs ▸ hle, hm.parent⟩)
              rw [hq']
              exact ih _ _ _ _ t' h' (by rw [hs', hs]; exact hpar) hr
            · obtain ⟨q, hq, hr⟩ := Option.bind_eq_some_iff.mp hr
              obtain ⟨db₁', hq', tq, hcq, hs, hle⟩ := removeNode_twin t h hx0 hx hq
              obtain ⟨t', h', hs'⟩ := unlink_twin tq hcq (fun m y => { m with mid := y })
                hp0 (hs ▸ hpar) (hs ▸ hle)
                (fun m hm => ⟨hm.left, hs ▸ hle, hm.right, hm.parent⟩)
              rw [hq']
              exact ih _ _ _ _ t' h' (by rw [hs', hs]; exact hpar) hr
          · rw [if_neg hp] at hr ⊢
            obtain ⟨q, hq, hr⟩ := Option.bind_eq_some_iff.mp hr
            obtain ⟨db₁', hq', tq, hcq, hs, hle⟩ := removeNode_twin t h hx0 hx hq
            have troot : Twin { q.2 with root := q.1 } { db₁' with root := q.1 } :=
              ⟨rfl, tq.size, tq.cap, tq.fHead, tq.data⟩
            have hroot : Closed { q.2 with root := q.1 } := ⟨hs ▸ hle, hcq.fHead, hcq.size, hcq.cap, hcq.links⟩
            rw [hq']
            by_cases hq0 : q.1 = 0
            · refine ih _ _ _ _ ?_ ?_ (by show _ ≤ q.2.size; rw [hs]; exact hpar) hr
              · rw [hq0]
                exact ⟨rfl, tq.size, tq.cap, tq.fHead, fun i hi hle => by
                  rw [TstDb.set_data_other _ _ hi, TstDb.set_data_other _ _ hi]
                  exact tq.data i hi hle⟩
              · rw [hq0]
                exact ⟨Nat.zero_le _, hcq.fHead, hcq.size, hcq.cap, fun i hi hle => by
                  rw [TstDb.set_data_other _ _ hi]
                  exact hcq.links i hi hle⟩
            · have hqs : q.1 ≤ q.2.size := hs ▸ hle
              have hl := hcq.links q.1 hq0 hqs
              refine ih _ _ _ _ (troot.modify hq0 hqs fun m => { m with parent := (db.data x).parent })
                (hroot.set ⟨hl.left, hl.mid, hl.right, by show _ ≤ q.2.size; rw [hs]; exact hpar⟩) ?_ hr
              show _ ≤ q.2.size
              rw [hs]
              exact hpar
        · rw [if_neg hgone] at hr ⊢
          exact ih _ _ _ _ t h hpar hr

/-- The node an `insert` is at, made first where there was none.  A fresh node has
the letter of the key, so a call that turns left or right has not made one. -/
theorem insert_start {db db' : TstDb} (t : Twin db db') (h : Closed db) {x : Nat} (s : List UInt8)
    {d len : Nat} (hx : x ≤ db.size) (hd : d < len) (hroom : db.size + (len - d) < ARENA_LIMIT) :
    ∃ y db₁ db₁', (if x = 0 then ((newNode db).1, (newNode db).2.set (newNode db).1
          { (newNode db).2.data (newNode db).1 with c := s.getD d 0 }) else (x, db)) = (y, db₁) ∧
      (if x = 0 then ((newNode db').1, (newNode db').2.set (newNode db').1
          { (newNode db').2.data (newNode db').1 with c := s.getD d 0 }) else (x, db')) = (y, db₁') ∧
      Twin db₁ db₁' ∧ Closed db₁ ∧ y ≠ 0 ∧ y ≤ db₁.size ∧ db.size ≤ db₁.size ∧
      db₁.size + (len - (d + 1)) < ARENA_LIMIT ∧
      ((db₁.data y).c ≠ s.getD d 0 → db₁.size + (len - d) < ARENA_LIMIT) := by
  by_cases hx0 : x = 0
  · obtain ⟨e, tn, hn, hy0, hy, hzero, hle, hle'⟩ := newNode_twin t h (by omega)
    have hl := hn.links _ hy0 hy
    refine ⟨_, _, _, if_pos hx0, by rw [if_pos hx0, e], ?_, ?_, hy0, hy, hle, ?_, fun hne => ?_⟩
    · exact tn.modify hy0 hy fun n => { n with c := s.getD d 0 }
    · exact hn.set ⟨hl.left, hl.mid, hl.right, hl.parent⟩
    · show (newNode db).2.size + _ < _
      omega
    · exact absurd (by rw [TstDb.set_data_same]) hne
  · exact ⟨x, db, db', if_neg hx0, if_neg hx0, t, h, hx0, hx, le_rfl, by omega, fun _ => hroom⟩

/-- On the way back each node is linked to what came of its subtree, and to the node
above. -/
theorem relink_twin {db db' : TstDb} (t : Twin db db') (h : Closed db) {y p : Nat} (hy0 : y ≠ 0)
    (hy : y ≤ db.size) (hp : p ≤ db.size) {link : TstNode → TstNode}
    (hlink : ∀ n : TstNode, LinksWithin db.size n → LinksWithin db.size (link n)) :
    Twin ((db.set y (link (db.data y))).set y
        { (db.set y (link (db.data y))).data y with parent := p })
      ((db'.set y (link (db'.data y))).set y
        { (db'.set y (link (db'.data y))).data y with parent := p }) ∧
    Closed ((db.set y (link (db.data y))).set y
        { (db.set y (link (db.data y))).data y with parent := p }) := by
  have t₁ := t.modify hy0 hy link
  have h₁ := h.set (x := y) (hlink _ (h.links y hy0 hy))
  have hl := h₁.links y hy0 hy
  exact ⟨t₁.modify hy0 hy fun n => { n with parent := p }, h₁.set ⟨hl.left, hl.mid, hl.right, hp⟩⟩

theorem insert_twin (s : List UInt8) (v len : Nat) : ∀ (n : Nat) (db db' : TstDb) (x d p : Nat)
    (r : Nat × TstDb), Twin db db' → Closed db → x ≤ db.size → p ≤ db.size → d < len →
    db.size + (len - d) < ARENA_LIMIT → insert n db x s v d len p = some r →
    ∃ db₁', insert n db' x s v d len p = some (r.1, db₁') ∧ Twin r.2 db₁' ∧ Closed r.2 ∧
      r.1 ≤ r.2.size ∧ db.size ≤ r.2.size := by
  intro n
  induction n with
  | zero => intro db db' x d p r _ _ _ _ _ _ hr; simp [insert] at hr
  | succ n ih =>
      intro db db' x d p r t h hx hp hd hroom hr
      obtain ⟨y, db₁, db₁', e, e', t₁, h₁, hy0, hy, hle, hmid, hside⟩ := insert_start t h s hx hd hroom
      have hl := h₁.links y hy0 hy
      rw [insert] at hr ⊢
      simp only [e] at hr
      simp only [e', t₁.data y hy0 hy]
      -- what is left to do once the subtree has been taken care of
      have hback : ∀ (q : Nat × TstDb) (db₂' : TstDb) (link : TstNode → TstNode), Twin q.2 db₂' →
          Closed q.2 → db₁.size ≤ q.2.size →
          (∀ n : TstNode, LinksWithin q.2.size n → LinksWithin q.2.size (link n)) →
          Twin ((q.2.set y (link (q.2.data y))).set y
              { (q.2.set y (link (q.2.data y))).data y with parent := p })
            ((db₂'.set y (link (db₂'.data y))).set y
              { (db₂'.set y (link (db₂'.data y))).data y with parent := p }) ∧
          Closed ((q.2.set y (link (q.2.data y))).set y
              { (q.2.set y (link (q.2.data y))).data y with parent := p }) := fun q db₂' link tq hq hs hlink =>
        relink_twin tq hq hy0 (le_trans hy hs) (le_trans hp (le_trans hle hs)) hlink
      split_ifs at hr ⊢ with hlt hgt hmore
      · have hne : (db₁.data y).c ≠ s.getD d 0 := fun e => by rw [e] at hlt; exact lt_irrefl _ hlt
        obtain ⟨q, hq, rfl⟩ := Option.map_eq_some_iff.mp hr
        obtain ⟨db₂', hq', tq, hcq, hno, hs⟩ := ih _ _ _ _ _ _ t₁ h₁ hl.left hy hd (hside hne) hq
        obtain ⟨t', h'⟩ := hback q db₂' (fun m => { m with left := q.1 }) tq hcq hs
          (fun m hm => ⟨hno, hm.mid, hm.right, hm.parent⟩)
        exact ⟨_, by rw [hq']; rfl, t', h', le_trans hy hs, le_trans hle hs⟩
      · have hne : (db₁.data y).c ≠ s.getD d 0 := fun e => by rw [e] at hgt; exact lt_irrefl _ hgt
        obtain ⟨q, hq, rfl⟩ := Option.map_eq_some_iff.mp hr
        obtain ⟨db₂', hq', tq, hcq, hno, hs⟩ := ih _ _ _ _ _ _ t₁ h₁ hl.right hy hd (hside hne) hq
        obtain ⟨t', h'⟩ := hback q db₂' (fun m => { m with right := q.1 }) tq hcq hs
          (fun m hm => ⟨hm.left, hm.mid, hno, hm.parent⟩)
        exact ⟨_, by rw [hq']; rfl, t', h', le_trans hy hs, le_trans hle hs⟩
      · obtain ⟨q, hq, rfl⟩ := Option.map_eq_some_iff.mp hr
        obtain ⟨db₂', hq', tq, hcq, hno, hs⟩ := ih _ _ _ _ _ _ t₁ h₁ hl.mid hy hmore hmid hq
        obtain ⟨t', h'⟩ := hback q db₂' (fun m => { m with mid := q.1 }) tq hcq hs
          (fun m hm => ⟨hm.left, hno, hm.right, hm.parent⟩)
        exact ⟨_, by rw [hq']; rfl, t', h', le_trans hy hs, le_trans hle hs⟩
      · obtain rfl := Option.some.inj hr
        obtain ⟨t', h'⟩ := hback (y, db₁) db₁' (fun m => { m with value := v }) t₁ h₁ le_rfl
          (fun m hm => ⟨hm.left, hm.mid, hm.right, hm.parent⟩)
        rw [t₁.data y hy0 hy] at t'
        exact ⟨_, rfl, t', h', hy, hle⟩

/-! ## What the server calls -/

theorem tstPut_twin {db db' r : TstDb} (t : Twin db db') (h : Closed db) {n : Nat} {key : List UInt8} {v : Nat}
    (hroom : db.size + key.length < ARENA_LIMIT) (hr : tstPut n db key v = some r) :
    ∃ r', tstPut n db' key v = some r' ∧ Twin r r' ∧ Closed r := by
  unfold tstPut at hr ⊢
  split_ifs at hr ⊢ with hk
  · obtain rfl := Option.some.inj hr
    exact ⟨db', rfl, t, h⟩
  · obtain ⟨q, hq, rfl⟩ := Option.map_eq_some_iff.mp hr
    rw [t.root]
    obtain ⟨db₁', hq', tq, hcq, hno, -⟩ := insert_twin key v key.length n db db' db.root 0 0 q t h h.root
      (Nat.zero_le _) (by omega) (by omega) hq
    rw [hq']
    exact ⟨_, rfl, ⟨rfl, tq.size, tq.cap, tq.fHead, tq.data⟩, ⟨hno, hcq.fHead, hcq.size, hcq.cap, hcq.links⟩⟩

theorem tstDelete_twin {db db' r : TstDb} (t : Twin db db') (h : Closed db) {n : Nat} {key : List UInt8}
    (hr : tstDelete n db key = some r) : ∃ r', tstDelete n db' key = some r' ∧ Twin r r' ∧ Closed r := by
  unfold tstDelete at hr ⊢
  split_ifs at hr ⊢ with hk
  · obtain rfl := Option.some.inj hr
    exact ⟨db', rfl, t, h⟩
  · obtain ⟨x, hx, hr⟩ := Option.bind_eq_some_iff.mp hr
    obtain ⟨hx', hxs⟩ := searchLoop_twin t h key n _ _ _ h.root hx
    rw [t.root, hx']
    by_cases hx0 : x = 0
    · rw [if_pos hx0] at hr
      simp only [Option.bind_some, if_pos hx0]
      exact climb_twin n _ _ x r t h hxs hr
    · have hl := h.links x hx0 hxs
      rw [if_neg hx0] at hr
      simp only [Option.bind_some, if_neg hx0]
      exact climb_twin n _ _ x r (t.modify hx0 hxs fun m => { m with value := 0 })
        (h.set ⟨hl.left, hl.mid, hl.right, hl.parent⟩) hxs hr

/-! ## Created and reloaded arenas -/

theorem closed_createTstDb (mem : Nat → TstNode) : Closed (createTstDb mem) :=
  ⟨le_rfl, le_rfl, show 0 < 409600 by decide, ⟨0, by decide, rfl⟩, fun i hi hle => absurd (Nat.le_zero.mp hle) hi⟩

end Tstdb
