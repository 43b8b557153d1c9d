/-
# `Tstdb.Tst.Delete` — `tst_delete` erases a key by climbing the parent links

The second loop of `tst_delete` never looks at the key: it goes from the found
node to the node that `parent` names, and takes the link it finds there for the
link it came by.  That is `TTree.erase?` exactly as long as the `parent` fields
along the key's path are the right ones (`PathLinked`); nothing is needed of any
other `parent` field.

`remove_node` in turn keeps the `parent` fields right unless it hangs the right
siblings under the left ones, in which case the hung subtree still names the
removed node (`TTree.Hangs`, `TTree.HangsOn`).
-/
import Mathlib
import Tstdb.Lib.Fuel
import Tstdb.Lib.TernaryTree
import Tstdb.Tst.Arena
import Tstdb.Tst.Shape

namespace Tstdb

open Fuel TTree

/-! ## Hanging one sibling tree under another -/

/-- The loop to `max_p` ends at a node whose right link is free, and writing `r` there
hangs `r` under the siblings. -/
theorem maxLoop_spec {db : TstDb} {r : Tree} (hr : Rep db.data r) : ∀ (l : Tree), l ≠ .nil →
    Rep db.data l → (l.ids ++ r.ids).Nodup →
    ∃ x ∈ l.ids, Settles (fun n => maxLoop n db l.root) x ∧
      Rep (Function.update db.data x { db.data x with right := r.root }) (hang r l) := by
  intro l
  induction l with
  | nil => intro h; exact absurd rfl h
  | node i c v l m r' _ _ ih =>
      intro _ h hnd
      obtain ⟨⟨hi, hc, hv, hll, hlm, hlr⟩, rl, rm, rr⟩ := h
      simp only [TTree.ids, List.nodup_append, List.nodup_cons, List.mem_append, List.mem_cons,
        not_or] at hnd
      by_cases hr' : r' = .nil
      · subst hr'
        refine ⟨i, by simp [TTree.ids], ?_, ?_⟩
        · refine Settles.succ (f := fun _ => some i) (fun n => ?_) (settles_const i)
          rw [maxLoop, root_node, if_pos (hlr.trans root_nil)]
        · refine ⟨⟨hi, ?_⟩, rl.update (by grind) _, rm.update (by grind) _, hr.update (by grind) _⟩
          simp [hc, hv, hll, hlm, hang]
      · obtain ⟨x, hx, hset, hrep⟩ := ih hr' rr (by simp only [List.nodup_append]; grind)
        have hxi : x ≠ i := by grind
        have hne : (db.data i).right ≠ 0 := by
          rw [hlr]
          exact fun h0 => hr' (rr.root_eq_zero.mp h0)
        have hroot : (hang r r').root = r'.root := by
          cases r' with
          | nil => exact absurd rfl hr'
          | node => rfl
        refine ⟨x, by simp [TTree.ids, hx], ?_, ?_⟩
        · refine Settles.succ (fun n => ?_) hset
          rw [maxLoop, root_node, if_neg hne, hlr]
        · refine ⟨⟨hi, ?_⟩, rl.update (by grind) _, rm.update (by grind) _, hrep⟩
          simp [Ne.symm hxi, hc, hv, hll, hlm, hlr, hroot]

/-- `remove_node` frees the node and returns what takes its place. -/
theorem removeNode_spec {db : TstDb} {F : List Nat} {i : Nat} {l r : Tree} (hi : i ≠ 0)
    (hl : (db.data i).left = l.root) (hr : (db.data i).right = r.root) (rl : Rep db.data l)
    (rr : Rep db.data r) (hf : FreeList db.data db.fHead F) (hnd : (i :: (l.ids ++ r.ids) ++ F).Nodup) :
    ∃ db', Settles (fun n => removeNode n db i) ((hang r l).root, db') ∧ Rep db'.data (hang r l) ∧
      FreeList db'.data db'.fHead (i :: F) ∧ db'.root = db.root ∧ db'.size = db.size ∧
      (∀ j, j ≠ i → j ∉ l.ids → db'.data j = db.data j) ∧
      (∀ j, (db'.data j).parent = (db.data j).parent) := by
  simp only [List.cons_append, List.nodup_cons, List.nodup_append, List.mem_append, not_or] at hnd
  have dl : (freeNode db i).data = Function.update db.data i { db.data i with mid := db.fHead, value := 0 } :=
    rfl
  have rl' : Rep (freeNode db i).data l := by rw [dl]; exact rl.update (by grind) _
  have rr' : Rep (freeNode db i).data r := by rw [dl]; exact rr.update (by grind) _
  have ff : FreeList (freeNode db i).data (freeNode db i).fHead (i :: F) := by
    refine ⟨rfl, hi, ?_⟩
    rw [dl, Function.update_self]
    exact hf.update (by grind) _
  have hpar : ∀ j, ((freeNode db i).data j).parent = (db.data j).parent := by
    intro j
    rw [dl]
    by_cases hj : j = i
    · subst hj; simp
    · rw [Function.update_of_ne hj]
  have hkeep : ∀ j, j ≠ i → j ∉ l.ids → (freeNode db i).data j = db.data j := fun j hj _ => by
    rw [dl, Function.update_of_ne hj]
  have simple : ∀ q : Tree, Rep (freeNode db i).data q → hang r l = q →
      (∀ n, removeNode n db i = some (q.root, freeNode db i)) → _ := fun q hq hqe hn =>
    (⟨freeNode db i, (settles_const (q.root, freeNode db i)).congr hn, hq, ff, rfl, rfl, hkeep, hpar⟩ :
      ∃ db', Settles (fun n => removeNode n db i) (q.root, db') ∧ Rep db'.data q ∧
        FreeList db'.data db'.fHead (i :: F) ∧ db'.root = db.root ∧ db'.size = db.size ∧
        (∀ j, j ≠ i → j ∉ l.ids → db'.data j = db.data j) ∧
        (∀ j, (db'.data j).parent = (db.data j).parent))
  by_cases hln : l = .nil
  · subst hln
    refine simple r rr' rfl fun n => ?_
    by_cases hrn : r = .nil
    · subst hrn; simp [removeNode, hl, hr]
    · have h0 : r.root ≠ 0 := fun h => hrn (rr.root_eq_zero.mp h)
      simp [removeNode, hl, hr, h0, Nat.pos_of_ne_zero h0]
  · have hl0 : l.root ≠ 0 := fun h => hln (rl.root_eq_zero.mp h)
    by_cases hrn : r = .nil
    · subst hrn
      rw [hang_nil]
      refine simple l rl' (hang_nil l) fun n => ?_
      simp [removeNode, hl, hr, hl0, Nat.pos_of_ne_zero hl0]
    · have hr0 : r.root ≠ 0 := fun h => hrn (rr.root_eq_zero.mp h)
      obtain ⟨x, hx, hset, hrep⟩ := maxLoop_spec rr' l hln rl' (by simp only [List.nodup_append]; grind)
      have hroot : (hang r l).root = l.root := by
        cases l with
        | nil => exact absurd rfl hln
        | node => rfl
      refine ⟨(freeNode db i).set x { (freeNode db i).data x with right := r.root }, ?_, hrep, ?_, rfl,
        rfl, fun j hj hjl => ?_, fun j => ?_⟩
      · refine (hset.map fun q => (l.root, (freeNode db i).set q
          { (freeNode db i).data q with right := r.root })).congr (fun n => ?_) |> fun h => hroot ▸ h
        simp only [removeNode, hl, hr, hl0, hr0, and_false, if_false]
      · exact ff.frame fun j hj => by
          by_cases hjx : j = x
          · subst hjx; simp
          · rw [TstDb.set_data_other _ _ hjx]
      · rw [TstDb.set_data_other _ _ (fun e : j = x => hjl (e ▸ hx))]
        exact hkeep j hj hjl
      · rw [← hpar j]
        by_cases hjx : j = x
        · subst hjx; simp
        · rw [TstDb.set_data_other _ _ hjx]

/-! ## One round of the climb -/

/-- `p` holds the link to `x`, on this side and on no other; `0` stands for the root link. -/
structure Held (db : TstDb) (p : Nat) (side : Side) (x : Nat) : Prop where
  top : p = 0 → db.root = x
  link : p ≠ 0 → (db.data p).kid side = x
  only : p ≠ 0 → ∀ side', side' ≠ side → (db.data p).kid side' ≠ x

/-- The effect of a part of the climb: the subtree `t` below the link that `p` holds
became `t'`, the nodes that left it are free, nothing else moved. -/
structure Erased (db db' : TstDb) (F F' : List Nat) (t t' : Tree) (p : Nat) (side : Side) : Prop where
  rep : Rep db'.data t'
  free : FreeList db'.data db'.fHead F'
  perm : (t'.ids ++ F').Perm (t.ids ++ F)
  sub : ∀ j ∈ t'.ids, j ∈ t.ids
  top : db'.root = if p = 0 then t'.root else db.root
  link : p ≠ 0 → db'.data p = (db.data p).withKid side t'.root
  size : db'.size = db.size
  null : (db'.data 0).value = 0
  frame : ∀ j, j ∉ t.ids → j ≠ p → j ≠ 0 → db'.data j = db.data j

theorem TstNode.withKid_kid (side : Side) (n : TstNode) : n.withKid side (n.kid side) = n := by
  cases side <;> rfl

@[simp] theorem TstNode.withKid_parent (side : Side) (n : TstNode) (x : Nat) :
    (n.withKid side x).parent = n.parent := by cases side <;> rfl

/-- A round that removes nothing. -/
theorem Erased.refl {db : TstDb} {F : List Nat} {t : Tree} {p : Nat} {side : Side}
    (h : Rep db.data t) (hf : FreeList db.data db.fHead F) (h0 : (db.data 0).value = 0)
    (held : Held db p side t.root) : Erased db db F F t t p side := by
  refine ⟨h, hf, List.Perm.refl _, fun _ => id, ?_, fun hp => ?_, rfl, h0, fun _ _ _ _ => rfl⟩
  · by_cases hp : p = 0
    · rw [if_pos hp, held.top hp]
    · rw [if_neg hp]
  · rw [← held.link hp, TstNode.withKid_kid]

/-- The node is cut out of its parent, on whichever side it hangs. -/
theorem climb_unlink {db db₁ : TstDb} {i p q : Nat} {side : Side} {r : TstDb} (hi : i ≠ 0) (hp : p ≠ 0)
    (hm : (db.data i).mid = 0) (hv : (db.data i).value = 0) (hpar : (db.data i).parent = p)
    (held : Held db p side i) (hrem : Settles (fun n => removeNode n db i) (q, db₁))
    (h : Settles (fun n => climb n (adopt (db₁.set p ((db₁.data p).withKid side q)) q p) p) r) :
    Settles (fun n => climb n db i) r := by
  have hl := held.link hp
  have ho := held.only hp
  have hpos : 0 < p := Nat.pos_of_ne_zero hp
  refine Settles.succ (fun n => ?_) (hrem.bind (g := fun n x => climb n
    (adopt (x.2.set p ((x.2.data p).withKid side x.1)) x.1 p) p) h)
  rw [climb, if_neg hi]
  simp only [hpar, hm, hv, and_self, if_true, if_pos hpos]
  cases side with
  | left =>
      have h1 : i = (db.data p).left := hl.symm
      rw [if_pos h1]
      rfl
  | right =>
      have h1 : i ≠ (db.data p).left := Ne.symm (ho .left (by decide))
      have h2 : i = (db.data p).right := hl.symm
      rw [if_neg h1, if_pos h2]
      rfl
  | mid =>
      have h1 : i ≠ (db.data p).left := Ne.symm (ho .left (by decide))
      have h2 : i ≠ (db.data p).right := Ne.symm (ho .right (by decide))
      rw [if_neg h1, if_neg h2]
      rfl

/-- The node is the root of the whole tree. -/
theorem climb_unlink_root {db db₁ : TstDb} {i q : Nat} {r : TstDb} (hi : i ≠ 0)
    (hm : (db.data i).mid = 0) (hv : (db.data i).value = 0) (hpar : (db.data i).parent = 0)
    (hrem : Settles (fun n => removeNode n db i) (q, db₁))
    (h : Settles (fun n => climb n ({ db₁ with root := q }.set q { db₁.data q with parent := 0 }) 0) r) :
    Settles (fun n => climb n db i) r := by
  refine Settles.succ (fun n => ?_) (hrem.bind (g := fun n x => climb n
    ({ x.2 with root := x.1 }.set x.1 { x.2.data x.1 with parent := 0 }) 0) h)
  rw [climb, if_neg hi]
  simp only [hpar, hm, hv, and_self, if_true, lt_irrefl, if_false]

/-- The node has a value or a middle child and stays. -/
theorem climb_pass {db : TstDb} {i : Nat} {r : TstDb} (hi : i ≠ 0)
    (hmv : ¬ ((db.data i).mid = 0 ∧ (db.data i).value = 0))
    (h : Settles (fun n => climb n db (db.data i).parent) r) : Settles (fun n => climb n db i) r := by
  refine Settles.succ (fun n => ?_) h
  rw [climb, if_neg hi]
  simp only [if_neg hmv]

/-- Moving a tree under another parent concerns its top node only. -/
theorem Parents.reroot {data data' : Nat → TstNode} {p p' : Nat} {q : Tree} (h : Parents data p q)
    (htop : q ≠ .nil → (data' q.root).parent = p')
    (hs : ∀ j ∈ q.ids, j ≠ q.root → (data' j).parent = (data j).parent) (hnd : q.ids.Nodup) :
    Parents data' p' q := by
  cases q with
  | nil => trivial
  | node i c v l m r =>
      obtain ⟨-, pl, pm, pr⟩ := h
      simp only [TTree.ids, List.nodup_append, List.nodup_cons, List.mem_append, List.mem_cons,
        root_node] at hs hnd
      exact ⟨htop (by simp), pl.frame fun j hj => hs j (by grind) (by grind),
        pm.frame fun j hj => hs j (by grind) (by grind), pr.frame fun j hj => hs j (by grind) (by grind)⟩

@[simp] theorem adopt_root (db : TstDb) (x p : Nat) : (adopt db x p).root = db.root := by
  unfold adopt; split <;> rfl
@[simp] theorem adopt_size (db : TstDb) (x p : Nat) : (adopt db x p).size = db.size := by
  unfold adopt; split <;> rfl
@[simp] theorem adopt_fHead (db : TstDb) (x p : Nat) : (adopt db x p).fHead = db.fHead := by
  unfold adopt; split <;> rfl
theorem adopt_other (db : TstDb) {x p j : Nat} (h : j ≠ x) : (adopt db x p).data j = db.data j := by
  unfold adopt
  split
  · rfl
  · exact TstDb.set_data_other _ _ h
theorem adopt_alike (db : TstDb) (x p j : Nat) : Alike ((adopt db x p).data j) (db.data j) := by
  by_cases h : j = x
  · subst h
    unfold adopt
    split
    · exact Alike.refl _
    · rw [TstDb.set_data_same]; rfl
  · exact .of_eq (adopt_other db h)
theorem adopt_parent (db : TstDb) {x p : Nat} (h : x ≠ 0) : ((adopt db x p).data x).parent = p := by
  simp [adopt, h]

section Cut

variable {db db₁ : TstDb} {F F' : List Nat} {t q : Tree} {i p : Nat} (side : Side)

/-- Linking what `remove_node` returned to the parent: the round is done. -/
theorem Erased.cut (rep : Rep db₁.data q) (free : FreeList db₁.data db₁.fHead F')
    (perm : (q.ids ++ F').Perm (t.ids ++ F)) (sub : ∀ j ∈ q.ids, j ∈ t.ids) (root : db₁.root = db.root)
    (size : db₁.size = db.size) (frame : ∀ j, j ∉ t.ids → db₁.data j = db.data j)
    (h0 : (db.data 0).value = 0) (ht0 : 0 ∉ t.ids) (hp0 : p ≠ 0) (hp : p ∉ t.ids ++ F) :
    Erased db (adopt (db₁.set p ((db₁.data p).withKid side q.root)) q.root p) F F' t q p side ∧
      (q.ids.Nodup → Parents db₁.data i q →
        Parents (adopt (db₁.set p ((db₁.data p).withKid side q.root)) q.root p).data p q) := by
  have hpt : p ∉ t.ids := fun h => hp (List.mem_append_left _ h)
  have hpq : p ∉ q.ids := fun h => hpt (sub p h)
  have hpF : p ∉ F' := fun h => hp (perm.subset (List.mem_append_right _ h))
  have hqroot : ∀ j, j ∉ t.ids → j ≠ 0 → j ≠ q.root := by
    intro j hj hj0 e
    by_cases hq : q = .nil
    · exact hj0 (by rw [e, hq]; rfl)
    · exact hj (sub j (e ▸ root_mem_ids hq))
  refine ⟨⟨?_, ?_, perm, sub, ?_, fun _ => ?_, ?_, ?_, fun j hj hjp hj0 => ?_⟩, fun hndq hpar => ?_⟩
  · exact Rep.congr (fun j _ => adopt_alike _ _ _ j) (rep.update hpq _)
  · rw [adopt_fHead]
    exact (free.update hpF _).frame fun j _ => (adopt_alike _ _ _ j).fields.2.2.1
  · rw [adopt_root, if_neg hp0]; exact root
  · rw [adopt_other _ (hqroot p hpt hp0), TstDb.set_data_same, frame p hpt]
  · rw [adopt_size]; exact size
  · have h0q : (adopt (db₁.set p ((db₁.data p).withKid side q.root)) q.root p).data 0
        = (db₁.set p ((db₁.data p).withKid side q.root)).data 0 := by
      by_cases hq : q.root = 0
      · simp [adopt, hq]
      · exact adopt_other _ (Ne.symm hq)
    rw [h0q, TstDb.set_data_other _ _ (Ne.symm hp0), frame 0 ht0, h0]
  · rw [adopt_other _ (hqroot j hj hj0), TstDb.set_data_other _ _ hjp, frame j hj]
  · refine Parents.reroot hpar (fun hq => ?_) (fun j hj hjq => ?_) hndq
    · exact adopt_parent _ fun h => hq (rep.root_eq_zero.mp h)
    · rw [adopt_other _ hjq, TstDb.set_data_other _ _ fun e : j = p => hpq (e ▸ hj)]

/-- The same at the root link, where node `0` is written when the tree is gone. -/
theorem Erased.cut_root (rep : Rep db₁.data q) (free : FreeList db₁.data db₁.fHead F')
    (perm : (q.ids ++ F').Perm (t.ids ++ F)) (sub : ∀ j ∈ q.ids, j ∈ t.ids)
    (size : db₁.size = db.size) (frame : ∀ j, j ∉ t.ids → db₁.data j = db.data j)
    (h0 : (db.data 0).value = 0) (ht0 : 0 ∉ t.ids) :
    Erased db ({ db₁ with root := q.root }.set q.root { db₁.data q.root with parent := 0 }) F F' t q 0 side ∧
      (q.ids.Nodup → Parents db₁.data i q →
        Parents ({ db₁ with root := q.root }.set q.root { db₁.data q.root with parent := 0 }).data 0 q) := by
  have alike : ∀ j, Alike (({ db₁ with root := q.root }.set q.root
      { db₁.data q.root with parent := 0 }).data j) (db₁.data j) := by
    intro j
    by_cases hj : j = q.root
    · subst hj; rw [TstDb.set_data_same]; rfl
    · exact .of_eq (TstDb.set_data_other _ _ hj)
  refine ⟨⟨?_, ?_, perm, sub, rfl, fun h => absurd rfl h, size, ?_, fun j hj _ hj0 => ?_⟩,
    fun hndq hpar => ?_⟩
  · exact Rep.congr (fun j _ => alike j) rep
  · exact free.frame fun j _ => (alike j).fields.2.2.1
  · by_cases hq : q.root = 0
    · rw [hq, TstDb.set_data_same, frame 0 ht0]; exact h0
    · rw [TstDb.set_data_other _ _ (Ne.symm hq)]
      rw [show ({ db₁ with root := q.root } : TstDb).data 0 = db.data 0 from frame 0 ht0]
      exact h0
  · have hjq : j ≠ q.root := by
      intro e
      by_cases hq : q = .nil
      · exact hj0 (by rw [e, hq]; rfl)
      · exact hj (sub j (e ▸ root_mem_ids hq))
    rw [TstDb.set_data_other _ _ hjq]
    exact frame j hj
  · refine Parents.reroot hpar (fun _ => ?_) (fun j _ hjq => ?_) hndq
    · rw [TstDb.set_data_same]
    · rw [TstDb.set_data_other _ _ hjq]

end Cut

/-- One round of the climb is `TTree.prune`; it goes on at the parent.  The `parent`
fields stay right unless the round hangs one sibling tree under another. -/
theorem climb_prune {db : TstDb} {F : List Nat} {t : Tree} {p : Nat} (side : Side) (ht : t ≠ .nil)
    (h : Rep db.data t) (hf : FreeList db.data db.fHead F) (h0 : (db.data 0).value = 0)
    (hnd : (t.ids ++ F).Nodup) (held : Held db p side t.root) (hpar : (db.data t.root).parent = p)
    (hp : p ≠ 0 → p ∉ t.ids ++ F) :
    ∃ db' F', Erased db db' F F' t t.prune p side ∧
      (¬ t.Hangs → Parents db.data p t → Parents db'.data p t.prune) ∧
      ∀ r, Settles (fun n => climb n db' p) r → Settles (fun n => climb n db t.root) r := by
  have ht0 : 0 ∉ t.ids := fun h' => h.ids_ne_zero 0 h' rfl
  cases t with
  | nil => exact absurd rfl ht
  | node i c v l m r =>
      obtain ⟨⟨hi, hc, hv, hl, hm, hr⟩, rl, rm, rr⟩ := id h
      simp only [root_node] at held hpar ⊢
      by_cases hgo : m = .nil ∧ v = 0
      · obtain ⟨rfl, rfl⟩ := hgo
        simp only [prune, if_true]
        obtain ⟨db₁, hrem, rep₁, free₁, root₁, size₁, frame₁, par₁⟩ :=
          removeNode_spec hi hl hr rl rr hf (by simpa [TTree.ids] using hnd)
        have hids : ∀ j ∈ (hang r l).ids, j ∈ (TTree.node i c 0 l .nil r).ids := fun j hj => by
          rw [ids_hang, List.mem_append] at hj
          simpa [TTree.ids] using Or.inr hj
        have hperm : ((hang r l).ids ++ i :: F).Perm ((TTree.node i c 0 l .nil r).ids ++ F) := by
          rw [ids_hang]
          simpa [TTree.ids] using (@List.perm_middle _ i (l.ids ++ r.ids) F)
        have hndq : (hang r l).ids.Nodup := (List.nodup_append.mp ((hperm.nodup_iff).mpr hnd)).1
        have hframe : ∀ j, j ∉ (TTree.node i c 0 l .nil r).ids → db₁.data j = db.data j := fun j hj => by
          simp only [TTree.ids, List.mem_cons, List.mem_append, not_or] at hj
          exact frame₁ j hj.1 hj.2.1.1
        -- without a merge what is left is one of the two sibling trees
        have hpars : ¬ (l ≠ .nil ∧ r ≠ .nil) → Parents db.data p (TTree.node i c 0 l .nil r) →
            Parents db₁.data i (hang r l) := fun hno hpt => by
          by_cases hrn : r = .nil
          · subst hrn
            rw [hang_nil]
            exact Parents.frame (fun j _ => par₁ j) hpt.2.1
          · have hln : l = .nil := by_contra fun hln => hno ⟨hln, hrn⟩
            subst hln
            exact Parents.frame (fun j _ => par₁ j) hpt.2.2.2
        by_cases hp0 : p = 0
        · subst hp0
          obtain ⟨er, hq⟩ := Erased.cut_root (i := i) side rep₁ free₁ hperm hids size₁ hframe h0 ht0
          exact ⟨_, _, er, fun hno hpt => hq hndq (hpars (fun hb => hno ⟨rfl, hb⟩) hpt),
            fun s hs => climb_unlink_root hi hm hv hpar hrem hs⟩
        · obtain ⟨er, hq⟩ := Erased.cut (i := i) side rep₁ free₁ hperm hids root₁ size₁ hframe h0 ht0
            hp0 (hp hp0)
          exact ⟨_, _, er, fun hno hpt => hq hndq (hpars (fun hb => hno ⟨rfl, hb⟩) hpt),
            fun s hs => climb_unlink hi hp0 hm hv hpar held hrem hs⟩
      · have hstay : (TTree.node i c v l m r).prune = .node i c v l m r := by
          cases m with
          | nil => exact if_neg fun hv0 => hgo ⟨rfl, hv0⟩
          | node => rfl
        have hmv : ¬ ((db.data i).mid = 0 ∧ (db.data i).value = 0) := by
          rw [hm, hv, rm.root_eq_zero]
          exact hgo
        rw [hstay]
        exact ⟨db, F, Erased.refl h hf h0 held, fun _ hpt => hpt,
          fun s hs => climb_pass hi hmv (by rw [hpar]; exact hs)⟩

/-! ## The whole climb -/

/-- Along the key's path every node names the holder of its link as parent. -/
def PathLinked (data : Nat → TstNode) : Nat → Tree → List Int → Prop
  | _, .nil, _ => True
  | _, .node .., [] => True
  | p, .node i c _ l m r, a :: k =>
      (data i).parent = p ∧
        if a < c then PathLinked data i l (a :: k)
        else if c < a then PathLinked data i r (a :: k)
        else if k = [] then True
        else PathLinked data i m k

theorem Parents.pathLinked {data : Nat → TstNode} : ∀ {t : Tree} {p : Nat} (k : List Int),
    Parents data p t → PathLinked data p t k := by
  intro t
  induction t with
  | nil => intro _ _ _; trivial
  | node i c v l m r ihl ihm ihr =>
      intro p k h
      obtain ⟨hp, pl, pm, pr⟩ := h
      cases k with
      | nil => trivial
      | cons a k =>
          refine ⟨hp, ?_⟩
          split_ifs
          · exact ihl _ pl
          · exact ihr _ pr
          · exact ihm _ pm

section Up

variable {db db₁ : TstDb} {F F₁ : List Nat} {i p : Nat} {c : Int} {v : Nat} {l m r q : Tree}
  {side : Side} (side' : Side)

theorem Rep.held (h : Rep db.data (.node i c v l m r)) (hnd : (TTree.node i c v l m r).ids.Nodup)
    (hkid : (TTree.node i c v l m r).kid side' ≠ .nil) :
    Held db i side' ((TTree.node i c v l m r).kid side').root := by
  obtain ⟨⟨hi, -, -, hl, hm, hr⟩, rl, rm, rr⟩ := h
  have root_mem : ∀ t : Tree, t ≠ .nil → t.root ∈ t.ids := fun t => root_mem_ids
  have not_root : ∀ t t' : Tree, t ≠ .nil → Rep db.data t → (∀ a ∈ t.ids, ∀ b ∈ t'.ids, a ≠ b) →
      t'.root ≠ t.root := by
    intro t t' ht rt hd e
    by_cases ht' : t' = .nil
    · subst ht'; exact ht (rt.root_eq_zero.mp e.symm)
    · exact hd _ (root_mem t ht) _ (root_mem t' ht') e.symm
  simp only [TTree.ids, List.nodup_cons, List.nodup_append, List.mem_append] at hnd
  refine ⟨fun h => absurd h hi, fun _ => ?_, fun _ s hs => ?_⟩
  · cases side' <;> simpa [TstNode.kid, kid]
  · cases side' <;> cases s <;> simp only [TstNode.kid, kid, hl, hm, hr, ne_eq, not_true_eq_false] at hkid hs ⊢
    · exact not_root l m hkid rl (by grind)
    · exact not_root l r hkid rl (by grind)
    · exact not_root m l hkid rm (by grind)
    · exact not_root m r hkid rm (by grind)
    · exact not_root r l hkid rr (by grind)
    · exact not_root r m hkid rr (by grind)

/-- What an erasure below one link leaves of the node that holds the link. -/
theorem Erased.lift (h : Rep db.data (.node i c v l m r))
    (hnd : ((TTree.node i c v l m r).ids ++ F).Nodup)
    (e : Erased db db₁ F F₁ ((TTree.node i c v l m r).kid side') q i side') :
    Rep db₁.data ((TTree.node i c v l m r).withKid side' q) ∧
      (((TTree.node i c v l m r).withKid side' q).ids ++ F₁).Perm ((TTree.node i c v l m r).ids ++ F) ∧
      (∀ j ∈ ((TTree.node i c v l m r).withKid side' q).ids, j ∈ (TTree.node i c v l m r).ids) ∧
      ∀ j ∈ (TTree.node i c v l m r).ids, j ≠ i → j ∉ ((TTree.node i c v l m r).kid side').ids →
        db₁.data j = db.data j := by
  have hout := ids_perm_outer side' (TTree.node i c v l m r)
  have hin := ids_withKid_perm side' i c v l m r q
  have keep : ∀ j ∈ (TTree.node i c v l m r).ids, j ≠ i →
      j ∉ ((TTree.node i c v l m r).kid side').ids → db₁.data j = db.data j := fun j hj hji hjk =>
    e.frame j hjk hji (h.ids_ne_zero j hj)
  refine ⟨?_, ?_, fun j hj => ?_, keep⟩
  · exact h.withKid e.rep (.of_eq (e.link h.1.1)) keep (List.nodup_append.mp hnd).1
  · refine (hin.append_right F₁).trans ?_
    rw [List.append_assoc]
    refine (List.Perm.append_left _ e.perm).trans ?_
    rw [← List.append_assoc]
    exact (hout.symm.append_right F)
  · rcases List.mem_append.mp (hin.subset hj) with h1 | h1
    · exact hout.symm.subset (List.mem_append_left _ h1)
    · exact hout.symm.subset (List.mem_append_right _ (e.sub j h1))

/-- From an erasure below one link of a node to the erasure below the node's own link. -/
theorem climb_erase_up {x : Nat} {safe : Prop} (h : Rep db.data (.node i c v l m r))
    (hnd : ((TTree.node i c v l m r).ids ++ F).Nodup) (held : Held db p side i)
    (hp : p ≠ 0 → p ∉ (TTree.node i c v l m r).ids ++ F) (hpar : (db.data i).parent = p)
    (below : ∃ db₁ F₁, Erased db db₁ F F₁ ((TTree.node i c v l m r).kid side') q i side' ∧
      (safe → Parents db.data i ((TTree.node i c v l m r).kid side') → Parents db₁.data i q) ∧
      ∀ s, Settles (fun n => climb n db₁ i) s →
        Settles (fun n => climb n (db.set x { db.data x with value := 0 }) x) s) :
    ∃ db' F', Erased db db' F F' (.node i c v l m r)
        ((TTree.node i c v l m r).withKid side' q).prune p side ∧
      (safe ∧ ¬ ((TTree.node i c v l m r).withKid side' q).Hangs → Parents db.data p (.node i c v l m r) →
        Parents db'.data p ((TTree.node i c v l m r).withKid side' q).prune) ∧
      ∀ s, Settles (fun n => climb n db' p) s →
        Settles (fun n => climb n (db.set x { db.data x with value := 0 }) x) s := by
  obtain ⟨db₁, F₁, e, hpars, hclimb⟩ := below
  obtain ⟨rep₁, perm₁, sub₁, keep₁⟩ := e.lift side' h hnd
  have hi : i ≠ 0 := h.1.1
  have hne : (TTree.node i c v l m r).withKid side' q ≠ .nil := by cases side' <;> simp [withKid]
  have hroot : ((TTree.node i c v l m r).withKid side' q).root = i := by cases side' <;> rfl
  have hkidsub : ∀ j, j ∉ (TTree.node i c v l m r).ids → j ∉ ((TTree.node i c v l m r).kid side').ids :=
    fun j hj hk => hj ((ids_perm_outer side' _).symm.subset (List.mem_append_right _ hk))
  have frame₁ : ∀ j, j ∉ (TTree.node i c v l m r).ids → j ≠ 0 → db₁.data j = db.data j :=
    fun j hj hj0 => e.frame j (hkidsub j hj) (fun e : j = i => hj (by simp [TTree.ids, e])) hj0
  have hpt : p ≠ 0 → p ∉ (TTree.node i c v l m r).ids := fun h0 hm => hp h0 (List.mem_append_left _ hm)
  have hpd : p ≠ 0 → db₁.data p = db.data p := fun h0 => frame₁ p (hpt h0) h0
  have hroot₁ : db₁.root = db.root := by rw [e.top, if_neg hi]
  have held₁ : Held db₁ p side i :=
    ⟨fun h0 => hroot₁.trans (held.top h0), fun h0 => by rw [hpd h0]; exact held.link h0,
      fun h0 => by rw [hpd h0]; exact held.only h0⟩
  have hpar₁ : (db₁.data i).parent = p := by rw [e.link hi, TstNode.withKid_parent, hpar]
  obtain ⟨db', F', e', hpars', hclimb'⟩ := climb_prune (p := p) side hne rep₁ e.free e.null
    ((perm₁.nodup_iff).mpr hnd) (by rw [hroot]; exact held₁) (by rw [hroot]; exact hpar₁)
    (fun h0 hmem => hp h0 (perm₁.subset hmem))
  refine ⟨db', F', ⟨e'.rep, e'.free, e'.perm.trans perm₁, fun j hj => sub₁ j (e'.sub j hj), ?_,
    fun h0 => ?_, e'.size.trans e.size, e'.null, fun j hj hjp hj0 => ?_⟩, fun hsafe hpt' => ?_,
    fun s hs => hclimb s (hroot ▸ hclimb' s hs)⟩
  · rw [e'.top, hroot₁]
  · rw [e'.link h0, hpd h0]
  · rw [e'.frame j (fun hm => hj (sub₁ j hm)) hjp hj0, frame₁ j hj hj0]
  · refine hpars' hsafe.2 (hpt'.withKid (hpars hsafe.1 ?_) hpar₁ keep₁ (List.nodup_append.mp hnd).1)
    cases side'
    · exact hpt'.2.1
    · exact hpt'.2.2.1
    · exact hpt'.2.2.2

end Up

theorem erase?_of_find? {t : Tree} {k : List Int} {x : Nat} (h : t.find? k = some x) :
    ∃ t', t.erase? k = some t' :=
  Option.isSome_iff_exists.mp (by rw [isSome_erase?, h]; rfl)

/-- From the found node up to the holder of the subtree's link, the second loop of
`tst_delete` is `TTree.erase?`. -/
theorem climb_erase : ∀ (t : Tree) (k : List Int) (side : Side) {db : TstDb} {F : List Nat} {p x : Nat}
    {t' : Tree}, Rep db.data t → FreeList db.data db.fHead F → (db.data 0).value = 0 →
    (t.ids ++ F).Nodup → Held db p side t.root → (p ≠ 0 → p ∉ t.ids ++ F) → PathLinked db.data p t k →
    t.find? k = some x → t.erase? k = some t' →
    ∃ db' F', Erased db db' F F' t t' p side ∧
      (¬ t.HangsOn k → Parents db.data p t → Parents db'.data p t') ∧
      ∀ s, Settles (fun n => climb n db' p) s →
        Settles (fun n => climb n (db.set x { db.data x with value := 0 }) x) s := by
  intro t
  induction t with
  | nil => intro k _ _ _ _ _ _ _ _ _ _ _ _ _ hf; cases k <;> simp [find?] at hf
  | node i c v l m r ihl ihm ihr =>
      intro k side db F p x t' h hf h0 hnd held hp hpath hfind herase
      obtain ⟨⟨hi, hc, hv, hl, hm, hr⟩, rl, rm, rr⟩ := id h
      have hndt := (List.nodup_append.mp hnd).1
      -- the node stands outside each of its children and outside the free list
      have outside : ∀ side', i ∉ ((TTree.node i c v l m r).kid side').ids ++ F ∧
          (((TTree.node i c v l m r).kid side').ids ++ F).Nodup := by
        intro side'
        simp only [TTree.ids, List.nodup_append, List.nodup_cons, List.mem_append, List.mem_cons] at hnd
        cases side' <;> simp only [kid, List.nodup_append, List.mem_append] <;> grind
      cases k with
      | nil => simp [find?] at hfind
      | cons a k =>
          obtain ⟨hpar, hdown⟩ := hpath
          simp only [find?] at hfind
          simp only [erase?] at herase
          simp only [HangsOn]
          by_cases h1 : a < c
          · simp only [if_pos h1] at hfind herase hdown ⊢
            obtain ⟨q, hq⟩ := erase?_of_find? hfind
            have hlne : l ≠ .nil := by rintro rfl; simp [find?] at hfind
            obtain rfl : prune (.node i c v q m r) = t' := by simpa [hq] using herase
            have below := ihl (a :: k) .left rl hf h0 (outside .left).2 (h.held .left hndt hlne)
              (fun _ => (outside .left).1) hdown hfind hq
            obtain ⟨db', F', e, hpars, hclimb⟩ := climb_erase_up .left h hnd held hp hpar below
            exact ⟨db', F', e, fun hno => hpars ⟨fun hh => hno (Or.inl hh),
              fun hh => hno (Or.inr ⟨q, hq, hh⟩)⟩, hclimb⟩
          · by_cases h2 : c < a
            · simp only [if_neg h1, if_pos h2] at hfind herase hdown ⊢
              obtain ⟨q, hq⟩ := erase?_of_find? hfind
              have hrne : r ≠ .nil := by rintro rfl; simp [find?] at hfind
              obtain rfl : prune (.node i c v l m q) = t' := by simpa [hq] using herase
              have below := ihr (a :: k) .right rr hf h0 (outside .right).2 (h.held .right hndt hrne)
                (fun _ => (outside .right).1) hdown hfind hq
              obtain ⟨db', F', e, hpars, hclimb⟩ := climb_erase_up .right h hnd held hp hpar below
              exact ⟨db', F', e, fun hno => hpars ⟨fun hh => hno (Or.inl hh),
                fun hh => hno (Or.inr ⟨q, hq, hh⟩)⟩, hclimb⟩
            · by_cases h3 : k = []
              · simp only [if_neg h1, if_neg h2, if_pos h3, Option.some.injEq] at hfind herase ⊢
                subst hfind herase
                have htop := hp
                have hnd' := hnd
                simp only [TTree.ids, List.nodup_append, List.nodup_cons, List.mem_append, List.mem_cons,
                  not_or] at hnd' htop
                have hpi : p ≠ 0 → p ≠ i := fun h0 e => (htop h0).1.1 e
                have held₀ : Held (db.set i { db.data i with value := 0 }) p side i :=
                  ⟨held.top, fun h0 => by rw [TstDb.set_data_other _ _ (hpi h0)]; exact held.link h0,
                    fun h0 => by rw [TstDb.set_data_other _ _ (hpi h0)]; exact held.only h0⟩
                obtain ⟨db', F', e, hpars, hclimb⟩ := @climb_prune (db.set i { db.data i with value := 0 }) F
                  (.node i c 0 l m r) p side (by simp)
                  ⟨⟨hi, by simp [hc, hl, hm, hr]⟩, rl.update (by grind) _, rm.update (by grind) _,
                    rr.update (by grind) _⟩
                  (hf.update (by grind) _) (by rw [TstDb.set_data_other _ _ (Ne.symm hi)]; exact h0) hnd held₀
                  (by simp [hpar]) hp
                refine ⟨db', F', ⟨e.rep, e.free, e.perm, e.sub, e.top, fun h0 => ?_, e.size, e.null,
                  fun j hj hjp hj0 => ?_⟩, fun hno hpt => hpars hno ?_, hclimb⟩
                · rw [e.link h0, TstDb.set_data_other _ _ (hpi h0)]
                · rw [e.frame j hj hjp hj0, TstDb.set_data_other]
                  exact fun e' : j = i => hj (by simp [TTree.ids, e'])
                · obtain ⟨-, pl, pm, pr⟩ := hpt
                  exact ⟨by simp [hpar], pl.update (by grind) _, pm.update (by grind) _,
                    pr.update (by grind) _⟩
              · simp only [if_neg h1, if_neg h2, if_neg h3] at hfind herase hdown ⊢
                obtain ⟨q, hq⟩ := erase?_of_find? hfind
                have hmne : m ≠ .nil := by rintro rfl; simp [find?] at hfind
                obtain rfl : prune (.node i c v l q r) = t' := by simpa [hq] using herase
                have below := ihm k .mid rm hf h0 (outside .mid).2 (h.held .mid hndt hmne)
                  (fun _ => (outside .mid).1) hdown hfind hq
                obtain ⟨db', F', e, hpars, hclimb⟩ := climb_erase_up .mid h hnd held hp hpar below
                exact ⟨db', F', e, fun hno => hpars ⟨fun hh => hno (Or.inl hh),
                  fun hh => hno (Or.inr ⟨q, hq, hh⟩)⟩, hclimb⟩

/-! ## `tst_delete` -/

/-- On an arena whose `parent` fields are right along the key's path, `tst_delete`
terminates and erases the key; a key whose path is not there changes nothing. -/
theorem Arena.delete {db : TstDb} {t : Tree} {F : List Nat} (h : Arena db t F) {key : List UInt8}
    (hk : key ≠ []) (hpath : PathLinked db.data 0 t (letters key)) :
    ∃ db' F', Settles (fun n => tstDelete n db key) db' ∧ Arena db' (t.erase (letters key)) F' ∧
      db'.size = db.size ∧
      (¬ t.HangsOn (letters key) → Parents db.data 0 t → Parents db'.data 0 (t.erase (letters key))) ∧
      (∀ j ∈ (t.erase (letters key)).ids, j ∈ t.ids) ∧ (t.find? (letters key) = none → db' = db) := by
  have hlen : 0 < key.length := List.length_pos_iff.mpr hk
  have hs := searchLoop_settles key t 0 h.rep hlen
  rw [List.drop_zero] at hs
  have hdel : ∀ n, tstDelete n db key = (searchLoop n db key t.root 0).bind fun node =>
      climb n (if node = 0 then db else db.set node { db.data node with value := 0 }) node := fun n => by
    simp only [tstDelete, if_neg (Nat.ne_of_gt hlen), h.root]
  have hstop : ∀ db : TstDb, Settles (fun n => climb n db 0) db := fun db =>
    Settles.succ (f := fun _ => some db) (fun n => by rw [climb, if_pos rfl]) (settles_const db)
  cases hf : t.find? (letters key) with
  | none =>
      have herase : t.erase? (letters key) = none := by
        rw [← Option.not_isSome_iff_eq_none, isSome_erase?, hf]
        simp
      rw [hf, Option.getD_none] at hs
      rw [erase, herase, Option.getD_none]
      refine ⟨db, F, ?_, h, rfl, fun _ => id, fun _ => id, fun _ => rfl⟩
      exact (hs.bind (g := fun n node => climb n (if node = 0 then db else
        db.set node { db.data node with value := 0 }) node) (by simpa using hstop db)).congr hdel
  | some x =>
      obtain ⟨t', ht'⟩ := erase?_of_find? hf
      have hx0 : x ≠ 0 := h.rep.ids_ne_zero x (h.rep.value_of_find? hf).2
      rw [hf, Option.getD_some] at hs
      have hheld : Held db 0 .mid t.root := ⟨fun _ => h.root, fun h0 => absurd rfl h0, fun h0 => absurd rfl h0⟩
      obtain ⟨db', F', e, hpars, hclimb⟩ := climb_erase t (letters key) .mid h.rep h.free h.null h.nodup hheld
        (fun h0 => absurd rfl h0) hpath hf ht'
      rw [erase, ht', Option.getD_some]
      refine ⟨db', F', ?_, ⟨e.top, e.rep, Ordered.erase? t _ h.ordered ht', e.free, ?_, e.null⟩, e.size, hpars,
        e.sub, fun hn => by cases hn⟩
      · refine (hs.bind (g := fun n node => climb n (if node = 0 then db else
          db.set node { db.data node with value := 0 }) node) ?_).congr hdel
        simpa only [if_neg hx0] using hclimb db' (hstop db')
      · rw [e.size]
        exact e.perm.trans h.cover

end Tstdb
