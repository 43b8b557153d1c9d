/-
# `Tstdb.Tst.Put` — `tst_put` stores a key in the tree the arena holds

`insert` walks down the siblings, appends the missing suffix of the key as fresh
nodes and rewrites one link and one parent on every node it passed.  The node
positions it takes are known beforehand: `supply F size n` is what the next `n`
calls of `new_node` return, the free list first and positions past `size` after
it.  So the effect on the tree is `TTree.put` with its names taken from there,
and `Inserted` says what else changes: nothing outside the new tree.
-/
import Mathlib
import Tstdb.Lib.Fuel
import Tstdb.Lib.TernaryTree
import Tstdb.Tst.Arena
import Tstdb.Tst.Shape

namespace Tstdb

open Fuel TTree

/-! ## What `new_node` hands out -/

/-- The positions the next `n` calls of `new_node` return. -/
def supply (F : List Nat) (size n : Nat) : List Nat :=
  F.take n ++ List.range' (size + 1) (n - F.length)

@[simp] theorem length_supply (F : List Nat) (size n : Nat) : (supply F size n).length = n := by
  simp only [supply, List.length_append, List.length_take, List.length_range']
  omega

theorem mem_supply {F : List Nat} {size n j : Nat} (h : j ∈ supply F size n) : j ∈ F ∨ size < j := by
  simp only [supply, List.mem_append, List.mem_range'_1] at h
  rcases h with h | h
  · exact Or.inl (List.mem_of_mem_take h)
  · exact Or.inr (by omega)

/-- What was free or fresh is now either handed out or still free. -/
theorem supply_perm (F : List Nat) (size n : Nat) :
    (supply F size n ++ F.drop n).Perm (F ++ List.range' (size + 1) (n - F.length)) := by
  have h : (F.take n ++ List.range' (size + 1) (n - F.length) ++ F.drop n).Perm
      (F.take n ++ F.drop n ++ List.range' (size + 1) (n - F.length)) := by
    simp only [List.append_assoc]
    exact List.Perm.append_left _ List.perm_append_comm
  simpa only [supply, List.take_append_drop] using h

theorem take_supply {F : List Nat} {size k n : Nat} (h : k ≤ n) :
    (supply F size n).take k = supply F size k := by
  have hr : (List.range' (size + 1) (n - F.length)).take (k - min n F.length)
      = List.range' (size + 1) (k - F.length) := by
    refine List.ext_getElem ?_ (by simp)
    simp only [List.length_take, List.length_range']
    omega
  simp only [supply, List.take_append, List.take_take, List.length_take, Nat.min_eq_left h, hr]

/-- One call of `new_node`: it returns the head of the supply and clears that cell. -/
theorem newNode_spec {db : TstDb} {F : List Nat} (hf : FreeList db.data db.fHead F)
    (hroom : db.size + (1 - F.length) < UINT32) :
    ∃ x db', newNode db = (x, db') ∧
      (∀ n, supply F db.size (n + 1) = x :: supply (F.drop 1) db'.size n) ∧ x ≠ 0 ∧
      db'.data = Function.update db.data x TstNode.zero ∧ db'.root = db.root ∧
      db'.size = db.size + (1 - F.length) ∧ FreeList db.data db'.fHead (F.drop 1) := by
  cases F with
  | nil =>
      have h0 : db.fHead = 0 := hf
      refine ⟨db.size + 1, { (ensureEnoughSpace db).set (db.size + 1) TstNode.zero with
          size := db.size + 1 }, ?_, fun n => ?_, Nat.succ_ne_zero _, ?_, ?_, rfl, ?_⟩
      · rw [newNode, if_pos h0]
        simp only [ensureEnoughSpace_size, u32_of_lt (show db.size + 1 < UINT32 from hroom)]
      · simp [supply, List.range'_succ]
      · simp [TstDb.set]
      · exact ensureEnoughSpace_root db
      · exact (ensureEnoughSpace_fHead db).trans h0
  | cons f F =>
      obtain ⟨hh, hi, hF⟩ := hf
      have hne : db.fHead ≠ 0 := hh ▸ hi
      refine ⟨f, { db.set f TstNode.zero with fHead := (db.data f).mid }, ?_, fun n => ?_, hi, rfl, rfl,
        ?_, hF⟩
      · rw [newNode, if_neg hne]
        simp only [hh]
      · simp [supply]
      · simp

/-! ## What an insertion changes -/

/-- The effect of inserting below a link: the subtree `t` became `t'`, whose top
node names `p` as its parent; `used` positions were taken; nothing else moved. -/
structure Inserted (db db' : TstDb) (F : List Nat) (t t' : Tree) (p used : Nat) : Prop where
  rep : Rep db'.data t'
  parents : ∀ q, Parents db.data q t → Parents db'.data p t'
  free : FreeList db'.data db'.fHead (F.drop used)
  size : db'.size = db.size + (used - F.length)
  root : db'.root = db.root
  frame : ∀ j, j ∉ t'.ids → db'.data j = db.data j

/-! ## One level of the recursion -/

section Level

variable {db db₁ : TstDb} {node no v d len p : Nat} {s : List UInt8}

theorem insert_left (hx : node ≠ 0) (hc : char (s.getD d 0) < char (db.data node).c)
    (h : Settles (fun n => insert n db (db.data node).left s v d len node) (no, db₁)) :
    Settles (fun n => insert n db node s v d len p)
      (node, db₁.set node { db₁.data node with left := no, parent := p }) := by
  refine Settles.succ (fun n => ?_) ((h.map fun r => (node, r.2.set node
    { r.2.data node with left := r.1, parent := p })))
  rw [insert, if_neg hx]
  simp only [if_pos hc, TstDb.set_data_same, TstDb.set_set]

theorem insert_right (hx : node ≠ 0) (hc : char (db.data node).c < char (s.getD d 0))
    (h : Settles (fun n => insert n db (db.data node).right s v d len node) (no, db₁)) :
    Settles (fun n => insert n db node s v d len p)
      (node, db₁.set node { db₁.data node with right := no, parent := p }) := by
  refine Settles.succ (fun n => ?_) ((h.map fun r => (node, r.2.set node
    { r.2.data node with right := r.1, parent := p })))
  rw [insert, if_neg hx]
  simp only [if_neg (lt_asymm hc), if_pos hc, TstDb.set_data_same, TstDb.set_set]

theorem insert_mid (hx : node ≠ 0) (hc : char (s.getD d 0) = char (db.data node).c)
    (hd : d + 1 < len)
    (h : Settles (fun n => insert n db (db.data node).mid s v (d + 1) len node) (no, db₁)) :
    Settles (fun n => insert n db node s v d len p)
      (node, db₁.set node { db₁.data node with mid := no, parent := p }) := by
  refine Settles.succ (fun n => ?_) ((h.map fun r => (node, r.2.set node
    { r.2.data node with mid := r.1, parent := p })))
  rw [insert, if_neg hx]
  simp only [hc, lt_irrefl, if_false, if_pos hd, TstDb.set_data_same, TstDb.set_set]

theorem insert_here (hx : node ≠ 0) (hc : char (s.getD d 0) = char (db.data node).c)
    (hd : ¬ d + 1 < len) :
    Settles (fun n => insert n db node s v d len p)
      (node, db.set node { db.data node with value := v, parent := p }) := by
  refine Settles.succ (fun n => ?_) (settles_const _)
  rw [insert, if_neg hx]
  simp only [hc, lt_irrefl, if_false, if_neg hd, TstDb.set_data_same, TstDb.set_set]

/-- On the null link `insert` makes a node for the letter and goes on from there. -/
theorem insert_null {x : Nat} (hx : x ≠ 0) (hnew : newNode db = (x, db₁)) {r : Nat × TstDb}
    (h : Settles (fun n => insert n (db₁.set x { db₁.data x with c := s.getD d 0 }) x s v d len p) r) :
    Settles (fun n => insert n db 0 s v d len p) r := by
  obtain ⟨N, hN⟩ := h
  refine ⟨N + 1, fun n hn => ?_⟩
  obtain ⟨n, rfl⟩ : ∃ m, n = m + 1 := ⟨n - 1, by omega⟩
  rw [← hN (n + 1) (by omega)]
  simp only [insert, if_neg hx, if_true, hnew]

end Level

/-- The node `new_node` returns is neither free afterwards nor past the new `size`. -/
theorem newNode_fresh {db db₁ : TstDb} {F : List Nat} {x : Nat} (hnd : F.Nodup)
    (hle : ∀ j ∈ F, j ≤ db.size) (hsup : ∀ n, supply F db.size (n + 1) = x :: supply (F.drop 1) db₁.size n)
    (hsize : db₁.size = db.size + (1 - F.length)) : x ∉ F.drop 1 ∧ x ≤ db₁.size := by
  have hhead := congrArg List.head? (hsup 0)
  cases F with
  | nil =>
      have hx : db.size + 1 = x := by simpa [supply] using hhead
      exact ⟨by simp, by rw [hsize, ← hx]; simp⟩
  | cons f F =>
      have hx : f = x := by simpa [supply] using hhead
      refine ⟨by simpa [← hx] using (List.nodup_cons.mp hnd).1, ?_⟩
      rw [hsize, ← hx]
      exact Nat.le_add_right_of_le (hle f List.mem_cons_self)

/-- A whole missing suffix: `insert` on the null link builds a bare path. -/
theorem insert_chain (s : List UInt8) (v : Nat) : ∀ (m d M : Nat) (db : TstDb) (F : List Nat) (p : Nat),
    d + (m + 1) = s.length → m + 1 ≤ M → FreeList db.data db.fHead F → F.Nodup →
    (∀ j ∈ F, j ≤ db.size) → db.size + (m + 1 - F.length) < UINT32 →
    ∃ db', Settles (fun n => insert n db 0 s v d s.length p)
        ((chain (letters (s.drop d)) v (supply F db.size M)).root, db') ∧
      Inserted db db' F .nil (chain (letters (s.drop d)) v (supply F db.size M)) p (m + 1) := by
  intro m
  induction m with
  | zero =>
      intro d M db F p hd hM hf hnd hle hroom
      obtain ⟨M, rfl⟩ : ∃ M', M = M' + 1 := ⟨M - 1, by omega⟩
      obtain ⟨x, db₁, hnew, hsup, hx, hdata, hroot, hsize, hfree⟩ := newNode_spec hf (by omega)
      obtain ⟨hxF, -⟩ := newNode_fresh hnd hle hsup hsize
      have hnot : ¬ d + 1 < s.length := by omega
      refine ⟨db₁.set x { TstNode.zero with c := s.getD d 0, value := v, parent := p }, ?_, ?_⟩
      · rw [letters_drop (by omega), hsup M]
        refine insert_null hx hnew ?_
        have hins : Settles (fun n => insert n (db₁.set x { db₁.data x with c := s.getD d 0 }) x s v d
            s.length p) _ := insert_here hx (by simp) hnot
        simpa only [chain, root_node, TstDb.set_data_same, TstDb.set_set, hdata,
          Function.update_self] using hins
      · rw [letters_drop (by omega), letters_drop_eq_nil.mpr hnot, hsup M]
        refine ⟨?_, fun _ _ => ?_, ?_, hsize, hroot, ?_⟩
        · simp [chain, Rep, TstNode.zero, hx]
        · simp [chain, Parents]
        · rw [TstDb.set_data, hdata]
          exact (hfree.update hxF _).update hxF _
        · intro j hj
          have hjx : j ≠ x := by simpa [chain, TTree.ids] using hj
          simp [hdata, hjx]
  | succ m ih =>
      intro d M db F p hd hM hf hnd hle hroom
      obtain ⟨M, rfl⟩ : ∃ M', M = M' + 1 := ⟨M - 1, by omega⟩
      obtain ⟨x, db₁, hnew, hsup, hx, hdata, hroot, hsize, hfree⟩ := newNode_spec hf (by omega)
      obtain ⟨hxF, hxle⟩ := newNode_fresh hnd hle hsup hsize
      have hgo : d + 1 < s.length := by omega
      have hne : letters (s.drop (d + 1)) ≠ [] := fun e => letters_drop_eq_nil.mp e hgo
      -- the fresh node, cleared and given its letter
      have hd2 : (db₁.set x { db₁.data x with c := s.getD d 0 }).data
          = Function.update db.data x { TstNode.zero with c := s.getD d 0 } := by simp [hdata]
      obtain ⟨db₃, hset, ins⟩ := ih (d + 1) M (db₁.set x { db₁.data x with c := s.getD d 0 })
        (F.drop 1) x (by omega) (by omega) (by rw [hd2]; exact hfree.update hxF _)
        ((List.drop_sublist 1 F).nodup hnd)
        (fun j hj => by
          have := hle j (List.mem_of_mem_drop hj)
          show j ≤ db₁.size
          omega)
        (by show db₁.size + (m + 1 - (F.drop 1).length) < UINT32; rw [List.length_drop]; omega)
      simp only [TstDb.set_size] at hset ins
      generalize hq : chain (letters (s.drop (d + 1))) v (supply (F.drop 1) db₁.size M) = q at hset ins
      have hxq : x ∉ q.ids := by
        intro hmem
        rw [← hq, ids_chain v _ _ (by simp; omega)] at hmem
        rcases mem_supply (List.mem_of_mem_take hmem) with h | h
        · exact hxF h
        · omega
      have hcell : db₃.data x = { TstNode.zero with c := s.getD d 0 } := by
        rw [ins.frame x hxq, hd2]; simp
      refine ⟨db₃.set x { db₃.data x with mid := q.root, parent := p }, ?_, ?_⟩
      · rw [letters_drop (by omega), hsup M]
        refine insert_null hx hnew (insert_mid hx (by simp) hgo ?_)
        simpa [hdata, TstNode.zero] using hset
      · rw [letters_drop (by omega), hsup M]
        simp only [chain, if_neg hne, hq, hcell]
        refine ⟨⟨⟨hx, ?_⟩, trivial, ins.rep.update hxq _, trivial⟩, fun _ _ => ⟨?_, trivial,
          (ins.parents 0 trivial).update hxq _, trivial⟩, ?_, ?_, ins.root.trans hroot, ?_⟩
        · simp [TstNode.zero]
        · simp
        · have hsplit : F.drop (m + 1 + 1) = (F.drop 1).drop (m + 1) := by
            rw [List.drop_drop, Nat.add_comm]
          rw [hsplit]
          exact ins.free.update (fun h => hxF (List.mem_of_mem_drop h)) _
        · rw [TstDb.set_size, ins.size, TstDb.set_size, hsize, List.length_drop]
          omega
        · intro j hj
          simp only [TTree.ids, List.nil_append, List.append_nil, List.mem_cons, not_or] at hj
          rw [TstDb.set_data_other _ _ hj.1, ins.frame j hj.2, hd2, Function.update_of_ne hj.1]

/-! ## Storing below any link -/

theorem mem_ids_put {t : Tree} {k : List Int} {v M : Nat} {F : List Nat} {size j : Nat}
    (hM : k.length ≤ M) (h : j ∈ (t.put k v (supply F size M)).ids) : j ∈ t.ids ∨ j ∈ F ∨ size < j := by
  have := (ids_put v (supply F size M) t k (by simpa using hM)).mem_iff.mp h
  rcases List.mem_append.mp this with h | h
  · exact Or.inl h
  · exact Or.inr (mem_supply (List.mem_of_mem_take h))

/-- What a subtree of a node may assume of the node's other parts. -/
theorem not_mem_put {t : Tree} {k : List Int} {v M : Nat} {F : List Nat} {size : Nat} {js : List Nat}
    (hM : k.length ≤ M) (hnd : (js ++ t.ids ++ F).Nodup) (hle : ∀ j ∈ js, j ≤ size) :
    ∀ j ∈ js, j ∉ (t.put k v (supply F size M)).ids := by
  intro j hj hmem
  simp only [List.append_assoc, List.nodup_append, List.mem_append] at hnd
  rcases mem_ids_put hM hmem with h | h | h
  · exact hnd.2.2 j hj j (Or.inl h) rfl
  · exact hnd.2.2 j hj j (Or.inr h) rfl
  · exact absurd (hle j hj) (by omega)

/-- The caller of `insert` rewrites one link and the parent of the node it is at. -/
theorem Inserted.up {db db' : TstDb} {F : List Nat} {i : Nat} {c : Int} {w : Nat} {l m r q : Tree}
    (side : Side) {p used : Nat} (ins : Inserted db db' F ((TTree.node i c w l m r).kid side) q i used)
    (h : Rep db.data (.node i c w l m r)) (hnd : ((TTree.node i c w l m r).ids ++ F).Nodup)
    (hout : ∀ j ∈ (TTree.node i c w l m r).ids, j ∉ ((TTree.node i c w l m r).kid side).ids →
      j ∉ q.ids)
    (hi : i ∉ ((TTree.node i c w l m r).kid side).ids) :
    Inserted db (db'.set i { (db'.data i).withKid side q.root with parent := p }) F
      (.node i c w l m r) ((TTree.node i c w l m r).withKid side q) p used := by
  have hself : i ∈ (TTree.node i c w l m r).ids := by simp [TTree.ids]
  have hiq : i ∉ q.ids := hout i hself hi
  have hcell : db'.data i = db.data i := ins.frame i hiq
  have hkeep : ∀ j ∈ (TTree.node i c w l m r).ids, j ≠ i →
      j ∉ ((TTree.node i c w l m r).kid side).ids →
      (db'.set i { (db'.data i).withKid side q.root with parent := p }).data j = db.data j :=
    fun j hj hji hjk => by rw [TstDb.set_data_other _ _ hji, ins.frame j (hout j hj hjk)]
  refine ⟨?_, fun p₀ hp => ?_, ?_, ins.size, ins.root, fun j hj => ?_⟩
  · refine h.withKid (ins.rep.update hiq _) ?_ hkeep (List.nodup_append.mp hnd).1
    rw [TstDb.set_data_same, hcell]
    rfl
  · refine hp.withKid ((ins.parents i ?_).update hiq _) (by simp) hkeep (List.nodup_append.mp hnd).1
    cases side
    · exact hp.2.1
    · exact hp.2.2.1
    · exact hp.2.2.2
  · exact ins.free.update (fun hF => (List.nodup_append.mp hnd).2.2 i hself i
      (List.mem_of_mem_drop hF) rfl) _
  · have hji : j ≠ i := fun e => hj (mem_ids_withKid (Or.inl e))
    rw [TstDb.set_data_other _ _ hji, ins.frame j fun hq => hj (mem_ids_withKid (Or.inr hq))]

/-- `insert` below any link stores the rest of the key in the tree that hangs there. -/
theorem insert_spec (s : List UInt8) (v : Nat) : ∀ (t : Tree) (d M : Nat) (db : TstDb) (F : List Nat)
    (p : Nat), d < s.length → s.length ≤ M → Rep db.data t → FreeList db.data db.fHead F →
    (t.ids ++ F).Nodup → (∀ j ∈ t.ids ++ F, j ≤ db.size) →
    db.size + (t.missing (letters (s.drop d)) - F.length) < UINT32 →
    ∃ db', Settles (fun n => insert n db t.root s v d s.length p)
        ((t.put (letters (s.drop d)) v (supply F db.size M)).root, db') ∧
      Inserted db db' F t (t.put (letters (s.drop d)) v (supply F db.size M)) p
        (t.missing (letters (s.drop d))) := by
  intro t
  induction t with
  | nil =>
      intro d M db F p hd hM _ hf hnd hle hroom
      obtain ⟨m, hm⟩ : ∃ m, d + (m + 1) = s.length := ⟨s.length - d - 1, by omega⟩
      have hmiss : (letters (s.drop d)).length = m + 1 := by simp; omega
      obtain ⟨db', h1, h2⟩ := insert_chain s v m d M db F p hm (by omega) hf hnd hle
        (by rw [← hmiss]; exact hroom)
      exact ⟨db', h1, by simpa only [missing, put, hmiss] using h2⟩
  | node i c w l m r ihl ihm ihr =>
      intro d M db F p hd hM h hf hnd hle hroom
      obtain ⟨⟨hi, hc, hv, hl, hm, hr⟩, rl, rm, rr⟩ := id h
      have hlenM : ∀ e, (letters (s.drop e)).length ≤ M := fun e => by simp; omega
      -- a subtree and the rest of the node
      have sub : ∀ (q : Tree), (∀ j ∈ q.ids, j ∈ l.ids ∨ j ∈ m.ids ∨ j ∈ r.ids) →
          ∀ j ∈ q.ids ++ F, j ≤ db.size := by
        intro q hq j hj
        refine hle j ?_
        simp only [TTree.ids, List.mem_append, List.mem_cons] at hj ⊢
        rcases hj with hj | hj
        · rcases hq j hj with h | h | h <;> simp [h]
        · exact Or.inr hj
      have hnd' := hnd
      simp only [TTree.ids, List.nodup_append, List.nodup_cons, List.mem_append, List.mem_cons] at hnd'
      have out : ∀ (q : Tree) (e : Nat), (q.ids ++ F).Nodup →
          ∀ j ∈ (TTree.node i c w l m r).ids, j ∉ q.ids →
            j ∉ (q.put (letters (s.drop e)) v (supply F db.size M)).ids := by
        intro q e hq j hj hjq hmem
        rcases mem_ids_put (hlenM e) hmem with h | h | h
        · exact hjq h
        · exact (List.nodup_append.mp hnd).2.2 j hj j h rfl
        · exact absurd (hle j (List.mem_append_left _ hj)) (by omega)
      have ndl : (l.ids ++ F).Nodup := by
        simp only [List.nodup_append]; grind
      have ndm : (m.ids ++ F).Nodup := by
        simp only [List.nodup_append]; grind
      have ndr : (r.ids ++ F).Nodup := by
        simp only [List.nodup_append]; grind
      rw [letters_drop hd] at hroom ⊢
      simp only [put, missing, root_node] at hroom ⊢
      by_cases h1 : char (s.getD d 0) < c
      · simp only [if_pos h1, root_node] at hroom ⊢
        rw [← letters_drop hd] at hroom ⊢
        obtain ⟨db', hset, ins⟩ := ihl d M db F i hd hM rl hf ndl (sub l fun j => Or.inl) hroom
        exact ⟨_, insert_left hi (hc ▸ h1) (by rw [hl]; exact hset),
          ins.up .left h hnd (out l d ndl) (by simp only [kid]; grind)⟩
      · by_cases h2 : c < char (s.getD d 0)
        · simp only [if_neg h1, if_pos h2, root_node] at hroom ⊢
          rw [← letters_drop hd] at hroom ⊢
          obtain ⟨db', hset, ins⟩ := ihr d M db F i hd hM rr hf ndr
            (sub r fun j hj => Or.inr (Or.inr hj)) hroom
          exact ⟨_, insert_right hi (hc ▸ h2) (by rw [hr]; exact hset),
            ins.up .right h hnd (out r d ndr) (by simp only [kid]; grind)⟩
        · have heq : char (s.getD d 0) = (char (db.data i).c) := by rw [hc]; omega
          by_cases h3 : d + 1 < s.length
          · have h3' : letters (s.drop (d + 1)) ≠ [] := fun e => letters_drop_eq_nil.mp e h3
            simp only [if_neg h1, if_neg h2, if_neg h3', root_node] at hroom ⊢
            obtain ⟨db', hset, ins⟩ := ihm (d + 1) M db F i h3 hM rm hf ndm
              (sub m fun j hj => Or.inr (Or.inl hj)) hroom
            exact ⟨_, insert_mid hi heq h3 (by rw [hm]; exact hset),
              ins.up .mid h hnd (out m (d + 1) ndm) (by simp only [kid]; grind)⟩
          · simp only [if_neg h1, if_neg h2, if_pos (letters_drop_eq_nil.mpr h3), root_node]
            refine ⟨_, insert_here hi heq h3, ?_, fun q hq => ?_, ?_, by simp, rfl, fun j hj => ?_⟩
            · refine ⟨⟨hi, ?_⟩, rl.update (by grind) _, rm.update (by grind) _, rr.update (by grind) _⟩
              simp [hc, hl, hm, hr]
            · obtain ⟨-, pl, pm, pr⟩ := hq
              exact ⟨by simp, pl.update (by grind) _, pm.update (by grind) _, pr.update (by grind) _⟩
            · simpa using hf.update (fun hF => (List.nodup_append.mp hnd).2.2 i (by simp [TTree.ids]) i
                hF rfl) _
            · have hji : j ≠ i := fun e => hj (by simp [TTree.ids, e])
              exact TstDb.set_data_other _ _ hji

/-! ## `tst_put` -/

theorem put_cover {t : Tree} {F : List Nat} {size M v : Nat} {k : List Int} (hM : k.length ≤ M)
    (h : (t.ids ++ F).Perm (List.range' 1 size)) :
    ((t.put k v (supply F size M)).ids ++ F.drop (t.missing k)).Perm
      (List.range' 1 (size + (t.missing k - F.length))) := by
  have hused : t.missing k ≤ M := le_trans (missing_le t k) hM
  have hids := ids_put v (supply F size M) t k (by simpa using hM)
  rw [take_supply hused] at hids
  refine (hids.append_right _).trans ?_
  rw [List.append_assoc]
  refine (List.Perm.append_left _ (supply_perm F size (t.missing k))).trans ?_
  rw [← List.append_assoc]
  refine (h.append_right _).trans ?_
  rw [Nat.add_comm size 1, List.range'_append_1]

/-- Room for the whole key is room for what is missing of it. -/
theorem Arena.put_room {size : Nat} {key : List UInt8} (t : Tree) (F : List Nat)
    (h : size + key.length < UINT32) : size + (t.missing (letters key) - F.length) < UINT32 := by
  have hle := missing_le t (letters key)
  rw [length_letters] at hle
  omega

/-- `tst_put` on a tree in an arena whose node `0` holds anything: it terminates and
stores the key, taking free positions first, and leaves node `0` alone. -/
theorem tstPut_stores {db : TstDb} {t : Tree} {F : List Nat} (hroot : db.root = t.root) (hrep : Rep db.data t)
    (hfree : FreeList db.data db.fHead F) (hcover : (t.ids ++ F).Perm (List.range' 1 db.size)) {key : List UInt8}
    (hk : key ≠ []) (v : Nat) (hroom : db.size + (t.missing (letters key) - F.length) < UINT32) :
    ∃ db', Settles (fun n => tstPut n db key v) db' ∧
      db'.root = (t.put (letters key) v (supply F db.size key.length)).root ∧
      Rep db'.data (t.put (letters key) v (supply F db.size key.length)) ∧
      FreeList db'.data db'.fHead (F.drop (t.missing (letters key))) ∧
      ((t.put (letters key) v (supply F db.size key.length)).ids ++ F.drop (t.missing (letters key))).Perm
        (List.range' 1 db'.size) ∧
      db'.size = db.size + (t.missing (letters key) - F.length) ∧
      (Parents db.data 0 t → Parents db'.data 0 (t.put (letters key) v (supply F db.size key.length))) ∧
      db'.data 0 = db.data 0 := by
  have hlen : 0 < key.length := List.length_pos_iff.mpr hk
  have hle : ∀ j ∈ t.ids ++ F, j ≤ db.size := by
    intro j hj
    have := hcover.mem_iff.mp hj
    simp only [List.mem_range'_1] at this
    omega
  obtain ⟨db', hset, ins⟩ := insert_spec key v t 0 key.length db F 0 hlen le_rfl hrep hfree
    (hcover.nodup_iff.mpr List.nodup_range') hle (by rw [List.drop_zero]; exact hroom)
  rw [List.drop_zero] at hset ins
  refine ⟨{ db' with root := _ }, ?_, rfl, ins.rep, ins.free, ?_, ins.size, ins.parents 0,
    ins.frame 0 fun h0 => ins.rep.ids_ne_zero 0 h0 rfl⟩
  · refine (hset.map fun r => { r.2 with root := r.1 }).congr fun n => ?_
    simp only [tstPut, if_neg (Nat.ne_of_gt hlen), hroot]
  · show List.Perm _ (List.range' 1 db'.size)
    rw [ins.size]
    exact put_cover (by simp) hcover

/-- The same for the whole representation. -/
theorem Arena.put {db : TstDb} {t : Tree} {F : List Nat} (h : Arena db t F) {key : List UInt8}
    (hk : key ≠ []) (v : Nat) (hroom : db.size + (t.missing (letters key) - F.length) < UINT32) :
    ∃ db', Settles (fun n => tstPut n db key v) db' ∧
      Arena db' (t.put (letters key) v (supply F db.size key.length))
        (F.drop (t.missing (letters key))) ∧
      db'.size = db.size + (t.missing (letters key) - F.length) ∧
      (Parents db.data 0 t →
        Parents db'.data 0 (t.put (letters key) v (supply F db.size key.length))) := by
  obtain ⟨db', hset, hroot, hrep, hfree, hcover, hsize, hpar, hnull⟩ :=
    tstPut_stores h.root h.rep h.free h.cover hk v hroom
  exact ⟨db', hset, ⟨hroot, hrep, h.ordered.put v _ t _, hfree, hcover, by rw [hnull, h.null]⟩, hsize, hpar⟩

end Tstdb
