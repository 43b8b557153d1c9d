/-
# `Tstdb.Tst.Runs` — the index over whole runs of `tst_put` and `tst_delete`

From an empty database every run of puts and deletes keeps the arena a
representation of the map the operations spell out, as long as no delete climbs
along a `parent` field that is out of date (`Linked`).  Such fields come from one
place: `remove_node` hanging the right siblings of the removed node under its left
ones.  A run in which no delete does that (`NoMerge`) keeps all of them right.
Both conditions are needed; the runs after the theorems show what happens without.
-/
import Mathlib
import Tstdb.Lib.Fuel
import Tstdb.Lib.Runs
import Tstdb.Lib.TernaryTree
import Tstdb.Tst.Arena
import Tstdb.Tst.Shape
import Tstdb.Tst.Put
import Tstdb.Tst.Delete

namespace Tstdb

open Fuel TTree Runs

/-! ## Operations -/

/-- A key as the callers hand it in: a non-empty C string. -/
structure Key where
  bytes : List UInt8
  ne : bytes ≠ []
  nul : 0 ∉ bytes
deriving DecidableEq

theorem Key.ext {k k' : Key} (h : k.bytes = k'.bytes) : k = k' := by
  cases k; cases k'; cases h; rfl

theorem Key.letters_ne_nil (k : Key) : letters k.bytes ≠ [] := fun h => k.ne (letters_eq_nil.mp h)

inductive TstOp where
  | put (key : Key) (value : Nat) (pos : 0 < value)
  | delete (key : Key)
deriving DecidableEq

def TstOp.exec (fuel : Nat) (db : TstDb) : TstOp → Option TstDb
  | .put key value _ => tstPut fuel db key.bytes value
  | .delete key => tstDelete fuel db key.bytes

/-- The call terminates and leaves the second database. -/
def TstOp.Step (db : TstDb) (op : TstOp) (db' : TstDb) : Prop := Settles (fun n => op.exec n db) db'

theorem TstOp.exec_mono (db : TstDb) (op : TstOp) : Mono fun n => op.exec n db := by
  cases op with
  | put key value pos => exact tstPut_mono db key.bytes value
  | delete key => exact tstDelete_mono db key.bytes

theorem TstOp.Step.unique {db db₁ db₂ : TstDb} {op : TstOp} (h₁ : op.Step db db₁) (h₂ : op.Step db db₂) :
    db₁ = db₂ := Settles.unique h₁ h₂

/-- What the operation does to a map from keys to values. -/
def TstOp.update (m : Key → Nat) : TstOp → Key → Nat
  | .put key value _ => Function.update m key value
  | .delete key => Function.update m key 0

/-- The value of the last put of the key that no delete of the key follows, `0`
without one. -/
def stored (ops : List TstOp) : Key → Nat := ops.foldl TstOp.update fun _ => 0

theorem stored_concat_same (ops : List TstOp) (key : Key) (value : Nat) (pos : 0 < value) :
    stored (ops ++ [.put key value pos]) key = value := by
  simp [stored, TstOp.update]

theorem stored_concat_delete (ops : List TstOp) (key : Key) : stored (ops ++ [.delete key]) key = 0 := by
  simp [stored, TstOp.update]

theorem stored_concat_other (ops : List TstOp) (op : TstOp) (key : Key)
    (h : ∀ v pos, op ≠ .put key v pos) (h' : op ≠ .delete key) :
    stored (ops ++ [op]) key = stored ops key := by
  cases op with
  | put k v pos =>
      have hk : key ≠ k := fun e => h v pos (by rw [e])
      simp [stored, TstOp.update, hk]
  | delete k =>
      have hk : key ≠ k := fun e => h' (by rw [e])
      simp [stored, TstOp.update, hk]

/-! ## The conditions on a step -/

/-- The last capacity that doubling `409600` reaches inside a `uint32`; one more
doubling wraps. -/
def ARENA_LIMIT : Nat := 3355443200

/-- The nodes the call may need are still below the limit. -/
def TstOp.Room (db : TstDb) : TstOp → Prop
  | .put key _ _ => db.size + key.bytes.length < ARENA_LIMIT
  | .delete _ => True

instance (db : TstDb) (op : TstOp) : Decidable (op.Room db) := by
  cases op <;> unfold TstOp.Room <;> infer_instance

/-- Follow the search for a key and compare each `parent` field on the way with the
node whose link led there. -/
def parentsOnPath : Nat → TstDb → List UInt8 → Nat → Nat → Nat → Option Bool
  | 0, _, _, _, _, _ => none
  | fuel + 1, db, key, holder, x, d =>
      if x = 0 then some true
      else if (db.data x).parent ≠ holder then some false
      else
        let c := key.getD d 0
        if char c < char (db.data x).c then parentsOnPath fuel db key x (db.data x).left d
        else if char (db.data x).c < char c then
          parentsOnPath fuel db key x (db.data x).right d
        else if d + 1 < key.length then parentsOnPath fuel db key x (db.data x).mid (d + 1)
        else some true

/-- A delete starts with right `parent` fields along its key's search path. -/
def TstOp.Linked (db : TstDb) : TstOp → Prop
  | .put _ _ _ => True
  | .delete key => Settles (fun n => parentsOnPath n db key.bytes 0 db.root 0) true

/-- A delete removes no node that has both a left and a right child. -/
def TstOp.NoMerge (db : TstDb) : TstOp → Prop
  | .put _ _ _ => True
  | .delete key => ∀ t F, Arena db t F → ¬ t.HangsOn (letters key.bytes)

theorem parentsOnPath_mono (db : TstDb) (key : List UInt8) : ∀ (n holder node d : Nat) (b : Bool),
    parentsOnPath n db key holder node d = some b →
    parentsOnPath (n + 1) db key holder node d = some b := by
  intro n
  induction n with
  | zero => intro holder node d b h; simp [parentsOnPath] at h
  | succ n ih =>
      intro holder node d b h
      rw [parentsOnPath] at h ⊢
      dsimp only at h ⊢
      split_ifs at h ⊢
      all_goals first
        | exact h
        | exact ih _ _ _ _ h

/-- On the cells of a tree the check decides `PathLinked`. -/
theorem parentsOnPath_spec {db : TstDb} (key : List UInt8) : ∀ (t : Tree) (p d : Nat), Rep db.data t →
    d < key.length → Settles (fun n => parentsOnPath n db key p t.root d) true →
    PathLinked db.data p t (letters (key.drop d)) := by
  intro t
  induction t with
  | nil => intro p d _ _ _; trivial
  | node i c v l m r ihl ihm ihr =>
      intro p d h hd hset
      obtain ⟨⟨hi, hc, _, hl, hm, hr⟩, rl, rm, rr⟩ := h
      rw [root_node] at hset
      have hp : (db.data i).parent = p := by
        by_contra hne
        obtain ⟨N, hN⟩ := hset
        have hN' : parentsOnPath (N + 1) db key p i d = some true := hN _ (Nat.le_succ N)
        rw [parentsOnPath, if_neg hi, if_pos hne] at hN'
        simp at hN'
      have unfold_step : ∀ n, parentsOnPath (n + 1) db key p i d =
          if char (key.getD d 0) < c then parentsOnPath n db key i l.root d
          else if c < char (key.getD d 0) then parentsOnPath n db key i r.root d
          else if d + 1 < key.length then parentsOnPath n db key i m.root (d + 1)
          else some true := fun n => by
        rw [parentsOnPath, if_neg hi, if_neg (not_not.mpr hp)]
        simp only [hc, hl, hm, hr]
      have hset' := Settles.pred unfold_step hset
      rw [letters_drop hd]
      refine ⟨hp, ?_⟩
      by_cases h1 : char (key.getD d 0) < c
      · simp only [if_pos h1] at hset' ⊢
        rw [← letters_drop hd]
        exact ihl i d rl hd hset'
      · by_cases h2 : c < char (key.getD d 0)
        · simp only [if_neg h1, if_pos h2] at hset' ⊢
          rw [← letters_drop hd]
          exact ihr i d rr hd hset'
        · by_cases h3 : d + 1 < key.length
          · have h3' : letters (key.drop (d + 1)) ≠ [] := fun e => letters_drop_eq_nil.mp e h3
            simp only [if_neg h1, if_neg h2, if_pos h3, if_neg h3'] at hset' ⊢
            exact ihm i (d + 1) rm h3 hset'
          · simp only [if_neg h1, if_neg h2, if_pos (letters_drop_eq_nil.mpr h3)]

/-- Carry out the operations on this much fuel, checking the state before each. -/
def TstOp.runChecked (fuel : Nat) (check : TstDb → TstOp → Bool) : TstDb → List TstOp → Option TstDb :=
  Runs.runChecked (fun db op => op.exec fuel db) check

theorem TstOp.runChecked_spec {fuel : Nat} {check : TstDb → TstOp → Bool} {P : TstDb → TstOp → Prop}
    (hP : ∀ db op, check db op = true → P db op) {ops : List TstOp} {db db' : TstDb}
    (h : TstOp.runChecked fuel check db ops = some db') :
    Run TstOp.Step db ops db' ∧ Meets TstOp.Step P db ops := by
  have hrun : Run (Guarded TstOp.Step P) db ops db' :=
    Runs.runChecked_spec (fun db op _ hs => (TstOp.exec_mono db op).settles hs) hP h
  exact ⟨hrun.unguard, hrun.meets fun _ _ _ _ h₁ h₂ => h₁.unique h₂⟩

/-! ## One step -/

/-- The arena represents the map. -/
def Represents (db : TstDb) (m : Key → Nat) : Prop :=
  ∃ t F, Arena db t F ∧ ∀ key : Key, t.lookup (letters key.bytes) = m key

theorem Arena.create (mem : Nat → TstNode) (h0 : (createTstDb mem).data 0 = TstNode.zero) :
    Arena (createTstDb mem) .nil [] :=
  ⟨rfl, trivial, trivial, rfl, List.Perm.refl _, by rw [h0]; rfl⟩

theorem lookup_put_update (t : Tree) (m : Key → Nat) (h : ∀ key : Key, t.lookup (letters key.bytes) = m key)
    (key : Key) (v : Nat) {is : List Nat} (hl : key.bytes.length ≤ is.length) (key' : Key) :
    (t.put (letters key.bytes) v is).lookup (letters key'.bytes) = Function.update m key v key' := by
  by_cases hk : key' = key
  · subst hk
    rw [lookup_put_same v is t _ key'.letters_ne_nil (by simpa using hl), Function.update_self]
  · have hne : letters key'.bytes ≠ letters key.bytes := fun e => hk (Key.ext (letters_inj.mp e))
    rw [lookup_put_other v is t _ _ hne, Function.update_of_ne hk, h]

theorem lookup_erase_update {t : Tree} (m : Key → Nat) (ho : t.Ordered)
    (h : ∀ key : Key, t.lookup (letters key.bytes) = m key) (key key' : Key) :
    (t.erase (letters key.bytes)).lookup (letters key'.bytes) = Function.update m key 0 key' := by
  rw [lookup_erase ho _ key'.letters_ne_nil]
  by_cases hk : key' = key
  · rw [if_pos (by rw [hk]), hk, Function.update_self]
  · have hne : letters key'.bytes ≠ letters key.bytes := fun e => hk (Key.ext (letters_inj.mp e))
    rw [if_neg hne, Function.update_of_ne hk, h]

/-- A step that has room and right links terminates and updates the map. -/
theorem Represents.step {db : TstDb} {m : Key → Nat} {op : TstOp} (h : Represents db m) (hroom : op.Room db)
    (hlink : op.Linked db) : ∃ db', op.Step db db' ∧ Represents db' (op.update m) := by
  obtain ⟨t, F, ha, hm⟩ := h
  cases op with
  | put key v pos =>
      have hlt : db.size + key.bytes.length < UINT32 := lt_trans hroom (by decide)
      obtain ⟨db', hset, ha', -, -⟩ := ha.put key.ne v (Arena.put_room t F hlt)
      exact ⟨db', hset, _, _, ha', lookup_put_update t m hm key v (by simp)⟩
  | delete key =>
      have hpath := parentsOnPath_spec key.bytes t 0 0 ha.rep (List.length_pos_iff.mpr key.ne)
        (by rw [← ha.root]; exact hlink)
      rw [List.drop_zero] at hpath
      obtain ⟨db', F', hset, ha', -, -⟩ := ha.delete key.ne hpath
      exact ⟨db', hset, _, _, ha', lookup_erase_update m ha.ordered hm key⟩

theorem Represents.create (mem : Nat → TstNode) (h0 : (createTstDb mem).data 0 = TstNode.zero) :
    Represents (createTstDb mem) fun _ => 0 :=
  ⟨.nil, [], Arena.create mem h0, fun _ => lookup_nil _⟩

/-- The index is a map over whole runs, as long as no delete meets a stale `parent`
field on its key's path. -/
theorem tst_run_is_map (mem : Nat → TstNode) (h0 : (createTstDb mem).data 0 = TstNode.zero)
    (ops : List TstOp) (hroom : Meets TstOp.Step (fun db op => op.Room db) (createTstDb mem) ops)
    (hlink : Meets TstOp.Step (fun db op => op.Linked db) (createTstDb mem) ops) :
    ∃ db, Run TstOp.Step (createTstDb mem) ops db ∧
      ∀ key : Key, Settles (fun n => tstGet n db key.bytes) (stored ops key) := by
  obtain ⟨db, hrun, t, F, ha, hm⟩ := Meets.simulates (R := Represents) TstOp.update
    (fun _ _ _ hR hP => hR.step hP.1 hP.2) ops _ _ (Represents.create mem h0) (hroom.and hlink)
  refine ⟨db, hrun, fun key => ?_⟩
  have hget := ha.get key.ne
  rwa [hm key] at hget

/-- The key of one letter. -/
def Key.letter (c : UInt8) (h : c ≠ 0) : Key := ⟨[c], by simp, by simp [Ne.symm h]⟩

theorem letter_a_ne : (97 : UInt8) ≠ 0 := by decide

/-- Both conditions, as far as a given amount of fuel decides them. -/
def TstOp.roomAndLinked (fuel : Nat) (db : TstDb) (op : TstOp) : Bool :=
  match op with
  | .put key _ _ => decide (db.size + key.bytes.length < ARENA_LIMIT)
  | .delete key => parentsOnPath fuel db key.bytes 0 db.root 0 == some true

theorem TstOp.roomAndLinked_spec {fuel : Nat} {db : TstDb} {op : TstOp}
    (h : TstOp.roomAndLinked fuel db op = true) : op.Room db ∧ op.Linked db := by
  cases op with
  | put key v pos => exact ⟨of_decide_eq_true h, trivial⟩
  | delete key =>
      have h' : parentsOnPath fuel db key.bytes 0 db.root 0 = some true := by
        simpa [TstOp.roomAndLinked] using h
      exact ⟨trivial, Mono.settles (fun n b => parentsOnPath_mono db _ n _ _ _ b) h'⟩

/-- `b`, `a` and `c` share a level, so deleting `b` merges; then `a` goes. -/
def mergingOps : List TstOp :=
  [.put (.letter 98 (by decide)) 1 (by decide), .put (.letter 97 (by decide)) 2 (by decide),
    .put (.letter 99 (by decide)) 3 (by decide), .delete (.letter 98 (by decide)),
    .delete (.letter 97 (by decide)), .put (.letter 97 (by decide)) 4 (by decide)]

theorem tst_run_is_map_mergingOps :
    ∃ db, Run TstOp.Step (createTstDb fun _ => TstNode.zero) mergingOps db ∧
      ∀ key : Key, Settles (fun n => tstGet n db key.bytes) (stored mergingOps key) := by
  obtain ⟨db, hdb⟩ : ∃ db, TstOp.runChecked 8 (TstOp.roomAndLinked 8) (createTstDb fun _ => TstNode.zero)
      mergingOps = some db := Option.isSome_iff_exists.mp (by decide +kernel)
  have hmeets := (TstOp.runChecked_spec (P := fun db op => op.Room db ∧ op.Linked db)
    (fun _ _ => TstOp.roomAndLinked_spec) hdb).2
  exact tst_run_is_map (fun _ => TstNode.zero) rfl mergingOps (hmeets.imp fun _ _ h => h.1)
    (hmeets.imp fun _ _ h => h.2)

/-- After the merge `c` names the freed node of `b` as parent; deleting `c` climbs
there, and two later puts end up with one node in two places. -/
def losingOps : List TstOp :=
  [.put (.letter 98 (by decide)) 1 (by decide), .put (.letter 97 (by decide)) 2 (by decide),
    .put (.letter 99 (by decide)) 3 (by decide), .delete (.letter 98 (by decide)),
    .delete (.letter 99 (by decide)), .put (.letter 100 (by decide)) 4 (by decide),
    .put (.letter 101 (by decide)) 5 (by decide)]

/-- Without the condition the index is no map: a stored key reads as absent. -/
theorem tst_run_loses_key : ¬ ∀ (mem : Nat → TstNode) (ops : List TstOp),
    (createTstDb mem).data 0 = TstNode.zero →
    Meets TstOp.Step (fun db op => op.Room db) (createTstDb mem) ops →
    ∃ db, Run TstOp.Step (createTstDb mem) ops db ∧
      ∀ key : Key, Settles (fun n => tstGet n db key.bytes) (stored ops key) := by
  intro H
  obtain ⟨db, hdb, hget⟩ : ∃ db, TstOp.runChecked 8 (fun db op => decide (op.Room db))
      (createTstDb fun _ => TstNode.zero) losingOps = some db ∧ tstGet 8 db [100] = some 0 :=
    Option.bind_eq_some_iff.mp (by decide +kernel)
  obtain ⟨hrun, hmeets⟩ := TstOp.runChecked_spec (P := fun db op => op.Room db)
    (fun _ _ h => of_decide_eq_true h) hdb
  obtain ⟨db', hrun', hmap⟩ := H (fun _ => TstNode.zero) losingOps rfl hmeets
  obtain rfl := hrun.unique (fun _ _ _ _ h h' => h.unique h') hrun'
  have hval : stored losingOps (.letter 100 (by decide)) = 4 := by decide +kernel
  have h4 : Settles (fun n => tstGet n db [100]) 4 := hval ▸ hmap (.letter 100 (by decide))
  have h0 : Settles (fun n => tstGet n db [100]) 0 := (tstGet_mono db [100]).settles hget
  exact absurd (h0.unique h4) (by decide)

/-! ## The invariant with all parent fields -/

/-- The full invariant: the arena holds the tree, every `parent` field is right, and
no node is there without a value or a middle child. -/
structure WellFormed (db : TstDb) (t : Tree) (F : List Nat) : Prop where
  arena : Arena db t F
  parents : Parents db.data 0 t
  tight : t.Tight

/-- The links the nodes of a tree hold. -/
def linksOf (data : Nat → TstNode) (nodes : List Nat) : List Nat :=
  (nodes.flatMap fun p => [(data p).left, (data p).mid, (data p).right]).filter (· ≠ 0)

theorem linksOf_append (data : Nat → TstNode) (js js' : List Nat) :
    linksOf data (js ++ js') = linksOf data js ++ linksOf data js' := by
  simp [linksOf]

/-- The root link and the links of the nodes lead to every node exactly once. -/
theorem Rep.links_perm {data : Nat → TstNode} : ∀ {t : Tree}, Rep data t →
    ([t.root].filter (· ≠ 0) ++ linksOf data t.ids).Perm t.ids := by
  intro t
  induction t with
  | nil => intro _; exact List.Perm.refl _
  | node i c v l m r ihl ihm ihr =>
      intro h
      obtain ⟨⟨hi, -, -, hl, hm, hr⟩, rl, rm, rr⟩ := h
      have hcons : linksOf data (TTree.node i c v l m r).ids = ([l.root].filter (· ≠ 0) ++
          [m.root].filter (· ≠ 0) ++ [r.root].filter (· ≠ 0)) ++
          (linksOf data l.ids ++ linksOf data m.ids ++ linksOf data r.ids) := by
        have h1 : (TTree.node i c v l m r).ids = [i] ++ (l.ids ++ m.ids ++ r.ids) := rfl
        rw [h1, linksOf_append, linksOf_append, linksOf_append]
        congr 1
        simp only [linksOf, List.flatMap_cons, List.flatMap_nil, List.append_nil, hl, hm, hr]
        rw [← List.filter_append, ← List.filter_append]
        rfl
      rw [hcons, root_node]
      have hi' : [i].filter (· ≠ 0) = [i] := by simp [hi]
      rw [hi', List.singleton_append]
      refine List.Perm.cons i ?_
      refine List.Perm.trans ?_ (((ihl rl).append (ihm rm)).append (ihr rr))
      -- both sides list the three links and the links below each of them
      generalize [l.root].filter (· ≠ 0) = x
      generalize [m.root].filter (· ≠ 0) = y
      generalize [r.root].filter (· ≠ 0) = z
      refine List.perm_iff_count.mpr fun a => ?_
      simp only [List.count_append]
      omega

theorem WellFormed.links {db : TstDb} {t : Tree} {F : List Nat} (h : WellFormed db t F) :
    ([db.root].filter (· ≠ 0) ++ linksOf db.data t.ids).Perm t.ids := by
  rw [h.arena.root]
  exact h.arena.rep.links_perm

/-- Without stored keys there is no node: the root is `0`, all positions are free. -/
theorem WellFormed.empty {db : TstDb} {t : Tree} {F : List Nat} (h : WellFormed db t F)
    (h0 : ∀ k, k ≠ [] → t.lookup k = 0) : db.root = 0 ∧ F.Perm (List.range' 1 db.size) := by
  have ht : t = .nil := eq_nil_of_lookup_zero h.arena.ordered h.tight h0
  have hc := h.arena.cover
  rw [ht] at hc
  exact ⟨by rw [h.arena.root, ht]; rfl, hc⟩

/-- The tree has a value for the map's keys and for no other word. -/
structure Spells (t : Tree) (m : Key → Nat) : Prop where
  value : ∀ key : Key, t.lookup (letters key.bytes) = m key
  only : ∀ w, w ≠ [] → t.lookup w ≠ 0 → ∃ key : Key, w = letters key.bytes

/-- A step that merges nothing keeps the full invariant. -/
theorem WellFormed.step {db : TstDb} {t : Tree} {F : List Nat} {m : Key → Nat} {op : TstOp}
    (h : WellFormed db t F) (hm : Spells t m) (hroom : op.Room db) (hno : op.NoMerge db) :
    ∃ db' t' F', op.Step db db' ∧ WellFormed db' t' F' ∧ Spells t' (op.update m) := by
  cases op with
  | put key v pos =>
      have hlt : db.size + key.bytes.length < UINT32 := lt_trans hroom (by decide)
      obtain ⟨db', hset, ha', -, hpar⟩ := h.arena.put key.ne v (Arena.put_room t F hlt)
      refine ⟨db', _, _, hset, ⟨ha', hpar h.parents, h.tight.put (Nat.ne_of_gt pos) _ t _ (by simp)⟩,
        lookup_put_update t m hm.value key v (by simp), fun w hw hne => ?_⟩
      by_cases hk : w = letters key.bytes
      · exact ⟨key, hk⟩
      · rw [lookup_put_other v _ t _ _ hk] at hne
        exact hm.only w hw hne
  | delete key =>
      obtain ⟨db', F', hset, ha', -, hpar, -, -⟩ := h.arena.delete key.ne (h.parents.pathLinked _)
      refine ⟨db', _, F', hset, ⟨ha', hpar (hno t F h.arena) h.parents, h.tight.erase _⟩,
        lookup_erase_update m h.arena.ordered hm.value key, fun w hw hne => ?_⟩
      rw [lookup_erase h.arena.ordered _ hw] at hne
      split_ifs at hne with hk
      · exact absurd rfl hne
      · exact hm.only w hw hne

/-- In every run without a merge the full invariant holds, and once every key is
deleted nothing but free positions is left. -/
theorem tst_run_wellFormed (mem : Nat → TstNode) (h0 : (createTstDb mem).data 0 = TstNode.zero)
    (ops : List TstOp) (hroom : Meets TstOp.Step (fun db op => op.Room db) (createTstDb mem) ops)
    (hno : Meets TstOp.Step (fun db op => op.NoMerge db) (createTstDb mem) ops) :
    ∃ db t F, Run TstOp.Step (createTstDb mem) ops db ∧ WellFormed db t F ∧
      ([db.root].filter (· ≠ 0) ++ linksOf db.data t.ids).Perm t.ids ∧
      ((∀ key, stored ops key = 0) → db.root = 0 ∧ F.Perm (List.range' 1 db.size)) := by
  obtain ⟨db, hrun, t, F, hwf, hm⟩ := Meets.simulates
    (R := fun db m => ∃ t F, WellFormed db t F ∧ Spells t m) TstOp.update
    (fun _ _ _ ⟨_, _, hwf, hm⟩ hP => by
      obtain ⟨db', t', F', h1, h2, h3⟩ := hwf.step hm hP.1 hP.2
      exact ⟨db', h1, t', F', h2, h3⟩)
    ops _ (fun _ => 0) ⟨.nil, [], ⟨Arena.create mem h0, trivial, trivial⟩,
      fun _ => lookup_nil _, fun w _ hne => absurd (lookup_nil w) hne⟩ (hroom.and hno)
  refine ⟨db, t, F, hrun, hwf, hwf.links, fun hall => hwf.empty fun w hw => ?_⟩
  by_contra hne
  obtain ⟨key, rfl⟩ := hm.only w hw hne
  exact hne ((hm.value key).trans (hall key))

/-- Deleting a leaf: the check of `NoMerge` on a tree known in advance. -/
theorem TstOp.noMerge_of_arena {db : TstDb} {t : Tree} {F : List Nat} (h : Arena db t F) {key : Key}
    (hno : ¬ t.HangsOn (letters key.bytes)) : (TstOp.delete key).NoMerge db := fun t' F' h' => by
  rw [(h'.unique h).1]
  exact hno

/-- Put `a`, put `b`, delete `a`: the root goes and its right child takes its place. -/
def leafOps : List TstOp :=
  [.put (.letter 97 (by decide)) 1 (by decide), .put (.letter 98 (by decide)) 2 (by decide),
    .delete (.letter 97 (by decide))]

theorem tst_run_wellFormed_leafOps :
    ∃ db t F, Run TstOp.Step (createTstDb fun _ => TstNode.zero) leafOps db ∧ WellFormed db t F ∧
      ([db.root].filter (· ≠ 0) ++ linksOf db.data t.ids).Perm t.ids ∧
      ((∀ key, stored leafOps key = 0) → db.root = 0 ∧ F.Perm (List.range' 1 db.size)) := by
  have a₀ : Arena (createTstDb fun _ => TstNode.zero) .nil [] := Arena.create _ rfl
  obtain ⟨db₁, h₁, a₁, s₁, -⟩ := a₀.put (show [97] ≠ [] by simp) 1 (Arena.put_room _ _ (by decide))
  have s₁' : db₁.size = 1 := s₁
  obtain ⟨db₂, h₂, a₂, -, -⟩ := a₁.put (show [98] ≠ [] by simp) 2
    (Arena.put_room _ _ (by rw [s₁']; decide))
  have step₁ : TstOp.Step (createTstDb fun _ => TstNode.zero) (.put (.letter 97 (by decide)) 1 (by decide)) db₁ :=
    h₁
  have step₂ : TstOp.Step db₁ (.put (.letter 98 (by decide)) 2 (by decide)) db₂ := h₂
  refine tst_run_wellFormed (fun _ => TstNode.zero) rfl leafOps ⟨by decide, fun s hs => ?_⟩
    ⟨trivial, fun s hs => ?_⟩
  · obtain rfl := hs.unique step₁
    exact ⟨by show s.size + 1 < ARENA_LIMIT; rw [s₁']; decide, fun _ _ => ⟨trivial, fun _ _ => trivial⟩⟩
  · obtain rfl := hs.unique step₁
    refine ⟨trivial, fun s' hs' => ?_⟩
    obtain rfl := hs'.unique step₂
    refine ⟨TstOp.noMerge_of_arena a₂ ?_, fun _ _ => trivial⟩
    have ht : ((TTree.nil : Tree).put (letters [97]) 1 (supply [] 0 1)).put (letters [98]) 2
        (supply [] 1 1) = .node 1 97 1 .nil .nil (.node 2 98 2 .nil .nil .nil) := by decide
    show ¬ TTree.HangsOn (((TTree.nil : Tree).put (letters [97]) 1 (supply [] 0 1)).put (letters [98]) 2
      (supply [] s.size 1)) [97]
    rw [s₁', ht]
    simp [HangsOn, Hangs]

/-- A right child of the root names the root as parent. -/
theorem WellFormed.parent_right {db : TstDb} {t : Tree} {F : List Nat} (h : WellFormed db t F)
    (h0 : db.root ≠ 0) (hr : (db.data db.root).right ≠ 0) : (db.data (db.data db.root).right).parent = db.root := by
  obtain ⟨ha, hp, -⟩ := h
  rw [ha.root] at h0 hr ⊢
  cases t with
  | nil => exact absurd rfl h0
  | node i c v l m r =>
      obtain ⟨⟨-, -, -, -, -, hright⟩, -, -, -⟩ := ha.rep
      rw [root_node, hright] at hr ⊢
      cases r with
      | nil => exact absurd rfl hr
      | node => exact hp.2.2.2.1

/-- A merge breaks the invariant: `c` hangs under `a` and still names `b`. -/
theorem tst_run_stale_parent : ¬ ∀ (mem : Nat → TstNode) (ops : List TstOp),
    (createTstDb mem).data 0 = TstNode.zero →
    Meets TstOp.Step (fun db op => op.Room db) (createTstDb mem) ops →
    ∃ db t F, Run TstOp.Step (createTstDb mem) ops db ∧ WellFormed db t F := by
  intro H
  obtain ⟨db, hdb, hparent⟩ : ∃ db, TstOp.runChecked 8 (fun db op => decide (op.Room db))
      (createTstDb fun _ => TstNode.zero) (mergingOps.take 4) = some db ∧
      (if db.root ≠ 0 ∧ (db.data db.root).right ≠ 0 ∧ (db.data (db.data db.root).right).parent ≠ db.root then some ()
        else none) = some () := Option.bind_eq_some_iff.mp (by decide +kernel)
  obtain ⟨hrun, hmeets⟩ := TstOp.runChecked_spec (P := fun db op => op.Room db)
    (fun _ _ h => of_decide_eq_true h) hdb
  obtain ⟨db', t, F, hrun', hwf⟩ := H (fun _ => TstNode.zero) (mergingOps.take 4) rfl hmeets
  obtain rfl := hrun.unique (fun _ _ _ _ h h' => h.unique h') hrun'
  split_ifs at hparent with hbad
  exact hbad.2.2 (hwf.parent_right hbad.1 hbad.2.1)

end Tstdb
