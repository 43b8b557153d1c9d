/-
# `Tstdb.Server.Index` — what the server needs of its index

The commands use the index through `tst_get`, `tst_put` and `tst_delete` only.
`Index` collects the three with the one law the file records rest on: a value that
can be read was there before or has just been put.  `none` is a call that does not
return.

There are two instances.  `Index.arena n` is the index of `tst.c`, its loops run on
`n` units of fuel; a put that would take the arena past `ARENA_LIMIT` is undefined
behaviour there and does not return.  `Index.map` is the map the index is meant to
be.
-/
import Mathlib
import Tstdb.Lib.Fuel
import Tstdb.Tst.Arena
import Tstdb.Tst.Runs

namespace Tstdb

open Fuel

structure Index (ι : Type) where
  get : ι → List UInt8 → Option Nat
  put : ι → List UInt8 → Nat → Option ι
  delete : ι → List UInt8 → Option ι
  /-- The values in the index, `0` aside. -/
  holds : ι → Nat → Prop
  get_holds : ∀ {i k v}, get i k = some v → v ≠ 0 → holds i v
  put_holds : ∀ {i k v i' w}, put i k v = some i' → holds i' w → holds i w ∨ w = v
  delete_holds : ∀ {i k i' w}, delete i k = some i' → holds i' w → holds i w

/-! ## The map -/

/-- A map from keys to file offsets; `0` is absence. -/
abbrev KeyMap := List UInt8 → Nat

def KeyMap.empty : KeyMap := fun _ => 0

def KeyMap.put (m : KeyMap) (key : List UInt8) (v : Nat) : KeyMap :=
  if key = [] then m else Function.update m key v

def KeyMap.delete (m : KeyMap) (key : List UInt8) : KeyMap :=
  if key = [] then m else Function.update m key 0

def KeyMap.get (m : KeyMap) (key : List UInt8) : Nat := if key = [] then 0 else m key

@[simp] theorem KeyMap.get_put_same (m : KeyMap) {k : List UInt8} (hk : k ≠ []) (v : Nat) :
    (m.put k v).get k = v := by simp [get, put, hk]

theorem KeyMap.get_put_other (m : KeyMap) {k k' : List UInt8} (h : k' ≠ k) (v : Nat) :
    (m.put k v).get k' = m.get k' := by
  unfold get put
  split_ifs <;> simp [h]

@[simp] theorem KeyMap.get_delete_same (m : KeyMap) (k : List UInt8) : (m.delete k).get k = 0 := by
  unfold get delete
  split_ifs <;> simp

theorem KeyMap.get_delete_other (m : KeyMap) {k k' : List UInt8} (h : k' ≠ k) :
    (m.delete k).get k' = m.get k' := by
  unfold get delete
  split_ifs <;> simp [h]

def Index.map : Index KeyMap where
  get m k := some (m.get k)
  put m k v := some (m.put k v)
  delete m k := some (m.delete k)
  holds m v := v ≠ 0 ∧ ∃ k, m.get k = v
  get_holds {_ k _} h hv := ⟨hv, k, Option.some.inj h⟩
  put_holds {m k v i' w} h hw := by
    obtain rfl := Option.some.inj h
    obtain ⟨hne, k', hk'⟩ := hw
    by_cases hkk : k' = k
    · subst hkk
      by_cases hk0 : k' = []
      · subst hk0
        exact absurd hk'.symm (by simpa [KeyMap.get] using hne)
      · rw [KeyMap.get_put_same m hk0] at hk'
        exact Or.inr hk'.symm
    · rw [KeyMap.get_put_other m hkk] at hk'
      exact Or.inl ⟨hne, k', hk'⟩
  delete_holds {m k i' w} h hw := by
    obtain rfl := Option.some.inj h
    obtain ⟨hne, k', hk'⟩ := hw
    by_cases hkk : k' = k
    · subst hkk
      rw [KeyMap.get_delete_same] at hk'
      exact absurd hk'.symm hne
    · rw [KeyMap.get_delete_other m hkk] at hk'
      exact ⟨hne, k', hk'⟩

/-! ## The arena -/

/-- Each cell's value is what it was, or `0`, or `v`. -/
def ValuesFrom (v : Nat) (db db' : TstDb) : Prop :=
  ∀ i, (db'.data i).value = (db.data i).value ∨ (db'.data i).value = 0 ∨ (db'.data i).value = v

theorem ValuesFrom.refl (v : Nat) (db : TstDb) : ValuesFrom v db db := fun _ => Or.inl rfl

theorem ValuesFrom.trans {v : Nat} {db db₁ db₂ : TstDb} (h : ValuesFrom v db db₁)
    (h' : ValuesFrom v db₁ db₂) : ValuesFrom v db db₂ := fun i => by
  rcases h' i with e | e
  · rw [e]; exact h i
  · exact Or.inr e

theorem ValuesFrom.set {v : Nat} {db db₁ : TstDb} (h : ValuesFrom v db db₁) {x : Nat} {n : TstNode}
    (hn : n.value = (db₁.data x).value ∨ n.value = 0 ∨ n.value = v) : ValuesFrom v db (db₁.set x n) := by
  refine h.trans fun i => ?_
  by_cases hi : i = x
  · subst hi; rw [TstDb.set_data_same]; exact hn
  · rw [TstDb.set_data_other _ _ hi]; exact Or.inl rfl

theorem ValuesFrom.of_data {v : Nat} {db db₁ db₂ : TstDb} (h : ValuesFrom v db db₁)
    (e : db₂.data = db₁.data) : ValuesFrom v db db₂ := fun i => by rw [e]; exact h i

theorem newNode_values (v : Nat) (db : TstDb) : ValuesFrom v db (newNode db).2 := by
  unfold newNode
  split
  · refine @ValuesFrom.of_data v db ((ensureEnoughSpace db).set _ TstNode.zero) _ ?_ rfl
    exact ValuesFrom.set (ValuesFrom.of_data (.refl v db) (ensureEnoughSpace_data db)) (Or.inr (Or.inl rfl))
  · exact ValuesFrom.of_data (ValuesFrom.set (.refl v db) (Or.inr (Or.inl rfl))) rfl

theorem insert_values (v : Nat) : ∀ (n : Nat) (db : TstDb) (x : Nat) (s : List UInt8) (d len p : Nat)
    (r : Nat × TstDb), insert n db x s v d len p = some r → ValuesFrom v db r.2 := by
  intro n
  induction n with
  | zero => intro db x s d len p r h; simp [insert] at h
  | succ n ih =>
      intro db x s d len p r h
      rw [insert] at h
      -- the node the call is at, made first where there was none
      obtain ⟨y, db₁, hy, hval⟩ : ∃ y db₁, (if x = 0 then
          ((newNode db).1, (newNode db).2.set (newNode db).1
            { (newNode db).2.data (newNode db).1 with c := s.getD d 0 })
          else (x, db)) = (y, db₁) ∧ ValuesFrom v db db₁ := by
        by_cases hx : x = 0
        · exact ⟨_, _, if_pos hx, (newNode_values v db).set (Or.inl rfl)⟩
        · exact ⟨_, _, if_neg hx, .refl v db⟩
      simp only [hy] at h
      split_ifs at h
      · obtain ⟨q, hq, rfl⟩ := Option.map_eq_some_iff.mp h
        refine ValuesFrom.set (ValuesFrom.set (hval.trans (ih _ _ _ _ _ _ _ hq)) ?_) ?_ <;>
          exact Or.inl rfl
      · obtain ⟨q, hq, rfl⟩ := Option.map_eq_some_iff.mp h
        refine ValuesFrom.set (ValuesFrom.set (hval.trans (ih _ _ _ _ _ _ _ hq)) ?_) ?_ <;>
          exact Or.inl rfl
      · obtain ⟨q, hq, rfl⟩ := Option.map_eq_some_iff.mp h
        refine ValuesFrom.set (ValuesFrom.set (hval.trans (ih _ _ _ _ _ _ _ hq)) ?_) ?_ <;>
          exact Or.inl rfl
      · obtain rfl := Option.some.inj h
        refine ValuesFrom.set (ValuesFrom.set hval ?_) ?_
        · exact Or.inr (Or.inr rfl)
        · exact Or.inl rfl

theorem tstPut_values {n : Nat} {db db' : TstDb} {key : List UInt8} {v : Nat}
    (h : tstPut n db key v = some db') : ValuesFrom v db db' := by
  unfold tstPut at h
  split_ifs at h
  · obtain rfl := Option.some.inj h; exact .refl v db
  · obtain ⟨q, hq, rfl⟩ := Option.map_eq_some_iff.mp h
    exact (insert_values v _ _ _ _ _ _ _ _ hq).of_data rfl

theorem removeNode_values {n : Nat} {db : TstDb} {x : Nat} {r : Nat × TstDb}
    (h : removeNode n db x = some r) : ValuesFrom 0 db r.2 := by
  have hfree : ValuesFrom 0 db (freeNode db x) :=
    ValuesFrom.of_data (ValuesFrom.set (.refl 0 db) (Or.inr (Or.inl rfl))) rfl
  simp only [removeNode] at h
  split_ifs at h
  · obtain rfl := Option.some.inj h; exact hfree
  · obtain rfl := Option.some.inj h; exact hfree
  · obtain rfl := Option.some.inj h; exact hfree
  · obtain ⟨q, -, rfl⟩ := Option.map_eq_some_iff.mp h
    exact hfree.set (Or.inl rfl)

theorem adopt_values {db db₁ : TstDb} (x p : Nat) (h : ValuesFrom 0 db db₁) :
    ValuesFrom 0 db (adopt db₁ x p) := by
  unfold adopt
  split
  · exact h
  · exact h.set (Or.inl rfl)

theorem climb_values : ∀ (n : Nat) (db : TstDb) (x : Nat) (r : TstDb), climb n db x = some r →
    ValuesFrom 0 db r := by
  intro n
  induction n with
  | zero => intro db x r h; simp [climb] at h
  | succ n ih =>
      intro db x r h
      rw [climb] at h
      dsimp only at h
      split_ifs at h
      · obtain rfl := Option.some.inj h; exact .refl 0 db
      all_goals first
        | exact ih _ _ _ h
        | obtain ⟨q, hq, hr⟩ := Option.bind_eq_some_iff.mp h
      · refine (adopt_values _ _ (ValuesFrom.set (removeNode_values hq) ?_)).trans (ih _ _ _ hr)
        exact Or.inl rfl
      · refine (adopt_values _ _ (ValuesFrom.set (removeNode_values hq) ?_)).trans (ih _ _ _ hr)
        exact Or.inl rfl
      · refine (adopt_values _ _ (ValuesFrom.set (removeNode_values hq) ?_)).trans (ih _ _ _ hr)
        exact Or.inl rfl
      · refine ValuesFrom.trans (@ValuesFrom.set 0 db { q.2 with root := q.1 }
          ((removeNode_values hq).of_data rfl) _ _ ?_) (ih _ _ _ hr)
        exact Or.inl rfl

theorem tstDelete_values {n : Nat} {db db' : TstDb} {key : List UInt8}
    (h : tstDelete n db key = some db') : ValuesFrom 0 db db' := by
  unfold tstDelete at h
  split_ifs at h
  · obtain rfl := Option.some.inj h; exact .refl 0 db
  · obtain ⟨x, -, hr⟩ := Option.bind_eq_some_iff.mp h
    refine ValuesFrom.trans ?_ (climb_values _ _ _ _ hr)
    split
    · exact .refl 0 db
    · exact (ValuesFrom.refl 0 db).set (Or.inr (Or.inl rfl))

def Index.arena (n : Nat) : Index TstDb where
  get db k := tstGet n db k
  put db k v := if db.size + k.length < ARENA_LIMIT then tstPut n db k v else none
  delete db k := tstDelete n db k
  holds db v := v ≠ 0 ∧ ∃ i, (db.data i).value = v
  get_holds {db k v} h hv := by
    unfold tstGet at h
    split_ifs at h
    · exact absurd (Option.some.inj h).symm hv
    · obtain ⟨i, -, rfl⟩ := Option.map_eq_some_iff.mp h
      exact ⟨hv, i, rfl⟩
  put_holds {db k v db' w} h hw := by
    split_ifs at h
    obtain ⟨hne, i, hi⟩ := hw
    rcases tstPut_values h i with e | e | e
    · exact Or.inl ⟨hne, i, e ▸ hi⟩
    · exact absurd (hi ▸ e) hne
    · exact Or.inr (hi.symm.trans e)
  delete_holds {db k db' w} h hw := by
    obtain ⟨hne, i, hi⟩ := hw
    rcases tstDelete_values h i with e | e | e
    · exact ⟨hne, i, e ▸ hi⟩
    · exact absurd (hi ▸ e) hne
    · exact absurd (hi ▸ e) hne

theorem Index.arena_get_mono (db : TstDb) (k : List UInt8) : Mono fun n => (Index.arena n).get db k :=
  tstGet_mono db k

theorem Index.arena_put_mono (db : TstDb) (k : List UInt8) (v : Nat) :
    Mono fun n => (Index.arena n).put db k v := by
  intro n b h
  simp only [Index.arena] at h ⊢
  split_ifs at h ⊢
  exact tstPut_mono db k v n b h

theorem Index.arena_delete_mono (db : TstDb) (k : List UInt8) : Mono fun n => (Index.arena n).delete db k :=
  tstDelete_mono db k

end Tstdb
