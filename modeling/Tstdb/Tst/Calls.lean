/-
# `Tstdb.Tst.Calls` — one call of `tst_put` or `tst_delete` on any arena

The run theorems start from an empty database.  Here a single call starts from any
arena with right `parent` fields, reachable or not: it may have nodes that carry
neither a value nor a middle child, and node `0` may hold anything but a value.
-/
import Mathlib
import Tstdb.Lib.Fuel
import Tstdb.Lib.TernaryTree
import Tstdb.Tst.Arena
import Tstdb.Tst.Shape
import Tstdb.Tst.Put
import Tstdb.Tst.Delete
import Tstdb.Tst.Runs

namespace Tstdb

open Fuel TTree

/-- An arena whose `parent` fields are all right. -/
structure LinkedArena (db : TstDb) (t : Tree) (F : List Nat) : Prop where
  arena : Arena db t F
  parents : Parents db.data 0 t

theorem LinkedArena.create (mem : Nat → TstNode) (h0 : (createTstDb mem).data 0 = TstNode.zero) :
    LinkedArena (createTstDb mem) .nil [] := ⟨Arena.create mem h0, trivial⟩

/-- What a key reads is what the tree has for it. -/
theorem Arena.get_iff {db : TstDb} {t : Tree} {F : List Nat} (h : Arena db t F) (key : Key) {v : Nat} :
    Settles (fun n => tstGet n db key.bytes) v ↔ v = t.lookup (letters key.bytes) := by
  have hget := h.get key.ne
  exact ⟨fun hv => hv.unique hget, fun e => e ▸ hget⟩

/-! ## Storing -/

/-- How a stored word grows the tree: the nodes `taken` are, in order, those of the
part of its path that was missing; the other nodes stay where they were. -/
structure Grown (t t' : Tree) (k : List Int) (taken : List Nat) : Prop where
  kept : ∀ w i, t.find? w = some i → t'.find? w = some i
  ids : t'.ids.Perm (t.ids ++ taken)
  missing : ∀ j, 0 < j → j ≤ k.length → (t.find? (k.take j) = none ↔ k.length < j + taken.length)
  path : ∀ j, j < taken.length → t'.find? (k.take (k.length - taken.length + j + 1)) = taken[j]?

theorem Grown.put (t : Tree) (k : List Int) (v : Nat) (F : List Nat) (size : Nat) :
    Grown t (t.put k v (supply F size k.length)) k (supply F size (t.missing k)) := by
  have hle := missing_le t k
  have hl : k.length ≤ (supply F size k.length).length := by rw [length_supply]
  have hids := ids_put v (supply F size k.length) t k hl
  rw [take_supply hle] at hids
  refine ⟨fun w i h => find?_put_old v _ t k w i h, hids, fun j h0 hj => ?_, fun j hj => ?_⟩
  · rw [length_supply]
    exact find?_take_eq_none t k j h0 hj
  · rw [length_supply] at hj ⊢
    rw [find?_put_new v _ t k j hj hl, ← take_supply (F := F) hle, List.getElem?_take_of_lt hj]

/-- `tst_put` on any arena: it updates one key and keeps the arena, all `parent` fields
included; it allocates what is missing of the key's path, from the free list first. -/
theorem tst_put_updates {db : TstDb} {t : Tree} {F : List Nat} (h : LinkedArena db t F) (key : Key) (value : Nat)
    (hroom : db.size + (t.missing (letters key.bytes) - F.length) < UINT32) :
    ∃ db' t' F' taken, Settles (fun n => tstPut n db key.bytes value) db' ∧ LinkedArena db' t' F' ∧
      Settles (fun n => tstGet n db' key.bytes) value ∧
      (∀ key' : Key, key' ≠ key → ∀ v, Settles (fun n => tstGet n db key'.bytes) v →
        Settles (fun n => tstGet n db' key'.bytes) v) ∧
      Grown t t' (letters key.bytes) taken ∧
      taken = F.take taken.length ++ List.range' (db.size + 1) (taken.length - F.length) ∧
      F' = F.drop taken.length ∧ db'.size = db.size + (taken.length - F.length) := by
  obtain ⟨db', hset, ha, hsize, hpar⟩ := h.arena.put key.ne value hroom
  have hlen : (supply F db.size (t.missing (letters key.bytes))).length = t.missing (letters key.bytes) :=
    length_supply _ _ _
  have hgrown := Grown.put t (letters key.bytes) value F db.size
  rw [length_letters] at hgrown
  refine ⟨db', _, _, supply F db.size (t.missing (letters key.bytes)), hset, ⟨ha, hpar h.parents⟩, ?_, ?_,
    hgrown, ?_, ?_, ?_⟩
  · rw [ha.get_iff, lookup_put_same _ _ _ _ key.letters_ne_nil (by simp)]
  · intro key' hne v hv
    have hletters : letters key'.bytes ≠ letters key.bytes := fun e => hne (Key.ext (letters_inj.mp e))
    rw [ha.get_iff, lookup_put_other _ _ _ _ _ hletters]
    exact (h.arena.get_iff key').mp hv
  · rw [hlen]; rfl
  · rw [hlen]
  · rw [hlen]; exact hsize

/-- `ab` into the empty arena takes the positions `1` and `2`. -/
theorem tst_put_updates_empty : ∃ db' t' F' taken,
    Settles (fun n => tstPut n (createTstDb fun _ => TstNode.zero) [97, 98] 7) db' ∧ LinkedArena db' t' F' ∧
      Settles (fun n => tstGet n db' [97, 98]) 7 ∧
      (∀ key' : Key, key' ≠ ⟨[97, 98], by decide, by decide⟩ → ∀ v,
        Settles (fun n => tstGet n (createTstDb fun _ => TstNode.zero) key'.bytes) v →
        Settles (fun n => tstGet n db' key'.bytes) v) ∧
      Grown .nil t' (letters [97, 98]) taken ∧
      taken = [].take taken.length ++ List.range' 1 (taken.length - 0) ∧
      F' = [].drop taken.length ∧ db'.size = 0 + (taken.length - 0) :=
  tst_put_updates (LinkedArena.create (fun _ => TstNode.zero) rfl) ⟨[97, 98], by decide, by decide⟩ 7
    (by decide)

/-! ## Deleting -/

/-- What leaves the tree is free afterwards, and nothing else is that was not before. -/
theorem free_perm {ids ids' F F' all : List Nat} (h : (ids ++ F).Perm all) (h' : (ids' ++ F').Perm all)
    (hnd : all.Nodup) (hsub : ∀ j ∈ ids', j ∈ ids) : F'.Perm (ids.filter (· ∉ ids') ++ F) := by
  have hids : ids.Nodup := (List.nodup_append.mp (h.nodup_iff.mpr hnd)).1
  have hids' : ids'.Nodup := (List.nodup_append.mp (h'.nodup_iff.mpr hnd)).1
  have hstay : (ids.filter (· ∈ ids')).Perm ids' := by
    refine (List.perm_ext_iff_of_nodup (hids.filter _) hids').mpr fun j => ?_
    simpa using hsub j
  have hsplit : (ids' ++ ids.filter (· ∉ ids')).Perm ids := by
    refine (hstay.symm.append_right _).trans ?_
    simpa using List.filter_append_perm (fun j => decide (j ∈ ids')) ids
  refine (List.perm_append_left_iff ids').mp ((h'.trans h.symm).trans ?_)
  rw [← List.append_assoc]
  exact hsplit.symm.append_right F

/-- `tst_delete` on any arena: it terminates and erases one key; nothing changes when
the key's path is not there, and the nodes it removes are free afterwards, each once. -/
theorem tst_delete_erases {db : TstDb} {t : Tree} {F : List Nat} (h : LinkedArena db t F) (key : Key) :
    ∃ db' t' F', Settles (fun n => tstDelete n db key.bytes) db' ∧ Arena db' t' F' ∧
      Settles (fun n => tstGet n db' key.bytes) 0 ∧
      (∀ key' : Key, key' ≠ key → ∀ v, Settles (fun n => tstGet n db key'.bytes) v →
        Settles (fun n => tstGet n db' key'.bytes) v) ∧
      (t.find? (letters key.bytes) = none → db' = db) ∧
      (∀ j ∈ t'.ids, j ∈ t.ids) ∧ F'.Perm (t.ids.filter (· ∉ t'.ids) ++ F) ∧ F'.Nodup ∧
      (t.Tight → t'.Tight) := by
  obtain ⟨db', F', hset, ha, hsize, -, hsub, hsame⟩ := h.arena.delete key.ne (h.parents.pathLinked _)
  have hcover := ha.cover
  rw [hsize] at hcover
  refine ⟨db', _, F', hset, ha, ?_, ?_, hsame, hsub, ?_, ?_, fun ht => ht.erase _⟩
  · rw [ha.get_iff, lookup_erase h.arena.ordered _ key.letters_ne_nil, if_pos rfl]
  · intro key' hne v hv
    have hletters : letters key'.bytes ≠ letters key.bytes := fun e => hne (Key.ext (letters_inj.mp e))
    rw [ha.get_iff, lookup_erase h.arena.ordered _ key'.letters_ne_nil, if_neg hletters]
    exact (h.arena.get_iff key').mp hv
  · exact free_perm h.arena.cover hcover List.nodup_range' hsub
  · exact (List.nodup_append.mp ha.nodup).2.1

/-- `b`, `a` and `c` in one level. -/
theorem linkedArena_siblings : ∃ (db : TstDb) (t : Tree) (F : List Nat), LinkedArena db t F ∧
    t.HangsOn (letters [98]) := by
  obtain ⟨db₁, -, a₁, s₁, p₁⟩ := (Arena.create (fun _ => TstNode.zero) rfl).put (show [98] ≠ [] by simp) 1
    (Arena.put_room _ _ (by decide))
  have e₁ : db₁.size = 1 := s₁
  obtain ⟨db₂, -, a₂, s₂, p₂⟩ := a₁.put (show [97] ≠ [] by simp) 2 (Arena.put_room _ _ (by rw [e₁]; decide))
  have e₂ : db₂.size = 2 := by rw [s₂, e₁]; decide
  obtain ⟨db₃, -, a₃, -, p₃⟩ := a₂.put (show [99] ≠ [] by simp) 3 (Arena.put_room _ _ (by rw [e₂]; decide))
  refine ⟨db₃, _, _, ⟨a₃, p₃ (p₂ (p₁ trivial))⟩, ?_⟩
  rw [e₁, e₂]
  have ht : (((TTree.nil : Tree).put (letters [98]) 1 (supply [] 0 1)).put (letters [97]) 2
      (supply [] 1 1)).put (letters [99]) 3 (supply [] 2 1) =
      .node 1 98 1 (.node 2 97 2 .nil .nil .nil) .nil (.node 3 99 3 .nil .nil .nil) := by decide
  exact ht ▸ ⟨rfl, by simp, by simp⟩

/-- Deleting `b` of the siblings hangs `c` under `a`. -/
theorem tst_delete_erases_sibling : ∃ (db : TstDb) (t : Tree) (F : List Nat), t.HangsOn (letters [98]) ∧
    ∃ db' t' F', Settles (fun n => tstDelete n db [98]) db' ∧ Arena db' t' F' ∧
      Settles (fun n => tstGet n db' [98]) 0 ∧
      (∀ key' : Key, key' ≠ .letter 98 (by decide) → ∀ v, Settles (fun n => tstGet n db key'.bytes) v →
        Settles (fun n => tstGet n db' key'.bytes) v) ∧
      (t.find? (letters [98]) = none → db' = db) ∧
      (∀ j ∈ t'.ids, j ∈ t.ids) ∧ F'.Perm (t.ids.filter (· ∉ t'.ids) ++ F) ∧ F'.Nodup ∧
      (t.Tight → t'.Tight) := by
  obtain ⟨db, t, F, h, hf⟩ := linkedArena_siblings
  exact ⟨db, t, F, hf, tst_delete_erases h (.letter 98 (by decide))⟩

end Tstdb
