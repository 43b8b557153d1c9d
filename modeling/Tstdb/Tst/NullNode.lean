/-
# `Tstdb.Tst.NullNode` — what a look-up of an absent key reads

`tst_get` does not test for a miss.  It reads the value of whatever node `search`
returns, which is node `0` when the key's path is not there.  No operation owns that
node: `new_tst_db` means to clear it and clears the first eight bytes of it, and an
insertion writes the nodes it has made and those it has passed.  So every miss of
every run of `tst_put` answers what `malloc` had left in the value of node `0`.
-/
import Mathlib
import Tstdb.Lib.Fuel
import Tstdb.Lib.Runs
import Tstdb.Lib.TernaryTree
import Tstdb.Tst.Arena
import Tstdb.Tst.Shape
import Tstdb.Tst.Put
import Tstdb.Tst.Runs

namespace Tstdb

open Fuel TTree Runs

/-! ## Runs of `tst_put` -/

/-- A call of `tst_put` with any key, the empty one too, and any value. -/
abbrev PutCall := List UInt8 × Nat

def PutCall.Step (db : TstDb) (put : PutCall) (db' : TstDb) : Prop :=
  Settles (fun n => tstPut n db put.1 put.2) db'

/-- The nodes the call may need are inside what the arena can grow to. -/
def PutCall.Room (db : TstDb) (put : PutCall) : Prop := db.size + put.1.length < ARENA_LIMIT

/-- No call has stored the key or an extension of it, so its path is not in the tree. -/
def Pathless (puts : List PutCall) (key : List UInt8) : Prop := ∀ put ∈ puts, ¬key <+: put.1

/-! ## The tree of a run and the node outside it -/

/-- The arena holds a tree with no free nodes. -/
structure Planted (db : TstDb) (t : Tree) : Prop where
  root : db.root = t.root
  rep : Rep db.data t
  free : FreeList db.data db.fHead []
  cover : (t.ids ++ []).Perm (List.range' 1 db.size)

theorem Planted.create (mem : Nat → TstNode) : Planted (createTstDb mem) .nil :=
  ⟨rfl, trivial, rfl, List.Perm.refl _⟩

/-- One call: a tree in which the path of every other key ends where it ended, and
node `0` as it was. -/
theorem Planted.step {db db' : TstDb} {t : Tree} {put : PutCall} (h : Planted db t) (hroom : put.Room db)
    (hstep : PutCall.Step db put db') : ∃ t', Planted db' t' ∧ db'.data 0 = db.data 0 ∧
      ∀ key, ¬key <+: put.1 → t'.find? (letters key) = t.find? (letters key) := by
  obtain ⟨key, v⟩ := put
  rcases Classical.em (key = []) with rfl | hk
  · obtain rfl : db = db' := Settles.unique (settles_const db) hstep
    exact ⟨t, h, rfl, fun _ _ => rfl⟩
  · have hlt : db.size + key.length < UINT32 := lt_trans hroom (by decide)
    obtain ⟨db₁, hset, hroot, hrep, hfree, hcover, -, -, hnull⟩ :=
      tstPut_stores h.root h.rep h.free h.cover hk v (Arena.put_room t [] hlt)
    obtain rfl := hset.unique hstep
    refine ⟨_, ⟨hroot, hrep, by simpa using hfree, by simpa using hcover⟩, hnull, fun key' hne => ?_⟩
    refine find?_put_other _ _ _ _ _ fun hp => hne ?_
    obtain ⟨w, hw⟩ := hp
    have hmap : key'.map char <+: key.map char := ⟨w, hw⟩
    exact (List.prefix_map_iff_of_injective fun _ _ => char_inj.mp).mp hmap

/-- After any run: the tree has no node for a key whose path nobody stored, and node
`0` is as the initialisation left it. -/
theorem run_planted {mem : Nat → TstNode} {puts : List PutCall} {db : TstDb}
    (h : Run (Guarded PutCall.Step fun db put => put.Room db) (createTstDb mem) puts db) :
    ∃ t, Planted db t ∧ db.data 0 = clearHead (mem 0) ∧
      ∀ key, Pathless puts key → t.find? (letters key) = none := by
  have hrun : ∀ {puts : List PutCall} {db₀ db : TstDb} {t₀ : Tree},
      Run (Guarded PutCall.Step fun db put => put.Room db) db₀ puts db → Planted db₀ t₀ →
      ∃ t, Planted db t ∧ db.data 0 = db₀.data 0 ∧
        ∀ key, Pathless puts key → t.find? (letters key) = t₀.find? (letters key) := by
    intro puts db₀ db t₀ hr
    induction hr generalizing t₀ with
    | nil s => exact fun hp => ⟨t₀, hp, rfl, fun _ _ => rfl⟩
    | cons hs _ ih =>
        intro hp
        obtain ⟨t₁, hp₁, hz₁, hf₁⟩ := hp.step hs.1 hs.2
        obtain ⟨t, hp', hz, hf⟩ := ih hp₁
        exact ⟨t, hp', hz.trans hz₁, fun key hk =>
          (hf key fun put hmem => hk put (List.mem_cons_of_mem _ hmem)).trans (hf₁ key (hk _ List.mem_cons_self))⟩
  obtain ⟨t, hp, hz, hf⟩ := hrun h (Planted.create mem)
  refine ⟨t, hp, hz.trans ?_, fun key hk => (hf key hk).trans ?_⟩
  · simp [createTstDb, newTstDb]
  · cases letters key <;> rfl

/-! ## A miss reads node `0` -/

theorem Planted.miss {db : TstDb} {t : Tree} (h : Planted db t) {key : List UInt8} (hk : key ≠ [])
    (hmiss : t.find? (letters key) = none) : Settles (fun n => search n db key) 0 ∧
      Settles (fun n => tstGet n db key) (db.data 0).value := by
  have hlen : 0 < key.length := List.length_pos_iff.mpr hk
  have hloop := searchLoop_settles key t 0 h.rep hlen
  rw [List.drop_zero, hmiss, ← h.root] at hloop
  have hsearch : Settles (fun n => search n db key) 0 :=
    hloop.congr fun n => by simp only [search, if_neg (Nat.ne_of_gt hlen)]
  refine ⟨hsearch, (hsearch.map fun node => (db.data node).value).congr fun n => ?_⟩
  simp only [tstGet, if_neg (Nat.ne_of_gt hlen)]

/-- Node `0` keeps through every run the value it had when the memory was obtained, and
that is what every key without a path reads. -/
theorem null_reads_absent (mem : Nat → TstNode) (puts : List PutCall) (db : TstDb)
    (h : Run (Guarded PutCall.Step fun db put => put.Room db) (createTstDb mem) puts db) :
    ((db.data 0).value = 0 ↔ (mem 0).value = 0) ∧
    ∀ key, key ≠ [] → Pathless puts key → Settles (fun n => search n db key) 0 ∧
      (Settles (fun n => tstGet n db key) 0 ↔ (mem 0).value = 0) := by
  obtain ⟨t, hp, hz, hf⟩ := run_planted h
  have hval : (db.data 0).value = (mem 0).value := by rw [hz]; rfl
  refine ⟨by rw [hval], fun key hk hpath => ?_⟩
  obtain ⟨hsearch, hget⟩ := hp.miss hk (hf key hpath)
  rw [hval] at hget
  exact ⟨hsearch, fun h0 => hget.unique h0, fun h0 => h0 ▸ hget⟩

/-- `ab` is stored in memory that came cleared; `b` has no path. -/
theorem null_reads_absent_cleared : ∃ db, ((db.data 0).value = 0 ↔ (TstNode.zero).value = 0) ∧
    ∀ key, key ≠ [] → Pathless [([97, 98], 7)] key → Settles (fun n => search n db key) 0 ∧
      (Settles (fun n => tstGet n db key) 0 ↔ (TstNode.zero).value = 0) := by
  obtain ⟨db, hset, -⟩ := tstPut_stores (t := .nil) (F := []) (Planted.create fun _ => TstNode.zero).root trivial rfl
    (List.Perm.refl _) (show ([97, 98] : List UInt8) ≠ [] by simp) 7 (by decide)
  exact ⟨db, null_reads_absent (fun _ => TstNode.zero) [([97, 98], 7)] db
    (.cons ⟨show 0 + 2 < ARENA_LIMIT by decide, hset⟩ (.nil db))⟩

/-- What `malloc` returns when the value of node `0` was last used for something else. -/
def dirtyMemory : Nat → TstNode := fun _ => { TstNode.zero with value := 5 }

/-- Before anything is stored, `a` reads as present. -/
theorem null_reads_memory : ¬ ∀ (mem : Nat → TstNode) (puts : List PutCall) (db : TstDb),
    Run PutCall.Step (createTstDb mem) puts db →
    (db.data 0).value = 0 ∧ ∀ key, key ≠ [] → Pathless puts key → Settles (fun n => tstGet n db key) 0 := by
  intro H
  obtain ⟨-, hget⟩ := H dirtyMemory [] _ (.nil _)
  have h0 := hget [97] (by simp) (fun _ h => absurd h List.not_mem_nil)
  obtain ⟨-, h5⟩ := (Planted.create dirtyMemory).miss (show ([97] : List UInt8) ≠ [] by simp) rfl
  exact absurd (h0.unique h5) (show (0 : Nat) ≠ 5 by decide)

end Tstdb
