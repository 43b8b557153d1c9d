/-
# `Tstdb.Tst.Growth` — which positions `new_node` hands out

The tree is not needed here.  Callers obtain nodes and give them back, and in between
they write what they like into the nodes they hold.  A node that is given back goes on
the free list and is handed out before a fresh one; a fresh one is number `size + 1`,
after the block was doubled if `size` had reached the capacity.  `cap` is a 32-bit
number while the byte count of the `realloc` is a 64-bit one:

    cap before    nodes in the block asked for    cap after
    1677721600                     3355443200     3355443200
    3355443200                     6710886400     2415919104
    2415919104                     4831838208      536870912
     536870912                     1073741824     1073741824

The last line is the one that shrinks the block below what is in use.
-/
import Mathlib
import Tstdb.Lib.Runs
import Tstdb.Tst.Arena
import Tstdb.Tst.Shape
import Tstdb.Tst.Put
import Tstdb.Tst.Runs

namespace Tstdb

open Runs

/-! ## Obtaining nodes and giving them back -/

inductive NodeEvent where
  | alloc
  | free (node : Nat)
  | write (node : Nat) (n : TstNode)

/-- The arena, with the nodes that are with the callers. -/
structure NodeUse where
  db : TstDb
  used : List Nat

/-- Callers free and write only what they hold; node numbers stay below `2 ^ 32`. -/
inductive NodeUse.Step : NodeUse → NodeEvent → NodeUse → Prop
  | alloc {u : NodeUse} (h : u.db.fHead ≠ 0 ∨ u.db.size + 1 < UINT32) :
      Step u .alloc ⟨(newNode u.db).2, (newNode u.db).1 :: u.used⟩
  | free {u : NodeUse} {node : Nat} (h : node ∈ u.used) :
      Step u (.free node) ⟨freeNode u.db node, u.used.erase node⟩
  | write {u : NodeUse} {node : Nat} {n : TstNode} (h : node ∈ u.used) :
      Step u (.write node n) ⟨u.db.set node n, u.used⟩

def NodeUse.create (mem : Nat → TstNode) : NodeUse := ⟨createTstDb mem, []⟩

/-- An allocation leaves a block that has the nodes `0..size` and the one it returns. -/
def NodeUse.Inside (u : NodeUse) : NodeEvent → Prop
  | .alloc => (newNode u.db).1 < (newNode u.db).2.block ∧ u.db.size + 1 ≤ (newNode u.db).2.block
  | _ => True

/-- An allocation reuses a node, or has not yet numbered one past `ARENA_LIMIT`. -/
def NodeUse.Growable (u : NodeUse) : NodeEvent → Prop
  | .alloc => u.db.fHead ≠ 0 ∨ u.db.size ≤ ARENA_LIMIT
  | _ => True

/-! ## Size, capacity and block -/

/-- The values the three numbers take together before the block is ever too small. -/
inductive Capacity : Nat → Nat → Nat → Prop
  | doubled {size : Nat} (k : Nat) (hk : k ≤ 13) (h : size < 409600 * 2 ^ k) :
      Capacity size (409600 * 2 ^ k) (409600 * 2 ^ k)
  | wrapped : Capacity 3355443200 2415919104 6710886400
  | wrappedTwice : Capacity 3355443201 536870912 4831838208

theorem Capacity.inside {size cap block : Nat} (h : Capacity size cap block) : size + 1 ≤ block := by
  cases h with
  | doubled k hk h => exact h
  | wrapped => norm_num
  | wrappedTwice => norm_num

theorem Capacity.le {size cap block : Nat} (h : Capacity size cap block) : size ≤ ARENA_LIMIT + 1 := by
  cases h with
  | doubled k hk h =>
      have hpow : 2 ^ k ≤ 2 ^ 13 := Nat.pow_le_pow_right (by decide) hk
      norm_num at hpow
      unfold ARENA_LIMIT
      omega
  | wrapped => norm_num [ARENA_LIMIT]
  | wrappedTwice => norm_num [ARENA_LIMIT]

/-- What `ensure_enough_space` makes of the capacity and the block. -/
theorem ensureEnoughSpace_full {db : TstDb} (h : dec32 db.cap ≤ db.size) :
    (ensureEnoughSpace db).cap = u32 (db.cap * 2) ∧ (ensureEnoughSpace db).block = db.cap * 2 := by
  rw [ensureEnoughSpace, if_pos h]
  exact ⟨rfl, rfl⟩

theorem ensureEnoughSpace_room {db : TstDb} (h : ¬dec32 db.cap ≤ db.size) :
    (ensureEnoughSpace db).cap = db.cap ∧ (ensureEnoughSpace db).block = db.block := by
  rw [ensureEnoughSpace, if_neg h]
  exact ⟨rfl, rfl⟩

/-- One more node, up to the last one that still has a place. -/
theorem Capacity.grow {db : TstDb} (h : Capacity db.size db.cap db.block) (hle : db.size ≤ ARENA_LIMIT) :
    Capacity (db.size + 1) (ensureEnoughSpace db).cap (ensureEnoughSpace db).block := by
  generalize hs : db.size = size at h
  generalize hc : db.cap = cap at h
  generalize hb : db.block = block at h
  cases h with
  | doubled k hk h =>
      have hpos : 0 < 2 ^ k := Nat.two_pow_pos k
      have hdec : dec32 db.cap = db.cap - 1 := if_neg (by omega)
      rcases Classical.em (dec32 db.cap ≤ db.size) with hfull | hfull
      · obtain ⟨hcap, hblock⟩ := ensureEnoughSpace_full hfull
        rw [hcap, hblock, hc]
        have hlast : size + 1 = 409600 * 2 ^ k := by omega
        rcases Nat.lt_or_ge k 13 with hk13 | hk13
        · have hdouble : 409600 * 2 ^ k * 2 = 409600 * 2 ^ (k + 1) := by rw [pow_succ, Nat.mul_assoc]
          have hpow : 2 ^ (k + 1) ≤ 2 ^ 13 := Nat.pow_le_pow_right (by decide) hk13
          have hsmall : 409600 * 2 ^ (k + 1) < UINT32 := by
            norm_num at hpow
            unfold UINT32
            omega
          rw [hdouble, u32_of_lt hsmall]
          exact .doubled (k + 1) hk13 (by omega)
        · obtain rfl : k = 13 := Nat.le_antisymm hk hk13
          obtain rfl : size = 3355443199 := by omega
          exact .wrapped
      · obtain ⟨hcap, hblock⟩ := ensureEnoughSpace_room hfull
        rw [hcap, hblock, hc, hb]
        exact .doubled k hk (by omega)
  | wrapped =>
      have hfull : dec32 db.cap ≤ db.size := by rw [hc, hs]; decide
      obtain ⟨hcap, hblock⟩ := ensureEnoughSpace_full hfull
      rw [hcap, hblock, hc]
      exact .wrappedTwice
  | wrappedTwice => exact absurd (hs ▸ hle) (by unfold ARENA_LIMIT; omega)

/-- The one after that does not have a place. -/
theorem Capacity.overrun {db : TstDb} (h : Capacity db.size db.cap db.block) (hlt : ARENA_LIMIT < db.size) :
    (ensureEnoughSpace db).block ≤ db.size := by
  generalize hs : db.size = size at h
  generalize hc : db.cap = cap at h
  generalize hb : db.block = block at h
  cases h with
  | doubled k hk h =>
      have hle := (Capacity.doubled k hk h).le
      have hpow : 2 ^ k ≤ 2 ^ 13 := Nat.pow_le_pow_right (by decide) hk
      norm_num at hpow
      unfold ARENA_LIMIT at hlt
      omega
  | wrapped => exact absurd hlt (by rw [hs]; decide)
  | wrappedTwice =>
      have hfull : dec32 db.cap ≤ db.size := by rw [hc, hs]; decide
      rw [(ensureEnoughSpace_full hfull).2, hc]
      norm_num

/-! ## The invariant -/

/-- Free and used nodes are different, all of them within `1..size`. -/
structure NodeUse.Sound (u : NodeUse) (F : List Nat) : Prop where
  free : FreeList u.db.data u.db.fHead F
  nodup : (F ++ u.used).Nodup
  pos : ∀ j ∈ u.used, j ≠ 0
  le : ∀ j ∈ F ++ u.used, j ≤ u.db.size
  capacity : Capacity u.db.size u.db.cap u.db.block

theorem NodeUse.Sound.create (mem : Nat → TstNode) : (NodeUse.create mem).Sound [] :=
  ⟨rfl, List.nodup_nil, fun j hj => absurd hj List.not_mem_nil, fun j hj => absurd hj List.not_mem_nil,
    .doubled 0 (by decide) (show 0 < 409600 * 2 ^ 0 by decide)⟩

theorem newNode_grown {db : TstDb} (h : db.fHead = 0) (hlt : db.size + 1 < UINT32) :
    newNode db = (db.size + 1,
      { (ensureEnoughSpace db).set (db.size + 1) TstNode.zero with size := db.size + 1 }) := by
  rw [newNode, if_pos h]
  simp only [ensureEnoughSpace_size, u32_of_lt hlt]

theorem newNode_reused {db : TstDb} (h : db.fHead ≠ 0) :
    newNode db = (db.fHead, { db.set db.fHead TstNode.zero with fHead := (db.data db.fHead).mid }) := by
  rw [newNode, if_neg h]

theorem NodeUse.Sound.size_lt {u : NodeUse} {F : List Nat} (h : u.Sound F) : u.db.size + 1 < UINT32 :=
  lt_of_le_of_lt (Nat.succ_le_succ h.capacity.le) (by decide)

/-- On a sound arena the allocations that stay inside are those that still can grow. -/
theorem NodeUse.Sound.inside_iff {u : NodeUse} {F : List Nat} (h : u.Sound F) (ev : NodeEvent) :
    u.Inside ev ↔ u.Growable ev := by
  cases ev with
  | alloc =>
      show (newNode u.db).1 < (newNode u.db).2.block ∧ u.db.size + 1 ≤ (newNode u.db).2.block ↔
        u.db.fHead ≠ 0 ∨ u.db.size ≤ ARENA_LIMIT
      have hin := h.capacity.inside
      rcases Classical.em (u.db.fHead = 0) with h0 | h0
      · rw [newNode_grown h0 h.size_lt]
        show u.db.size + 1 < (ensureEnoughSpace u.db).block ∧ u.db.size + 1 ≤ (ensureEnoughSpace u.db).block ↔ _
        constructor
        · rintro ⟨hlt, -⟩
          refine Or.inr (Nat.le_of_not_lt fun hpast => ?_)
          have hover := h.capacity.overrun hpast
          omega
        · rintro (hne | hle)
          · exact absurd h0 hne
          · have hgrown := (h.capacity.grow hle).inside
            exact ⟨hgrown, Nat.le_of_lt hgrown⟩
      · rw [newNode_reused h0]
        show u.db.fHead < u.db.block ∧ u.db.size + 1 ≤ u.db.block ↔ _
        have hmem : u.db.fHead ∈ F := by
          cases F with
          | nil => exact absurd h.free h0
          | cons f F => exact h.free.1 ▸ List.mem_cons_self
        have hle := h.le _ (List.mem_append_left _ hmem)
        exact ⟨fun _ => Or.inl h0, fun _ => ⟨by omega, hin⟩⟩
  | free node => exact Iff.rfl
  | write node n => exact Iff.rfl

/-- Every step that is not the fatal allocation keeps the arena sound. -/
theorem NodeUse.Sound.step {u u' : NodeUse} {F : List Nat} {ev : NodeEvent} (h : u.Sound F)
    (hev : u.Growable ev) (hstep : NodeUse.Step u ev u') : ∃ F', u'.Sound F' := by
  cases hstep with
  | alloc hnum =>
      rcases Classical.em (u.db.fHead = 0) with h0 | h0
      · have hle : u.db.size ≤ ARENA_LIMIT := hev.resolve_left (not_not.mpr h0)
        have hF : F = [] := by
          cases F with
          | nil => rfl
          | cons f F => exact absurd (h.free.1.symm.trans h0) h.free.2.1
        subst hF
        rw [newNode_grown h0 h.size_lt]
        refine ⟨[], ?_, ?_, ?_, ?_, h.capacity.grow hle⟩
        · exact (ensureEnoughSpace_fHead u.db).trans h0
        · refine List.nodup_cons.mpr ⟨fun hmem => ?_, h.nodup⟩
          exact absurd (h.le _ hmem) (Nat.not_succ_le_self _)
        · rintro j (_ | ⟨_, hj⟩)
          · exact Nat.succ_ne_zero _
          · exact h.pos j hj
        · rintro j (_ | ⟨_, hj⟩)
          · exact Nat.le_refl _
          · exact Nat.le_succ_of_le (h.le j hj)
      · cases F with
        | nil => exact absurd h.free h0
        | cons f F =>
            obtain ⟨rfl, hf, hfree⟩ := h.free
            have hnd := List.nodup_cons.mp h.nodup
            rw [newNode_reused h0]
            refine ⟨F, ?_, ?_, ?_, ?_, h.capacity⟩
            · exact hfree.update (fun hm => hnd.1 (List.mem_append_left _ hm)) _
            · exact List.perm_middle.nodup_iff.mpr h.nodup
            · rintro j (_ | ⟨_, hj⟩)
              · exact hf
              · exact h.pos j hj
            · intro j hj
              exact h.le j (List.perm_middle.mem_iff.mp hj)
  | @free node hmem =>
      have hperm : (node :: F ++ u.used.erase node).Perm (F ++ u.used) :=
        (List.perm_middle.symm.trans ((List.perm_cons_erase hmem).symm.append_left F))
      have hnd := List.nodup_append.mp h.nodup
      have hout : node ∉ F := fun hF => hnd.2.2 node hF node hmem rfl
      refine ⟨node :: F, ⟨rfl, h.pos node hmem, ?_⟩, hperm.nodup_iff.mpr h.nodup, ?_, ?_, h.capacity⟩
      · show FreeList (Function.update u.db.data node _) _ F
        rw [freeNode, TstDb.set_data]
        simp only [Function.update_self]
        exact h.free.update hout _
      · exact fun j hj => h.pos j (List.mem_of_mem_erase hj)
      · exact fun j hj => h.le j (hperm.mem_iff.mp hj)
  | @write node n hmem =>
      have hnd := List.nodup_append.mp h.nodup
      have hout : node ∉ F := fun hF => hnd.2.2 node hF node hmem rfl
      exact ⟨F, h.free.update hout n, h.nodup, h.pos, h.le, h.capacity⟩

/-! ## Whole runs -/

/-- From a sound arena a run meets the one condition when it meets the other. -/
theorem NodeUse.Sound.meets_iff {u : NodeUse} {F : List Nat} (h : u.Sound F) (evs : List NodeEvent) :
    Meets NodeUse.Step NodeUse.Inside u evs ↔ Meets NodeUse.Step NodeUse.Growable u evs := by
  refine Meets.congr (I := fun u => ∃ F, u.Sound F) ?_ ?_ ⟨F, h⟩
  · rintro u ev ⟨F, h⟩
    exact h.inside_iff ev
  · rintro u ev u' ⟨F, h⟩ hev hstep
    exact h.step hev hstep

/-- A run hands out places inside the block exactly as long as no fresh node is
numbered when `size` is past `ARENA_LIMIT`. -/
theorem new_node_inside (mem : Nat → TstNode) (evs : List NodeEvent) :
    Meets NodeUse.Step NodeUse.Inside (NodeUse.create mem) evs ↔
      Meets NodeUse.Step NodeUse.Growable (NodeUse.create mem) evs :=
  (NodeUse.Sound.create mem).meets_iff evs

/-- Allocations alone get to the limit. -/
theorem not_growable_replicate : ∀ (n : Nat) (u : NodeUse), u.db.fHead = 0 → u.db.size ≤ ARENA_LIMIT + 1 →
    ARENA_LIMIT + 1 < u.db.size + n → ¬Meets NodeUse.Step NodeUse.Growable u (List.replicate n .alloc) := by
  intro n
  induction n with
  | zero => intro u _ hle hlt; omega
  | succ n ih =>
      intro u h0 hle hlt hm
      obtain ⟨hgrow, hrest⟩ := hm
      have hsize : u.db.size ≤ ARENA_LIMIT := hgrow.resolve_left (not_not.mpr h0)
      have hnum : u.db.size + 1 < UINT32 := lt_of_le_of_lt (Nat.succ_le_succ hsize) (by decide)
      have hnext := hrest _ (.alloc (Or.inr hnum))
      rw [newNode_grown h0 hnum] at hnext
      exact ih _ ((ensureEnoughSpace_fHead u.db).trans h0) (Nat.succ_le_succ hsize)
        (by show ARENA_LIMIT + 1 < u.db.size + 1 + n; omega) hnext

/-- With nothing freed, the allocation after `3355443201` others is not inside. -/
theorem new_node_outside : ¬ ∀ (mem : Nat → TstNode) (evs : List NodeEvent),
    Meets NodeUse.Step NodeUse.Inside (NodeUse.create mem) evs := by
  intro H
  have hm := ((NodeUse.Sound.create fun _ => TstNode.zero).meets_iff _).mp
    (H (fun _ => TstNode.zero) (List.replicate (ARENA_LIMIT + 2) .alloc))
  exact not_growable_replicate _ _ rfl (Nat.zero_le _) (by show ARENA_LIMIT + 1 < 0 + (ARENA_LIMIT + 2); omega) hm

end Tstdb
