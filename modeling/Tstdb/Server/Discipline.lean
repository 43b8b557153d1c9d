/-
# `Tstdb.Server.Discipline` — the buffer pool under disciplined use

The free list is threaded through the same `next` fields that callers chain their
buffers with.  A caller may ask for a buffer as long as one is left beside the last,
may write what it likes into the buffers it has been given, links included, and may
give any of them back, in any order.  That is all the pool asks for: under this
discipline no assertion fails, and the list from `head` and the buffers handed out
are together the buffers of the pool, each of them once.
-/
import Mathlib
import Tstdb.Lib.Chains
import Tstdb.Lib.Runs
import Tstdb.Server.Pool

namespace Tstdb

open Chains Runs

/-- A call on the pool, or what a caller does with a buffer it has been given. -/
inductive PoolEvent where
  | alloc
  | free (buf : Nat)
  /-- The caller fills the buffer and links it as it likes. -/
  | write (buf : Nat) (b : Buffer)

/-- A pool and the buffers that are allocated, the latest first. -/
structure PoolUse where
  bp : Pool
  used : List Nat

def PoolUse.start (nItems : Nat) : PoolUse := ⟨bpNew nItems, []⟩

def PoolUse.exec (u : PoolUse) : PoolEvent → Except Halt PoolUse
  | .alloc => do
      let (buf, bp) ← allocBuf u.bp
      return ⟨bp, buf :: u.used⟩
  | .free buf => do return ⟨← freeBuf u.bp buf, u.used.erase buf⟩
  | .write buf b => .ok ⟨u.bp.set buf b, u.used⟩

/-- One buffer stays back, and callers touch only buffers of their own. -/
def PoolUse.disciplined (u : PoolUse) : PoolEvent → Prop
  | .alloc => u.used.length + 1 ≤ u.bp.nItems - 1
  | .free buf | .write buf _ => buf ∈ u.used

instance (u : PoolUse) : (e : PoolEvent) → Decidable (u.disciplined e)
  | .alloc => inferInstanceAs (Decidable (_ ≤ _))
  | .free buf => inferInstanceAs (Decidable (buf ∈ u.used))
  | .write buf _ => inferInstanceAs (Decidable (buf ∈ u.used))

def PoolStep (u : PoolUse) (e : PoolEvent) (u' : PoolUse) : Prop := u.exec e = .ok u'

/-- The list from `head` through `next` is `free`, and with the allocated buffers it
makes up the pool. -/
structure PoolUse.Sound (n : Nat) (u : PoolUse) (free : List Nat) : Prop where
  size : u.bp.nItems = n
  chain : Chain (fun i => (u.bp.base i).next) u.bp.head free
  /-- The last buffer is never taken. -/
  spare : free ≠ []
  perm : (free ++ u.used).Perm (List.range n)

/-! ## The fresh pool -/

theorem bpNew_next (n i : Nat) : ((bpNew n).base i).next = if i + 1 < n then some (i + 1) else none := rfl

theorem bpNew_chain (n : Nat) : ∀ k i : Nat, i + k = n → 0 < k →
    Chain (fun j => ((bpNew n).base j).next) (some i) (List.range' i k) := by
  intro k
  induction k with
  | zero => intro i _ h; exact absurd h (by omega)
  | succ k ih =>
      intro i hi _
      rw [List.range'_succ]
      refine ⟨rfl, ?_⟩
      simp only [bpNew_next]
      rcases Nat.eq_zero_or_pos k with rfl | hk
      · rw [if_neg (by omega)]
        rfl
      · rw [if_pos (by omega)]
        exact ih (i + 1) (by omega) hk

theorem sound_start {n : Nat} (hn : 0 < n) : (PoolUse.start n).Sound n (List.range n) := by
  refine ⟨rfl, ?_, by simp [hn.ne'], ?_⟩
  · rw [List.range_eq_range']
    exact bpNew_chain n n 0 (Nat.zero_add n) hn
  · rw [PoolUse.start, List.append_nil]

/-! ## One call -/

section Calls

variable {n : Nat} {u : PoolUse} {free : List Nat}

theorem Pool.set_base (bp : Pool) (i : Nat) (b : Buffer) (j : Nat) :
    ((bp.set i b).base j) = if j = i then b else bp.base j := by
  simp only [Pool.set, Function.update_apply]

/-- A pool without its first free buffer, which is emptied. -/
def Pool.take (bp : Pool) (a : Nat) : Pool := { bp.set a ⟨[], none⟩ with head := (bp.base a).next }

theorem Pool.take_base (bp : Pool) (a : Nat) : (bp.take a).base a = ⟨[], none⟩ := by
  rw [Pool.take]
  exact (Pool.set_base bp a ⟨[], none⟩ a).trans (if_pos rfl)

/-- The links of a list are not touched by what happens to a buffer outside it. -/
theorem Pool.chain_set {bp : Pool} {head : Option Nat} {l : List Nat} {buf : Nat}
    (h : Chain (fun i => (bp.base i).next) head l) (hbuf : buf ∉ l) (b : Buffer) :
    Chain (fun i => ((bp.set buf b).base i).next) head l := by
  refine h.congr fun i hi => ?_
  have hne : i ≠ buf := fun e => hbuf (e ▸ hi)
  simp only [Pool.set_base, if_neg hne]

theorem PoolUse.Sound.nodup (h : u.Sound n free) : (free ++ u.used).Nodup :=
  h.perm.nodup_iff.mpr List.nodup_range

theorem PoolUse.Sound.count (h : u.Sound n free) : free.length + u.used.length = n := by
  have hl := h.perm.length_eq
  rwa [List.length_append, List.length_range] at hl

/-- No buffer is both on the list and allocated. -/
theorem PoolUse.Sound.apart (h : u.Sound n free) {buf : Nat} (hu : buf ∈ u.used) : buf ∉ free := fun hf =>
  (List.nodup_append.mp h.nodup).2.2 buf hf buf hu rfl

/-- Beside the buffer that is handed out another one stays on the list. -/
theorem alloc_sound (h : u.Sound n free) (hd : u.disciplined .alloc) :
    ∃ buf rest, free = buf :: rest ∧ allocBuf u.bp = .ok (buf, u.bp.take buf) ∧
      PoolUse.Sound n ⟨u.bp.take buf, buf :: u.used⟩ rest := by
  have hcount := h.count
  have hd : u.used.length + 1 ≤ n - 1 := h.size ▸ hd
  match free, h, hcount with
  | [], _, hcount => exact absurd hcount (by simp only [List.length_nil]; omega)
  | [_], _, hcount => exact absurd hcount (by simp only [List.length_singleton]; omega)
  | buf :: next :: rest, h, _ =>
      obtain ⟨hhead, hnext, htail⟩ := h.chain
      have hbuf : buf ∉ next :: rest := (List.nodup_cons.mp (List.nodup_append.mp h.nodup).1).1
      refine ⟨buf, next :: rest, rfl, ?_, h.size, ?_, List.cons_ne_nil next rest, ?_⟩
      · simp only [allocBuf, hhead]
        rw [show (u.bp.base buf).next = some next from hnext, Pool.take,
          show (u.bp.base buf).next = some next from hnext]
      · have hc : Chain (fun i => (u.bp.base i).next) (u.bp.base buf).next (next :: rest) := ⟨hnext, htail⟩
        exact Pool.chain_set hc hbuf _
      · exact List.perm_middle.trans h.perm

/-- A buffer that is given back goes to the front of the list. -/
theorem free_sound (h : u.Sound n free) {buf : Nat} (hu : buf ∈ u.used) :
    ∃ bp, freeBuf u.bp buf = .ok bp ∧ PoolUse.Sound n ⟨bp, u.used.erase buf⟩ (buf :: free) := by
  obtain ⟨head, rest, rfl⟩ := List.exists_cons_of_ne_nil h.spare
  have hhead : u.bp.head = some head := h.chain.1
  refine ⟨{ u.bp.set buf ⟨[], some head⟩ with head := some buf }, ?_, h.size, ⟨rfl, ?_⟩, List.cons_ne_nil _ _, ?_⟩
  · simp only [freeBuf, hhead]
  · have hc := Pool.chain_set h.chain (h.apart hu) ⟨[], some head⟩
    rw [hhead] at hc
    have hlink : ((u.bp.set buf ⟨[], some head⟩).base buf).next = some head := by rw [Pool.set_base, if_pos rfl]
    have hback : Chain (fun i => ((u.bp.set buf ⟨[], some head⟩).base i).next)
        ((u.bp.set buf ⟨[], some head⟩).base buf).next (head :: rest) := by
      rw [hlink]
      exact hc
    exact hback
  · refine List.Perm.trans ?_ h.perm
    exact List.perm_middle.symm.trans (List.Perm.append_left _ (List.perm_cons_erase hu).symm)

/-- What callers write into their own buffers is not on the list. -/
theorem write_sound (h : u.Sound n free) {buf : Nat} (hu : buf ∈ u.used) (b : Buffer) :
    PoolUse.Sound n ⟨u.bp.set buf b, u.used⟩ free :=
  ⟨h.size, Pool.chain_set h.chain (h.apart hu) b, h.spare, h.perm⟩

/-- No disciplined call fails, and it leaves the pool as it should be. -/
theorem exec_sound (h : u.Sound n free) {e : PoolEvent} (hd : u.disciplined e) :
    ∃ u', PoolStep u e u' ∧ ∃ free', u'.Sound n free' := by
  cases e with
  | alloc =>
      obtain ⟨buf, rest, -, ha, hs⟩ := alloc_sound h hd
      exact ⟨_, by rw [PoolStep, PoolUse.exec, ha]; rfl, rest, hs⟩
  | free buf =>
      obtain ⟨bp, hf, hs⟩ := free_sound h hd
      exact ⟨_, by rw [PoolStep, PoolUse.exec, hf]; rfl, _, hs⟩
  | write buf b => exact ⟨_, rfl, free, write_sound h hd b⟩

end Calls

/-! ## Whole runs -/

/-- A pool of any size under any disciplined use: every call returns, the list from
`head` ends and holds no buffer twice, it makes up the pool together with the
allocated buffers, and the buffer that is handed out next is one of the pool that is
not in use, empty and linked to nothing. -/
theorem pool_discipline {n : Nat} (hn : 0 < n) (es : List PoolEvent)
    (h : Meets PoolStep PoolUse.disciplined (PoolUse.start n) es) :
    ∃ u, Run PoolStep (PoolUse.start n) es u ∧
      (∃ free, Chain (fun i => (u.bp.base i).next) u.bp.head free ∧ free.Nodup ∧
        (free ++ u.used).Perm (List.range n)) ∧
      (u.disciplined .alloc → ∃ buf bp, allocBuf u.bp = .ok (buf, bp) ∧ buf < n ∧ buf ∉ u.used ∧
        (bp.base buf).size = 0 ∧ (bp.base buf).next = none) := by
  obtain ⟨u, hr, free, hs⟩ := Meets.simulates (R := fun u (_ : Unit) => ∃ free, PoolUse.Sound n u free)
    (fun _ _ => ()) (fun u _ e ⟨free, hs⟩ hd => exec_sound hs hd) es _ () ⟨_, sound_start hn⟩ h
  refine ⟨u, hr, ⟨free, hs.chain, (List.nodup_append.mp hs.nodup).1, hs.perm⟩, fun hd => ?_⟩
  obtain ⟨buf, rest, hfree, ha, -⟩ := alloc_sound hs hd
  have hmem : buf ∈ free := by rw [hfree]; exact List.mem_cons_self
  refine ⟨buf, _, ha, ?_, fun hu => hs.apart hu hmem, ?_, ?_⟩
  · exact List.mem_range.mp (hs.perm.subset (List.mem_append_left _ hmem))
  · rw [Pool.take_base]
    rfl
  · rw [Pool.take_base]

/-- Four buffers: two are taken, relinked into a chain and filled, and the first goes
back before the second. -/
theorem pool_discipline_relinked : ∃ u, Run PoolStep (PoolUse.start 4)
    [.alloc, .alloc, .write 0 ⟨[7], some 1⟩, .free 0, .alloc] u ∧
    (∃ free, Chain (fun i => (u.bp.base i).next) u.bp.head free ∧ free.Nodup ∧
      (free ++ u.used).Perm (List.range 4)) ∧
    (u.disciplined .alloc → ∃ buf bp, allocBuf u.bp = .ok (buf, bp) ∧ buf < 4 ∧ buf ∉ u.used ∧
      (bp.base buf).size = 0 ∧ (bp.base buf).next = none) := by
  refine pool_discipline (by decide) _ ?_
  refine ⟨by decide, fun _ h => ?_⟩
  obtain rfl := Except.ok.inj h
  refine ⟨by decide, fun _ h => ?_⟩
  obtain rfl := Except.ok.inj h
  refine ⟨by decide, fun _ h => ?_⟩
  obtain rfl := Except.ok.inj h
  refine ⟨by decide, fun _ h => ?_⟩
  obtain rfl := Except.ok.inj h
  exact ⟨by decide, fun _ _ => trivial⟩

end Tstdb
