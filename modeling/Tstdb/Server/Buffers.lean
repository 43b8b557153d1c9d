/-
# `Tstdb.Server.Buffers` — who holds which buffer

Every buffer of a worker's pool is on the free list or in the input or the output
chain of one connection.  `Ledger` says so of the pointers and indices the code keeps;
`Queues` forgets the buffers and says what bytes are queued where, chunk by chunk.
Each function of the pool is described by what it does to the queues, so all that
relinking is done behind `Queues`, and what is above it works on lists of chunks.

The result on runs is `worker_buffers`: whatever events a worker takes, in whatever
order, no buffer is lost, shared or held by a connection that is gone.
-/
import Mathlib
import Tstdb.Lib.Runs
import Tstdb.Lib.CText
import Tstdb.Lib.Bytes
import Tstdb.Lib.Chains
import Tstdb.Lib.Outcome
import Tstdb.Tst.Arena
import Tstdb.Tst.Runs
import Tstdb.Server.Index
import Tstdb.Server.Store
import Tstdb.Server.Pool
import Tstdb.Server.Discipline

namespace Tstdb

open CText Bytes Chains Outcome Runs

/-- The lists a buffer can be in. -/
inductive Owner where
  | free
  | input (fd : Nat)
  | output (fd : Nat)
deriving DecidableEq

def heads (bp : Pool) (io : Nat → IoData) : Owner → Option Nat
  | .free => bp.head
  | .input fd => (io fd).inBufHead
  | .output fd => (io fd).outBufHead

/-- The free list has no tail. -/
def tails (io : Nat → IoData) : Owner → Option Nat
  | .free => none
  | .input fd => (io fd).inBufTail
  | .output fd => (io fd).outBufTail

/-- The chains are disjoint and hold every buffer, and the tails are their last buffers. -/
structure Ledger (N : Nat) (bp : Pool) (io : Nat → IoData) (own : Owner → List Nat) : Prop where
  size : bp.nItems = N
  owned : Owned (· < N) (fun i => (bp.base i).next) (heads bp io) own
  tail : ∀ x, x ≠ .free → tails io x = (own x).getLast?
  /-- The last buffer is never taken. -/
  spare : own .free ≠ []

def Pool.chunks (bp : Pool) (l : List Nat) : List (List UInt8) := l.map fun i => (bp.base i).data

/-- What is queued, chunk by chunk. -/
def Queues (N : Nat) (bp : Pool) (io : Nat → IoData) (q : Owner → List (List UInt8)) : Prop :=
  ∃ own, Ledger N bp io own ∧ ∀ x, x ≠ .free → bp.chunks (own x) = q x

def Halt.excused : Halt → Prop
  | .exhausted | .handler _ => True
  | _ => False

/-- No buffer but the last one is free. -/
def Scarce (N : Nat) (bp : Pool) (io : Nat → IoData) (q : Owner → List (List UInt8)) : Prop :=
  ∃ own, Ledger N bp io own ∧ (∀ x, x ≠ .free → bp.chunks (own x) = q x) ∧ (own .free).length ≤ 1

theorem Pool.chunks_congr {bp bp' : Pool} {l : List Nat} (h : ∀ i ∈ l, (bp'.base i).data = (bp.base i).data) :
    bp'.chunks l = bp.chunks l := List.map_congr_left h

/-! ## The two moves -/

section Moves

variable {N : Nat} {bp bp' : Pool} {io io' : Nat → IoData} {own : Owner → List Nat} {x : Owner} {a : Nat} {l : List Nat}

/-- The first free buffer becomes the last of a chain. -/
theorem Ledger.pass (h : Ledger N bp io own) (hx : x ≠ .free) (hf : own .free = a :: l) (hl : l ≠ []) (hn : bp'.nItems = bp.nItems)
    (hnext : ∀ b, (bp'.base b).next
      = if (own x).getLast? = some b then some a else if b = a then none else (bp.base b).next)
    (hfree : bp'.head = (bp.base a).next)
    (hhead : heads bp' io' x = if own x = [] then some a else heads bp io x) (htail : tails io' x = some a)
    (hother : ∀ y, y ≠ .free → y ≠ x → heads bp' io' y = heads bp io y ∧ tails io' y = tails io y) :
    Ledger N bp' io' (Function.update (Function.update own .free l) x (own x ++ [a])) := by
  have haf : a ∈ own .free := by rw [hf]; exact List.mem_cons_self
  have hax : (own x).getLast? ≠ some a := fun e =>
    hx (h.owned.disjoint (List.mem_of_getLast? e) haf)
  refine ⟨hn.trans h.size, ?_, fun y hy => ?_, ?_⟩
  · refine h.owned.pass (Ne.symm hx) hf ?_ ?_ ?_ hfree hhead fun y hy hy' => (hother y hy hy').1
    · intro b hb hb'
      simp only [hnext, if_neg hb, if_neg hb']
    · intro t ht
      simp only [hnext, if_pos (Option.mem_def.mp ht)]
    · simp only [hnext, if_neg hax, if_true]
  · simp only [Function.update_apply]
    split_ifs with h₁
    · subst h₁
      rw [htail, List.getLast?_append_of_ne_nil _ (List.cons_ne_nil a [])]
      rfl
    · rw [(hother y hy h₁).2, h.tail y hy]
  · rw [Function.update_of_ne (Ne.symm hx), Function.update_self]
    exact hl

/-- The first buffer of a chain becomes the first free one. -/
theorem Ledger.release (h : Ledger N bp io own) (hx : x ≠ .free) (hf : own x = a :: l) (hn : bp'.nItems = bp.nItems)
    (hnext : ∀ b, (bp'.base b).next = if b = a then bp.head else (bp.base b).next)
    (hfree : bp'.head = some a) (hhead : heads bp' io' x = (bp.base a).next)
    (htail : tails io' x = if l = [] then none else tails io x)
    (hother : ∀ y, y ≠ .free → y ≠ x → heads bp' io' y = heads bp io y ∧ tails io' y = tails io y) :
    Ledger N bp' io' (Function.update (Function.update own x l) .free (a :: own .free)) := by
  refine ⟨hn.trans h.size, ?_, fun y hy => ?_, ?_⟩
  · refine h.owned.release hx hf ?_ ?_ hhead hfree fun y hy hy' => (hother y hy' hy).1
    · intro b hb
      simp only [hnext, if_neg hb]
    · simp only [hnext, if_true]
      rfl
  · rw [Function.update_of_ne hy, Function.update_apply]
    split_ifs with h₁
    · subst h₁
      rw [htail, h.tail y hx, hf]
      cases l with
      | nil => rfl
      | cons b l => rw [if_neg (List.cons_ne_nil b l), List.getLast?_cons_cons]
    · rw [(hother y hy h₁).2, h.tail y hy]
  · rw [Function.update_self]
    exact List.cons_ne_nil a _

/-- Writing to the data of a buffer moves nothing. -/
theorem Ledger.setData (h : Ledger N bp io own) (i : Nat) (data : List UInt8) :
    Ledger N (bp.set i { bp.base i with data := data }) io own := by
  refine ⟨h.size, ?_, h.tail, h.spare⟩
  have hnext : (fun j => ((bp.set i { bp.base i with data := data }).base j).next) = fun j => (bp.base j).next := by
    funext j
    rw [Pool.set_base]
    split_ifs with hj
    · rw [hj]
    · rfl
  have hheads : heads (bp.set i { bp.base i with data := data }) io = heads bp io := by
    funext y
    cases y <;> rfl
  rw [hnext, hheads]
  exact h.owned

/-- The first cell of a chain is its head, and the next one follows it. -/
theorem Ledger.head_cons (h : Ledger N bp io own) {x : Owner} (hx : own x = a :: l) :
    heads bp io x = some a ∧ (bp.base a).next = l.head? := by
  have hc := h.owned.chain x
  rw [hx] at hc
  exact ⟨hc.1, hc.2.head_eq⟩

theorem Ledger.head_nil (h : Ledger N bp io own) {x : Owner} : heads bp io x = none ↔ own x = [] := by
  have hc := h.owned.chain x
  constructor
  · intro hn
    cases ho : own x with
    | nil => rfl
    | cons a l => rw [ho] at hc; exact absurd (hn.symm.trans hc.1) (by simp)
  · intro ho
    rw [ho] at hc
    exact hc

/-- A buffer is handed out, or there is none but the last one. -/
theorem allocBuf_ends (h : Ledger N bp io own) :
    Ends (fun e => e = .exhausted ∧ (own .free).length ≤ 1)
      (fun r => ∃ a l, own .free = a :: l ∧ l ≠ [] ∧ r = (a, bp.take a)) (allocBuf bp) := by
  have hc := h.owned.chain .free
  unfold allocBuf
  cases hl : own .free with
  | nil => exact absurd hl h.spare
  | cons a l =>
      rw [hl] at hc
      rw [show bp.head = some a from hc.1]
      cases l with
      | nil =>
          simp only [show (bp.base a).next = none from hc.2]
          exact ⟨rfl, le_refl _⟩
      | cons b l =>
          simp only [show (bp.base a).next = some b from hc.2.1]
          exact ⟨a, b :: l, rfl, List.cons_ne_nil b l, by rw [Pool.take, show (bp.base a).next = some b from hc.2.1]⟩

end Moves

/-! ## One connection's functions -/

section Conn

variable {N : Nat} {bp bp' : Pool} {io : Nat → IoData} {fd : Nat} {p p' : IoData} {q : Owner → List (List UInt8)}
  {own : Owner → List Nat}

theorem heads_input : heads bp (Function.update io fd p) (.input fd) = p.inBufHead := by
  rw [heads, Function.update_self]

theorem tails_input : tails (Function.update io fd p) (.input fd) = p.inBufTail := by
  rw [tails, Function.update_self]

theorem heads_output : heads bp (Function.update io fd p) (.output fd) = p.outBufHead := by
  rw [heads, Function.update_self]

theorem tails_output : tails (Function.update io fd p) (.output fd) = p.outBufTail := by
  rw [tails, Function.update_self]

/-- A change of the input pointers leaves the other chains alone. -/
theorem other_input (h : p'.outBufHead = p.outBufHead) (h' : p'.outBufTail = p.outBufTail) (y : Owner)
    (hf : y ≠ .free) (hy : y ≠ .input fd) :
    heads bp' (Function.update io fd p') y = heads bp (Function.update io fd p) y ∧
      tails (Function.update io fd p') y = tails (Function.update io fd p) y := by
  cases y with
  | free => exact absurd rfl hf
  | input s =>
      have hs : s ≠ fd := fun e => hy (by rw [e])
      simp only [heads, tails, Function.update_of_ne hs, and_self]
  | output s =>
      simp only [heads, tails, Function.update_apply]
      split_ifs
      · exact ⟨h, h'⟩
      · exact ⟨rfl, rfl⟩

theorem other_output (h : p'.inBufHead = p.inBufHead) (h' : p'.inBufTail = p.inBufTail) (y : Owner)
    (hf : y ≠ .free) (hy : y ≠ .output fd) :
    heads bp' (Function.update io fd p') y = heads bp (Function.update io fd p) y ∧
      tails (Function.update io fd p') y = tails (Function.update io fd p) y := by
  cases y with
  | free => exact absurd rfl hf
  | output s =>
      have hs : s ≠ fd := fun e => hy (by rw [e])
      simp only [heads, tails, Function.update_of_ne hs, and_self]
  | input s =>
      simp only [heads, tails, Function.update_apply]
      split_ifs
      · exact ⟨h, h'⟩
      · exact ⟨rfl, rfl⟩

/-- A new buffer behind a chain: it is empty and linked from the last one. -/
def Pool.linkBehind (bp : Pool) (tail : Option Nat) (a : Nat) : Pool :=
  match tail with
  | none => bp
  | some t => bp.set t { bp.base t with next := some a }

theorem linkBehind_next {x : Owner} {a : Nat} {l : List Nat} (h : Ledger N bp io own) (hx : x ≠ .free)
    (hf : own .free = a :: l) (b : Nat) :
    ((((bp.take a).linkBehind (own x).getLast? a)).base b).next
      = if (own x).getLast? = some b then some a else if b = a then none else (bp.base b).next := by
  cases ht : (own x).getLast? with
  | none =>
      simp only [Pool.linkBehind, Pool.take, Pool.set_base, reduceCtorEq, if_false]
      split_ifs <;> rfl
  | some t =>
      have hta : t ≠ a := fun e => hx (h.owned.disjoint (List.mem_of_getLast? ht) (by
        rw [hf, e]; exact List.mem_cons_self))
      simp only [Pool.linkBehind, Pool.set_base, Option.some.injEq, eq_comm (a := t)]
      split_ifs with h₁ h₂
      · rfl
      · simp only [Pool.take, Pool.set_base, if_pos h₂]
      · simp only [Pool.take, Pool.set_base, if_neg h₂]

theorem linkBehind_data {tail : Option Nat} {a b : Nat} :
    (((bp.take a).linkBehind tail a).base b).data = if b = a then [] else (bp.base b).data := by
  have htake : ((bp.take a).base b).data = if b = a then [] else (bp.base b).data := by
    simp only [Pool.take, Pool.set_base]
    split_ifs <;> rfl
  rw [← htake]
  cases tail with
  | none => rfl
  | some t =>
      simp only [Pool.linkBehind, Pool.set_base]
      split_ifs with h
      · rw [h]
      · rfl

theorem heads_pool (bp bp' : Pool) (io : Nat → IoData) {x : Owner} (hx : x ≠ .free) :
    heads bp' io x = heads bp io x := by
  cases x with
  | free => exact absurd rfl hx
  | input s => rfl
  | output s => rfl

/-- Queue a chunk in a new buffer. -/
theorem Ledger.push {io' : Nat → IoData} {x : Owner} {a : Nat} {l : List Nat} (h : Ledger N bp io own)
    (hq : ∀ y, y ≠ .free → bp.chunks (own y) = q y) (hx : x ≠ .free) (hf : own .free = a :: l)
    (hne' : l ≠ []) (data : List UInt8) (hhead : heads bp io' x = if own x = [] then some a else heads bp io x)
    (htail : tails io' x = some a)
    (hother : ∀ y, y ≠ .free → y ≠ x → heads bp io' y = heads bp io y ∧ tails io' y = tails io y)
    {bp₁ : Pool} (hbp : bp₁ = (bp.take a).linkBehind (own x).getLast? a) :
    ∃ own', own' x = own x ++ [a] ∧ Ledger N (bp₁.set a { bp₁.base a with data := data }) io' own' ∧
      ∀ y, y ≠ .free → Pool.chunks (bp₁.set a { bp₁.base a with data := data }) (own' y)
        = Function.update q x (q x ++ [data]) y := by
  subst hbp
  have haf : a ∈ own .free := by rw [hf]; exact List.mem_cons_self
  have hne : ∀ y, y ≠ .free → ∀ i ∈ own y, i ≠ a := fun y hy i hi => h.owned.ne_of_mem hi haf hy
  have hpass := h.pass hx hf hne'
    (by cases (own x).getLast? <;> rfl) (linkBehind_next h hx hf) (by cases (own x).getLast? <;> rfl)
    (by rw [heads_pool bp _ _ hx, hhead]) htail
    (fun y hy hy' => by rw [heads_pool bp _ _ hy]; exact hother y hy hy')
  refine ⟨_, Function.update_self _ _ _, hpass.setData a data, fun y hy => ?_⟩
  have hsame : ∀ z, z ≠ .free → ∀ i ∈ own z, (((((bp.take a).linkBehind (own x).getLast? a)).set a
      { ((bp.take a).linkBehind (own x).getLast? a).base a with data := data }).base i).data
        = (bp.base i).data := by
    intro z hz i hi
    rw [Pool.set_base, if_neg (hne z hz i hi), linkBehind_data, if_neg (hne z hz i hi)]
  rcases eq_or_ne y x with rfl | hyx
  · rw [Function.update_self, Function.update_self, ← hq y hy]
    have hlast : (Pool.chunks ((((bp.take a).linkBehind (own y).getLast? a)).set a
        { ((bp.take a).linkBehind (own y).getLast? a).base a with data := data }) [a]) = [data] := by
      simp only [Pool.chunks, List.map_cons, List.map_nil, Pool.set_base, if_true]
    rw [← hlast, ← Pool.chunks_congr (hsame y hy)]
    exact List.map_append
  · rw [Function.update_of_ne hyx, Function.update_of_ne hyx, Function.update_of_ne hy, ← hq y hy]
    exact Pool.chunks_congr (hsame y hy)

theorem Ledger.tail_input (h : Ledger N bp (Function.update io fd p) own) :
    p.inBufTail = (own (.input fd)).getLast? := by
  rw [← h.tail (.input fd) (by simp), tails_input]

theorem Ledger.tail_output (h : Ledger N bp (Function.update io fd p) own) :
    p.outBufTail = (own (.output fd)).getLast? := by
  rw [← h.tail (.output fd) (by simp), tails_output]

theorem Ledger.inBufHead_eq_none (h : Ledger N bp (Function.update io fd p) own) :
    p.inBufHead = none ↔ own (.input fd) = [] := by
  rw [← h.head_nil (x := .input fd), heads_input]

theorem Ledger.outBufHead_eq_none (h : Ledger N bp (Function.update io fd p) own) :
    p.outBufHead = none ↔ own (.output fd) = [] := by
  rw [← h.head_nil (x := .output fd), heads_output]

/-- The bytes one `recv` brings. -/
def Recv.got : Recv → List UInt8
  | .bytes c => c.bytes
  | _ => []

/-- Other fields than the pointers into the input chain are the same. -/
structure SameButInput (p p' : IoData) : Prop where
  headerLen : p'.headerLen = p.headerLen
  bodyLen : p'.bodyLen = p.bodyLen
  isWriteCmd : p'.isWriteCmd = p.isWriteCmd
  outBufHead : p'.outBufHead = p.outBufHead
  outBufTail : p'.outBufTail = p.outBufTail

/-- What a linked buffer is, for the pool `bp` and the owners `own` before it was taken. -/
structure Linked (bp : Pool) (own : Owner → List Nat) (x : Owner) (a : Nat) (bp' : Pool) : Prop where
  first : ∃ l, own .free = a :: l ∧ l ≠ []
  pool : bp' = (bp.take a).linkBehind (own x).getLast? a

theorem linkInBuf_ends (h : Ledger N bp (Function.update io fd p) own) :
    Ends (fun e => e = .exhausted ∧ (own .free).length ≤ 1) (fun r => Linked bp own (.input fd) r.1 r.2.1 ∧ SameButInput p r.2.2 ∧
        r.2.2.inBufLen = p.inBufLen ∧ r.2.2.inBufTail = some r.1 ∧
        r.2.2.inBufHead = if own (.input fd) = [] then some r.1 else p.inBufHead) (linkInBuf bp p) := by
  refine (allocBuf_ends h).bind ?_
  rintro _ ⟨a, l, hf, hne', rfl⟩
  have ht := h.tail_input
  simp only
  cases hlast : (own (.input fd)).getLast? with
  | none =>
      rw [ht, hlast]
      exact ⟨⟨⟨l, hf, hne'⟩, by rw [hlast]; rfl⟩, ⟨rfl, rfl, rfl, rfl, rfl⟩, rfl, rfl,
        (if_pos (List.getLast?_eq_none_iff.mp hlast)).symm⟩
  | some t =>
      have hne : own (.input fd) ≠ [] := fun e => by rw [e] at hlast; cases hlast
      rw [ht, hlast]
      exact ⟨⟨⟨l, hf, hne'⟩, by rw [hlast]; rfl⟩, ⟨rfl, rfl, rfl, rfl, rfl⟩, rfl, rfl, (if_neg hne).symm⟩

theorem Linked.empty {x : Owner} {a : Nat} (h : Linked bp own x a bp') : (bp'.base a).data = [] := by
  rw [h.pool, linkBehind_data, if_pos rfl]

theorem Pool.set_data_self (bp : Pool) (a : Nat) :
    bp.set a { bp.base a with data := (bp.base a).data } = bp := by
  rw [Pool.set, Function.update_eq_self]

/-- `append_recv_data` queues one chunk, an empty one where nothing came. -/
theorem appendRecvData_ends (h : Queues N bp (Function.update io fd p) q) (recv : Recv) :
    Ends (fun e => e = .exhausted ∧ Scarce N bp (Function.update io fd p) q)
      (fun r => Queues N r.1 (Function.update io fd r.2)
        (Function.update q (.input fd) (q (.input fd) ++ [recv.got])) ∧
      SameButInput p r.2 ∧ r.2.inBufLen = p.inBufLen + recv.got.length) (appendRecvData bp p recv) := by
  obtain ⟨own, hl, hq⟩ := h
  refine ((linkInBuf_ends hl).excuse fun e he => ⟨he.1, own, hl, hq, he.2⟩).bind ?_
  rintro ⟨a, bp₂, p₂⟩ ⟨hlink, hsame, hlen, htail, hhead⟩
  have hpush : ∀ (p₃ : IoData) (data : List UInt8), p₃.inBufHead = p₂.inBufHead → p₃.inBufTail = p₂.inBufTail →
      p₃.outBufHead = p.outBufHead → p₃.outBufTail = p.outBufTail →
      Queues N (bp₂.set a { bp₂.base a with data := data }) (Function.update io fd p₃)
        (Function.update q (.input fd) (q (.input fd) ++ [data])) := by
    intro p₃ data e₁ e₂ e₃ e₄
    obtain ⟨l, hf, hne'⟩ := hlink.first
    obtain ⟨own', -, hpush⟩ := hl.push hq (x := .input fd) (by simp) hf hne' data
      (by rw [heads_input, heads_input, e₁, hhead]) (by rw [tails_input, e₂, htail])
      (fun y hy hy' => other_input e₃ e₄ y hy hy') hlink.pool
    exact ⟨own', hpush⟩
  have hnone : Queues N bp₂ (Function.update io fd p₂) (Function.update q (.input fd) (q (.input fd) ++ [[]])) := by
    have hp := hpush p₂ [] rfl rfl hsame.outBufHead hsame.outBufTail
    rwa [← hlink.empty, Pool.set_data_self, hlink.empty] at hp
  cases recv with
  | bytes c =>
      refine ⟨hpush _ c.bytes rfl rfl hsame.outBufHead hsame.outBufTail, ?_, ?_⟩
      · exact ⟨hsame.headerLen, hsame.bodyLen, hsame.isWriteCmd, hsame.outBufHead, hsame.outBufTail⟩
      · show p₂.inBufLen + c.bytes.length = p.inBufLen + c.bytes.length
        rw [hlen]
  | again => exact ⟨hnone, hsame, by simpa [Recv.got] using hlen⟩
  | failed => exact ⟨hnone, hsame, by simpa [Recv.got] using hlen⟩

/-- Other fields than the pointers into the output chain are the same. -/
structure SameButOutput (p p' : IoData) : Prop where
  headerLen : p'.headerLen = p.headerLen
  bodyLen : p'.bodyLen = p.bodyLen
  isWriteCmd : p'.isWriteCmd = p.isWriteCmd
  inBufHead : p'.inBufHead = p.inBufHead
  inBufTail : p'.inBufTail = p.inBufTail
  inBufLen : p'.inBufLen = p.inBufLen

theorem SameButOutput.refl (p : IoData) : SameButOutput p p := ⟨rfl, rfl, rfl, rfl, rfl, rfl⟩

theorem SameButOutput.trans {p₁ p₂ p₃ : IoData} (h : SameButOutput p₁ p₂) (h' : SameButOutput p₂ p₃) :
    SameButOutput p₁ p₃ :=
  ⟨h'.headerLen.trans h.headerLen, h'.bodyLen.trans h.bodyLen, h'.isWriteCmd.trans h.isWriteCmd,
    h'.inBufHead.trans h.inBufHead, h'.inBufTail.trans h.inBufTail, h'.inBufLen.trans h.inBufLen⟩

/-- The connection's output ends in the buffer `a`, and `cs` are the chunks before it. -/
def LastOut (N : Nat) (bp : Pool) (io : Nat → IoData) (fd : Nat) (q : Owner → List (List UInt8)) (a : Nat)
    (cs : List (List UInt8)) : Prop :=
  ∃ own l, own (.output fd) = l ++ [a] ∧ bp.chunks l = cs ∧ Ledger N bp io own ∧
    ∀ y, y ≠ .free → bp.chunks (own y) = q y

theorem linkOutBuf_ends (h : Queues N bp (Function.update io fd p) q) :
    Ends (fun e => e = .exhausted ∧ Scarce N bp (Function.update io fd p) q)
      (fun r => SameButOutput p r.2.2 ∧ (r.2.1.base r.1).data = [] ∧
      LastOut N r.2.1 (Function.update io fd r.2.2) fd
        (Function.update q (.output fd) (q (.output fd) ++ [[]])) r.1 (q (.output fd))) (linkOutBuf bp p) := by
  obtain ⟨own, hl, hq⟩ := h
  refine ((allocBuf_ends hl).excuse fun e he => ⟨he.1, own, hl, hq, he.2⟩).bind ?_
  rintro _ ⟨a, l, hf, hne', rfl⟩
  have haf : a ∈ own .free := by rw [hf]; exact List.mem_cons_self
  have ht := hl.tail_output
  have hpush : ∀ (bp₂ : Pool) (p₂ : IoData), bp₂ = (bp.take a).linkBehind (own (.output fd)).getLast? a →
      p₂.outBufHead = (if own (.output fd) = [] then some a else p.outBufHead) → p₂.outBufTail = some a →
      SameButOutput p p₂ → (bp₂.base a).data = [] ∧ LastOut N bp₂ (Function.update io fd p₂) fd
        (Function.update q (.output fd) (q (.output fd) ++ [[]])) a (q (.output fd)) := by
    intro bp₂ p₂ hbp hhead htail hsame
    have hempty : (bp₂.base a).data = [] := by rw [hbp, linkBehind_data, if_pos rfl]
    obtain ⟨own', hx, hl', hq'⟩ := hl.push hq (x := .output fd) (by simp) hf hne'
      []
      (by rw [heads_output, heads_output, hhead]) (by rw [tails_output, htail])
      (fun y hy hy' => other_output hsame.inBufHead hsame.inBufTail y hy hy') hbp
    rw [← hempty, Pool.set_data_self] at hl'
    rw [← hempty, Pool.set_data_self, hempty] at hq'
    refine ⟨hempty, own', own (.output fd), hx, ?_, hl', hq'⟩
    rw [← hq (.output fd) (by simp)]
    refine Pool.chunks_congr fun i hi => ?_
    rw [hbp, linkBehind_data, if_neg (hl.owned.ne_of_mem hi haf (by simp))]
  simp only
  cases hh : p.outBufHead with
  | none =>
      have hnil := hl.outBufHead_eq_none.mp hh
      have hs : SameButOutput p { p with outBufHead := some a, outBufTail := some a } := ⟨rfl, rfl, rfl, rfl, rfl, rfl⟩
      exact ⟨hs, hpush _ _ (by rw [hnil]; rfl) (if_pos hnil).symm rfl hs⟩
  | some b =>
      have hne : own (.output fd) ≠ [] := fun e => by
        rw [hl.outBufHead_eq_none.mpr e] at hh
        cases hh
      simp only
      rw [ht]
      cases hlast : (own (.output fd)).getLast? with
      | none => exact absurd (List.getLast?_eq_none_iff.mp hlast) hne
      | some t =>
          have hs : SameButOutput p { p with outBufHead := some b, outBufTail := some a } :=
            ⟨rfl, rfl, rfl, rfl, rfl, rfl⟩
          exact ⟨hs, hpush _ _ (by rw [hlast]; rfl) (by rw [if_neg hne, hh]) rfl hs⟩

/-- Change the data of one buffer of a chain. -/
theorem Ledger.rewrite {x : Owner} {i : Nat} {l l' : List Nat} (h : Ledger N bp io own)
    (hq : ∀ y, y ≠ .free → bp.chunks (own y) = q y) (hx : x ≠ .free) (hi : own x = l ++ i :: l') (data : List UInt8) :
    Ledger N (bp.set i { bp.base i with data := data }) io own ∧
      ∀ y, y ≠ .free → Pool.chunks (bp.set i { bp.base i with data := data }) (own y)
        = Function.update q x (bp.chunks l ++ data :: bp.chunks l') y := by
  refine ⟨h.setData i data, fun y hy => ?_⟩
  have hix : i ∈ own x := by rw [hi]; simp
  have hother : ∀ j, j ≠ i → ((bp.set i { bp.base i with data := data }).base j).data = (bp.base j).data := by
    intro j hj
    rw [Pool.set_base, if_neg hj]
  rcases eq_or_ne y x with rfl | hyx
  · have hnd := h.owned.nodup y
    rw [hi, List.nodup_middle, List.nodup_cons] at hnd
    have hni : ∀ j, j ∈ l ∨ j ∈ l' → j ≠ i := fun j hj e => hnd.1 (List.mem_append.mpr (e ▸ hj))
    rw [Function.update_self, hi, ← Pool.chunks_congr (l := l) fun j hj => hother j (hni j (Or.inl hj)),
      ← Pool.chunks_congr (l := l') fun j hj => hother j (hni j (Or.inr hj))]
    simp only [Pool.chunks, List.map_append, List.map_cons, Pool.set_base, if_true]
  · rw [Function.update_of_ne hyx, ← hq y hy]
    exact Pool.chunks_congr fun j hj => hother j (h.owned.ne_of_mem hj hix hyx)

/-- Fill up the last buffer of the output. -/
theorem LastOut.fill {a : Nat} {cs : List (List UInt8)} (h : LastOut N bp (Function.update io fd p) fd q a cs)
    (data : List UInt8) :
    Queues N (bp.set a { bp.base a with data := (bp.base a).data ++ data }) (Function.update io fd p)
      (Function.update q (.output fd) (cs ++ [(bp.base a).data ++ data])) ∧
    (q (.output fd)).flatten = cs.flatten ++ (bp.base a).data := by
  obtain ⟨own, l, hx, hc, hl, hq⟩ := h
  obtain ⟨hl', hq'⟩ := hl.rewrite hq (by simp) hx ((bp.base a).data ++ data)
  refine ⟨⟨own, hl', fun y hy => ?_⟩, ?_⟩
  · rw [hq' y hy, hc]
    rfl
  · rw [← hq (.output fd) (by simp), hx, ← hc]
    simp [Pool.chunks]

/-- The loop queues its data behind what is queued, and ends. -/
theorem appendLoop_ends : ∀ (fuel : Nat) (bp : Pool) (p : IoData) (cur : Option Nat) (data : List UInt8)
    (q : Owner → List (List UInt8)), Queues N bp (Function.update io fd p) q →
    (cur = none ∧ data.length < fuel ∨ cur = p.outBufTail ∧ data.length + 1 < fuel) →
    Ends (· = .exhausted) (fun r => SameButOutput p r.2 ∧ ∃ cs, cs.flatten = (q (.output fd)).flatten ++ data ∧
      Queues N r.1 (Function.update io fd r.2) (Function.update q (.output fd) cs)) (appendLoop fuel bp p cur data) := by
  intro fuel
  induction fuel with
  | zero => intro bp p cur data q _ hf; exact absurd hf (by omega)
  | succ fuel ih =>
      intro bp p cur data q h hf
      -- the buffer the round works on, and whether it is a new one
      have hcur : Ends (· = .exhausted) (fun r => SameButOutput p r.2.2 ∧ ∃ q₁ cs,
            (q₁ (.output fd)).flatten = (q (.output fd)).flatten ∧ (∀ cs', Function.update q₁ (.output fd) cs'
              = Function.update q (.output fd) cs') ∧ LastOut N r.2.1 (Function.update io fd r.2.2) fd q₁ r.1 cs ∧
            (data.length < fuel ∨ (r.2.1.base r.1).size = 0 ∧ data.length < fuel + 1))
          (outBuf bp p cur) := by
        cases cur with
        | none =>
            refine ((linkOutBuf_ends h).excuse fun e he => he.1).imp ?_
            rintro ⟨a, bp₂, p₂⟩ ⟨hs, hempty, hlast⟩
            refine ⟨hs, _, _, ?_, fun cs' => Function.update_idem _ _ _, hlast, Or.inr ⟨?_, ?_⟩⟩
            · rw [Function.update_self]; simp
            · show (bp₂.base a).data.length = 0
              rw [hempty]
              rfl
            · rcases hf with hf | hf <;> omega
        | some c =>
            obtain ⟨own, hl, hq⟩ := h
            have hc : some c = p.outBufTail ∧ data.length + 1 < fuel + 1 := hf.resolve_left fun e => by cases e.1
            have hlast : (own (.output fd)).getLast? = some c := hl.tail_output.symm.trans hc.1.symm
            obtain ⟨l, hx⟩ := List.getLast?_eq_some_iff.mp hlast
            exact ⟨.refl p, q, _, rfl, fun cs' => rfl, ⟨own, l, hx, rfl, hl, hq⟩, Or.inl (by omega)⟩
      unfold appendLoop
      refine hcur.bind ?_
      rintro ⟨a, bp₂, p₂⟩ ⟨hs, q₁, cs, hflat, hupd, hlast, hlen⟩
      simp only
      split_ifs with hcap
      · obtain ⟨hfill, hcs⟩ := hlast.fill data
        refine ⟨hs, _, ?_, hupd _ ▸ hfill⟩
        rw [← hflat, hcs]
        simp
      · obtain ⟨hfill, hcs⟩ := hlast.fill (data.take (BUF_UNIT_SIZE - (bp₂.base a).size))
        have hdrop : (data.drop (BUF_UNIT_SIZE - (bp₂.base a).size)).length < fuel := by
          rw [List.length_drop]
          rcases hlen with hlen | ⟨hz, hlen⟩
          · omega
          · rw [hz] at hcap ⊢
            have : BUF_UNIT_SIZE = 512 := rfl
            omega
        refine (ih _ p₂ none _ _ (hupd _ ▸ hfill) (Or.inl ⟨rfl, hdrop⟩)).imp ?_
        rintro ⟨bp₃, p₃⟩ ⟨hs', cs', hflat', hq'⟩
        refine ⟨hs.trans hs', cs', ?_, ?_⟩
        · rw [hflat', Function.update_self, ← hflat, hcs]
          simp [List.take_append_drop]
        · rwa [Function.update_idem] at hq'

theorem appendSendData_ends (h : Queues N bp (Function.update io fd p) q) (data : List UInt8) :
    Ends (· = .exhausted) (fun r => SameButOutput p r.2 ∧ ∃ cs, cs.flatten = (q (.output fd)).flatten ++ data ∧
      Queues N r.1 (Function.update io fd r.2) (Function.update q (.output fd) cs)) (appendSendData bp p data) :=
  appendLoop_ends _ _ _ _ _ _ h (Or.inr ⟨rfl, Nat.lt_succ_self _⟩)

/-- What a command sends is queued in order. -/
theorem appendAll_ends : ∀ (chunks : List (List UInt8)) (bp : Pool) (p : IoData) (q : Owner → List (List UInt8)),
    Queues N bp (Function.update io fd p) q →
    Ends (· = .exhausted) (fun r => SameButOutput p r.2 ∧ ∃ cs,
      cs.flatten = (q (.output fd)).flatten ++ chunks.flatten ∧
      Queues N r.1 (Function.update io fd r.2) (Function.update q (.output fd) cs)) (appendAll bp p chunks) := by
  intro chunks
  induction chunks with
  | nil =>
      intro bp p q h
      exact ⟨.refl p, q (.output fd), by simp, by rwa [Function.update_eq_self]⟩
  | cons data rest ih =>
      intro bp p q h
      refine (appendSendData_ends h data).bind ?_
      rintro ⟨bp₂, p₂⟩ ⟨hs, cs, hflat, hq⟩
      refine (ih bp₂ p₂ _ hq).imp ?_
      rintro ⟨bp₃, p₃⟩ ⟨hs', cs', hflat', hq'⟩
      refine ⟨hs.trans hs', cs', ?_, by rwa [Function.update_idem] at hq'⟩
      rw [hflat', Function.update_self, hflat]
      simp

end Conn

/-! ## Taking off the front -/

/-- A pool with the buffer back on its free list. -/
def Pool.give (bp : Pool) (a : Nat) : Pool := { bp.set a ⟨[], bp.head⟩ with head := some a }

/-- The same connections with another head and tail for one chain. -/
def withChain (io : Nat → IoData) (head tail : Option Nat) : Owner → Nat → IoData
  | .free => io
  | .input fd => Function.update io fd { io fd with inBufHead := head, inBufTail := tail }
  | .output fd => Function.update io fd { io fd with outBufHead := head, outBufTail := tail }

section Front

variable {N : Nat} {bp bp' : Pool} {io : Nat → IoData} {own : Owner → List Nat} {q : Owner → List (List UInt8)}
  {x : Owner} {a fd : Nat} {l : List Nat} {p : IoData} {head tail : Option Nat}

theorem heads_withChain (hx : x ≠ .free) : heads bp (withChain io head tail x) x = head := by
  cases x with
  | free => exact absurd rfl hx
  | input fd => exact heads_input
  | output fd => exact heads_output

theorem tails_withChain (hx : x ≠ .free) : tails (withChain io head tail x) x = tail := by
  cases x with
  | free => exact absurd rfl hx
  | input fd => exact tails_input
  | output fd => exact tails_output

theorem withChain_other (hx : x ≠ .free) (y : Owner) (hy : y ≠ .free) (hyx : y ≠ x) :
    heads bp' (withChain io head tail x) y = heads bp io y ∧ tails (withChain io head tail x) y = tails io y := by
  cases x with
  | free => exact absurd rfl hx
  | input fd =>
      have h := @other_input bp bp' io fd (io fd) { io fd with inBufHead := head, inBufTail := tail } rfl rfl y hy hyx
      rwa [Function.update_eq_self] at h
  | output fd =>
      have h := @other_output bp bp' io fd (io fd) { io fd with outBufHead := head, outBufTail := tail } rfl rfl y hy hyx
      rwa [Function.update_eq_self] at h

theorem withChain_withChain (io : Nat → IoData) (h₁ t₁ h₂ t₂ : Option Nat) (x : Owner) :
    withChain (withChain io h₁ t₁ x) h₂ t₂ x = withChain io h₂ t₂ x := by
  cases x <;> simp [withChain]

theorem withChain_input : withChain (Function.update io fd p) head tail (.input fd)
    = Function.update io fd { p with inBufHead := head, inBufTail := tail } := by
  simp [withChain]

theorem withChain_output : withChain (Function.update io fd p) head tail (.output fd)
    = Function.update io fd { p with outBufHead := head, outBufTail := tail } := by
  simp [withChain]

/-- The assertion of `free_buf` holds. -/
theorem Ledger.freeBuf_eq (h : Ledger N bp io own) (a : Nat) : freeBuf bp a = .ok (bp.give a) := by
  cases hh : bp.head with
  | none => exact absurd (h.head_nil (x := .free) |>.mp hh) h.spare
  | some b => simp only [freeBuf, Pool.give, hh]

/-- The first buffer of a chain goes back. -/
theorem Ledger.pop (h : Ledger N bp io own) (hq : ∀ y, y ≠ .free → bp.chunks (own y) = q y) (hx : x ≠ .free)
    (ho : own x = a :: l) :
    ∃ own', own' x = l ∧
      Ledger N (bp.give a) (withChain io (bp.base a).next (if l = [] then none else tails io x) x) own' ∧
      (∀ i ∈ l, ((bp.give a).base i).data = (bp.base i).data) ∧
      ∀ y, y ≠ .free → (bp.give a).chunks (own' y) = Function.update q x (bp.chunks l) y := by
  have hnd : a ∉ l := by
    have hn := h.owned.nodup x
    rw [ho] at hn
    exact (List.nodup_cons.mp hn).1
  have hax : a ∈ own x := by rw [ho]; exact List.mem_cons_self
  have hother : ∀ i, i ≠ a → ((bp.give a).base i).data = (bp.base i).data := by
    intro i hi
    simp only [Pool.give, Pool.set_base, if_neg hi]
  have hl : ∀ i ∈ l, ((bp.give a).base i).data = (bp.base i).data := fun i hi => hother i fun e => hnd (e ▸ hi)
  have hn : (bp.give a).nItems = bp.nItems := rfl
  have hrel := h.release hx ho hn
    (fun b => by simp only [Pool.give, Pool.set_base]; split_ifs <;> rfl) rfl (heads_withChain hx)
    (tails_withChain hx) (withChain_other hx)
  refine ⟨_, ?_, hrel, hl, fun y hy => ?_⟩
  · rw [Function.update_of_ne hx, Function.update_self]
  · rw [Function.update_of_ne hy]
    rcases eq_or_ne y x with rfl | hyx
    · rw [Function.update_self, Function.update_self]
      exact Pool.chunks_congr hl
    · rw [Function.update_of_ne hyx, Function.update_of_ne hyx, ← hq y hy]
      exact Pool.chunks_congr fun i hi => hother i (h.owned.ne_of_mem hi hax hyx)

/-- A chain has no more buffers than the pool. -/
theorem Ledger.length_le (h : Ledger N bp io own) (x : Owner) : (own x).length ≤ bp.nItems := by
  rw [h.size]
  have hsub : own x ⊆ List.range N := fun i hi =>
    List.mem_range.mpr ((h.owned.covers i).mpr ⟨x, hi⟩)
  have hle := ((h.owned.nodup x).subperm hsub).length_le
  rwa [List.length_range] at hle

/-- Where one connection has all the buffers that are taken, they are counted. -/
theorem Ledger.count (h : Ledger N bp io own)
    (hother : ∀ y, y ≠ .free → y ≠ .input fd → y ≠ .output fd → own y = []) :
    N = (own .free).length + (own (.input fd)).length + (own (.output fd)).length := by
  have hdisj : ∀ {x y : Owner}, x ≠ y → ∀ {i}, i ∈ own x → i ∉ own y := fun hne _ hx hy =>
    hne (h.owned.disjoint hx hy)
  have hnodup : (own .free ++ own (.input fd) ++ own (.output fd)).Nodup := by
    refine List.Nodup.append (List.Nodup.append (h.owned.nodup _) (h.owned.nodup _) ?_) (h.owned.nodup _) ?_
    · exact fun i hi hj => hdisj (by simp) hi hj
    · intro i hi hj
      rcases List.mem_append.mp hi with hi | hi
      · exact hdisj (by simp) hi hj
      · exact hdisj (by simp) hi hj
  have hperm : (List.range N).Perm (own .free ++ own (.input fd) ++ own (.output fd)) := by
    refine (List.perm_ext_iff_of_nodup List.nodup_range hnodup).mpr fun i => ?_
    rw [List.mem_range, h.owned.covers i]
    simp only [List.mem_append]
    constructor
    · rintro ⟨x, hx⟩
      rcases Classical.em (x = .free) with rfl | hf
      · exact Or.inl (Or.inl hx)
      rcases Classical.em (x = .input fd) with rfl | hi
      · exact Or.inl (Or.inr hx)
      rcases Classical.em (x = .output fd) with rfl | ho
      · exact Or.inr hx
      · rw [hother x hf hi ho] at hx
        cases hx
    · rintro ((hi | hi) | hi)
      · exact ⟨_, hi⟩
      · exact ⟨_, hi⟩
      · exact ⟨_, hi⟩
  have hlen := hperm.length_eq
  rwa [List.length_range, List.length_append, List.length_append] at hlen

/-- No other connection has anything queued. -/
def Alone (fd : Nat) (q : Owner → List (List UInt8)) : Prop :=
  ∀ y, y ≠ .free → y ≠ .input fd → y ≠ .output fd → q y = []

/-- A buffer is queued for every chunk, and one more is kept. -/
theorem Queues.count (h : Queues N bp io q) (ha : Alone fd q) :
    (q (.input fd)).length + (q (.output fd)).length + 1 ≤ N := by
  obtain ⟨own, hl, hq⟩ := h
  have hcount := hl.count fun y h₁ h₂ h₃ => List.map_eq_nil_iff.mp ((hq y h₁).trans (ha y h₁ h₂ h₃))
  have hspare := List.length_pos_of_ne_nil hl.spare
  rw [← hq (.input fd) (by simp), ← hq (.output fd) (by simp), Pool.chunks, Pool.chunks, List.length_map, List.length_map]
  omega

/-- There is a buffer to take unless the chunks have all the others. -/
theorem Scarce.count (h : Scarce N bp io q) (ha : Alone fd q) :
    N ≤ (q (.input fd)).length + (q (.output fd)).length + 1 := by
  obtain ⟨own, hl, hq, hfree⟩ := h
  have hcount := hl.count fun y h₁ h₂ h₃ => List.map_eq_nil_iff.mp ((hq y h₁).trans (ha y h₁ h₂ h₃))
  rw [← hq (.input fd) (by simp), ← hq (.output fd) (by simp), Pool.chunks, Pool.chunks, List.length_map, List.length_map]
  omega

/-- Freeing a chain ends, with the chain empty. -/
theorem freeFrom_eq (hx : x ≠ .free) : ∀ (l : List Nat) (fuel : Nat) (bp : Pool) (io : Nat → IoData)
    (own : Owner → List Nat) (q : Owner → List (List UInt8)), Ledger N bp io own →
    (∀ y, y ≠ .free → bp.chunks (own y) = q y) → own x = l → l.length ≤ fuel →
    ∃ bp', freeFrom fuel bp (heads bp io x) = .ok bp' ∧
      Queues N bp' (withChain io none none x) (Function.update q x []) := by
  intro l
  induction l with
  | nil =>
      intro fuel bp io own q h hq ho _
      have hhead := h.head_nil.mpr ho
      have htail : tails io x = none := by rw [h.tail x hx, ho]; rfl
      refine ⟨bp, by rw [hhead]; cases fuel <;> rfl, own, ?_, fun y hy => ?_⟩
      · have hsame : withChain io (heads bp io x) (tails io x) x = io := by
          cases x <;> simp [withChain, heads, tails]
        rw [hhead, htail] at hsame
        rw [hsame]
        exact h
      · rcases eq_or_ne y x with rfl | hyx
        · rw [Function.update_self, ho]
          rfl
        · rw [Function.update_of_ne hyx, hq y hy]
  | cons a l ih =>
      intro fuel bp io own q h hq ho hf
      obtain ⟨fuel, rfl⟩ : ∃ f, fuel = f + 1 := ⟨fuel - 1, by simp only [List.length_cons] at hf; omega⟩
      obtain ⟨hhead, -⟩ := h.head_cons ho
      obtain ⟨own', ho', hl', -, hq'⟩ := h.pop hq hx ho
      obtain ⟨bp', he, hres⟩ := ih fuel _ _ own' _ hl' hq' ho' (by simp only [List.length_cons] at hf; omega)
      rw [heads_withChain hx] at he
      refine ⟨bp', ?_, ?_⟩
      · rw [hhead, freeFrom, h.freeBuf_eq]
        exact he
      · rwa [withChain_withChain, Function.update_idem] at hres

/-- Only the four pointers of a connection matter to the chains. -/
theorem Queues.conn_congr {p' : IoData} (h : Queues N bp (Function.update io fd p) q)
    (h₁ : p'.inBufHead = p.inBufHead) (h₂ : p'.inBufTail = p.inBufTail)
    (h₃ : p'.outBufHead = p.outBufHead) (h₄ : p'.outBufTail = p.outBufTail) :
    Queues N bp (Function.update io fd p') q := by
  obtain ⟨own, hl, hq⟩ := h
  have hheads : heads bp (Function.update io fd p') = heads bp (Function.update io fd p) := by
    funext y
    cases y with
    | free => rfl
    | input s => simp only [heads, Function.update_apply]; split_ifs <;> [exact h₁; rfl]
    | output s => simp only [heads, Function.update_apply]; split_ifs <;> [exact h₃; rfl]
  have htails : tails (Function.update io fd p') = tails (Function.update io fd p) := by
    funext y
    cases y with
    | free => rfl
    | input s => simp only [tails, Function.update_apply]; split_ifs <;> [exact h₂; rfl]
    | output s => simp only [tails, Function.update_apply]; split_ifs <;> [exact h₄; rfl]
  exact ⟨own, ⟨hl.size, hheads ▸ hl.owned, htails ▸ hl.tail, hl.spare⟩, hq⟩

/-- An empty chain has neither head nor tail, and is queued as nothing. -/
theorem Queues.input_none (h : Queues N bp (Function.update io fd p) q) (hp : p.inBufHead = none) :
    p.inBufTail = none ∧ q (.input fd) = [] := by
  obtain ⟨own, hl, hq⟩ := h
  have ho := hl.inBufHead_eq_none.mp hp
  exact ⟨by rw [hl.tail_input, ho]; rfl, by rw [← hq _ (by simp), ho]; rfl⟩

theorem Queues.output_none (h : Queues N bp (Function.update io fd p) q) (hp : p.outBufHead = none) :
    p.outBufTail = none ∧ q (.output fd) = [] := by
  obtain ⟨own, hl, hq⟩ := h
  have ho := hl.outBufHead_eq_none.mp hp
  exact ⟨by rw [hl.tail_output, ho]; rfl, by rw [← hq _ (by simp), ho]; rfl⟩

/-- What is known of the request is the same. -/
structure SameRequest (p p' : IoData) : Prop where
  headerLen : p'.headerLen = p.headerLen
  bodyLen : p'.bodyLen = p.bodyLen
  isWriteCmd : p'.isWriteCmd = p.isWriteCmd

/-- The tail stays behind until both chains are freed. -/
theorem destroyInBuf_eq (h : Queues N bp (Function.update io fd p) q) :
    ∃ bp₁ p₁, destroyInBuf bp p = .ok (bp₁, p₁) ∧ SameRequest p p₁ ∧
      p₁.inBufLen = (if p.inBufHead = none then p.inBufLen else 0) ∧
      Queues N bp₁ (Function.update io fd { p₁ with inBufHead := none, inBufTail := none })
        (Function.update q (.input fd) []) := by
  unfold destroyInBuf
  cases hh : p.inBufHead with
  | none =>
      obtain ⟨ht, hq⟩ := h.input_none hh
      refine ⟨bp, p, rfl, ⟨rfl, rfl, rfl⟩, (if_pos rfl).symm, ?_⟩
      rw [← hq, Function.update_eq_self]
      exact h.conn_congr hh.symm ht.symm rfl rfl
  | some b =>
      obtain ⟨own, hl, hq⟩ := h
      obtain ⟨bp₁, e₁, hres⟩ := freeFrom_eq (x := .input fd) (by simp) _ bp.nItems bp _ own q hl hq rfl
        (hl.length_le _)
      rw [heads_input] at e₁
      rw [withChain_input] at hres
      refine ⟨bp₁, { p with inBufHead := none, inBufLen := 0 }, ?_, ⟨rfl, rfl, rfl⟩, (if_neg (by simp)).symm,
        hres.conn_congr rfl rfl rfl rfl⟩
      simp only [freeInBufList, e₁]
      rfl

/-- The input pointers the connection has in the table do not matter here. -/
theorem destroyOutBuf_eq {p' : IoData} (h : Queues N bp (Function.update io fd p') q)
    (h₁ : p'.outBufHead = p.outBufHead) :
    ∃ bp₁ p₁, destroyOutBuf bp p = .ok (bp₁, p₁) ∧ SameRequest p p₁ ∧ p₁.inBufLen = p.inBufLen ∧
      Queues N bp₁ (Function.update io fd { p' with outBufHead := none, outBufTail := none })
        (Function.update q (.output fd) []) := by
  unfold destroyOutBuf
  cases hh : p.outBufHead with
  | none =>
      rw [hh] at h₁
      obtain ⟨ht, hq⟩ := h.output_none h₁
      refine ⟨bp, p, rfl, ⟨rfl, rfl, rfl⟩, rfl, ?_⟩
      rw [← hq, Function.update_eq_self]
      exact h.conn_congr rfl rfl h₁.symm ht.symm
  | some b =>
      obtain ⟨own, hl, hq⟩ := h
      obtain ⟨bp₁, e₁, hres⟩ := freeFrom_eq (x := .output fd) (by simp) _ bp.nItems bp _ own q hl hq rfl
        (hl.length_le _)
      rw [heads_output, h₁] at e₁
      rw [withChain_output] at hres
      refine ⟨bp₁, { p with outBufHead := none }, ?_, ⟨rfl, rfl, rfl⟩, rfl, hres⟩
      simp only [freeOutBufList, e₁]
      rfl

/-- Both chains of a connection that goes away are freed. -/
theorem destroyIoData_eq (h : Queues N bp (Function.update io fd p) q) :
    ∃ bp' p', destroyIoData bp p = .ok (bp', p') ∧ Queues N bp' (Function.update io fd p')
        (Function.update (Function.update q (.input fd) []) (.output fd) []) ∧ SameRequest p p' ∧
      p'.inBufLen = if p.inBufHead = none then p.inBufLen else 0 := by
  obtain ⟨bp₁, p₁, e₁, hs, hlen, h₁⟩ := destroyInBuf_eq h
  obtain ⟨bp₂, p₂, e₂, hs', hlen', h₂⟩ := destroyOutBuf_eq (p := p₁) h₁ rfl
  refine ⟨bp₂, { p₂ with inBufHead := none, outBufHead := none, inBufTail := none, outBufTail := none }, ?_,
    h₂.conn_congr rfl rfl rfl rfl, ?_, hlen'.trans hlen⟩
  · simp only [destroyIoData, e₁, bind, Except.bind, e₂]
    rfl
  · exact ⟨hs'.headerLen.trans hs.headerLen, hs'.bodyLen.trans hs.bodyLen, hs'.isWriteCmd.trans hs.isWriteCmd⟩

/-! ### Sending -/

/-- What is left when `send` has taken `ct` bytes of the first chunk. -/
def sendChunks (ct : Nat) : List (List UInt8) → List (List UInt8)
  | [] => []
  | c :: cs => if c.length ≤ ct then cs else c.drop ct :: cs

/-- The chain of an owner is what is queued there. -/
theorem Ledger.cons_of_queue (hq : ∀ y, y ≠ .free → bp.chunks (own y) = q y) (hx : x ≠ .free) {c : List UInt8}
    {cs : List (List UInt8)} (hc : q x = c :: cs) :
    ∃ a l, own x = a :: l ∧ (bp.base a).data = c ∧ bp.chunks l = cs := by
  have h := hq x hx
  rw [hc] at h
  cases ho : own x with
  | nil => rw [ho] at h; cases h
  | cons a l =>
      rw [ho] at h
      obtain ⟨h₁, h₂⟩ := List.cons.inj h
      exact ⟨a, l, rfl, h₁, h₂⟩

theorem handleOutput_eq (h : Queues N bp (Function.update io fd p) q) (ct : Nat) :
    ∃ bp' p', handleOutput bp p ct = .ok (bp', p') ∧ SameButOutput p p' ∧
      Queues N bp' (Function.update io fd p') (Function.update q (.output fd) (sendChunks ct (q (.output fd)))) := by
  unfold handleOutput
  cases hh : p.outBufHead with
  | none =>
      obtain ⟨-, hq⟩ := h.output_none hh
      refine ⟨bp, p, rfl, .refl p, ?_⟩
      rw [hq, sendChunks, ← hq, Function.update_eq_self]
      exact h
  | some a =>
      obtain ⟨own, hl, hq⟩ := h
      have hne : own (.output fd) ≠ [] := fun e => by
        rw [hl.outBufHead_eq_none.mpr e] at hh
        cases hh
      obtain ⟨b, l, ho⟩ := List.exists_cons_of_ne_nil hne
      have hab : b = a := by
        have hb := (hl.head_cons ho).1
        rw [heads_output, hh] at hb
        exact (Option.some.inj hb).symm
      subst hab
      have hqo : q (.output fd) = (bp.base b).data :: bp.chunks l := by rw [← hq _ (by simp), ho]; rfl
      obtain ⟨hl', hq'⟩ := hl.rewrite hq (x := .output fd) (l := []) (by simp) ho ((bp.base b).data.drop ct)
      have hsize : ((bp.set b { bp.base b with data := (bp.base b).data.drop ct }).base b).size
          = (bp.base b).data.length - ct := by
        rw [Pool.set_base, if_pos rfl, Buffer.size, List.length_drop]
      have hnext : ((bp.set b { bp.base b with data := (bp.base b).data.drop ct }).base b).next = (bp.base b).next := by
        rw [Pool.set_base, if_pos rfl]
      simp only [hsize]
      rcases Nat.lt_or_ge ct (bp.base b).data.length with hct | hct
      · rw [if_neg (by omega)]
        refine ⟨_, p, rfl, .refl p, own, hl', fun y hy => ?_⟩
        rw [hq' y hy, hqo, sendChunks, if_neg (by omega)]
        rfl
      · rw [if_pos (by omega)]
        obtain ⟨own', ho', hl'', -, hq''⟩ := hl'.pop hq' (x := .output fd) (by simp) ho
        rw [hl'.freeBuf_eq, hnext]
        rw [hnext, withChain_output, tails_output, (hl.head_cons ho).2] at hl''
        have hcs : ∀ y, y ≠ .free → Pool.chunks (Pool.give (bp.set b
            { bp.base b with data := (bp.base b).data.drop ct }) b) (own' y)
            = Function.update q (.output fd) (sendChunks ct (q (.output fd))) y := by
          intro y hy
          have hnd := hl.owned.nodup (.output fd)
          rw [ho, List.nodup_cons] at hnd
          have hsame : (bp.set b { bp.base b with data := (bp.base b).data.drop ct }).chunks l = bp.chunks l :=
            Pool.chunks_congr fun i hi => by
              have hib : i ≠ b := fun e => hnd.1 (e ▸ hi)
              rw [Pool.set_base, if_neg hib]
          rw [hq'' y hy, Function.update_idem, hqo, sendChunks, if_pos hct, hsame]
        rw [(hl.head_cons ho).2]
        cases l with
        | nil => exact ⟨_, _, rfl, ⟨rfl, rfl, rfl, rfl, rfl, rfl⟩, own', hl'', hcs⟩
        | cons c l => exact ⟨_, _, rfl, ⟨rfl, rfl, rfl, rfl, rfl, rfl⟩, own', hl'', hcs⟩

/-! ### Reading -/

theorem buffersFrom_eq : ∀ (l : List Nat) (fuel : Nat) (head : Option Nat),
    Chain (fun i => (bp.base i).next) head l → l.length ≤ fuel → buffersFrom fuel bp head = .ok (bp.chunks l) := by
  intro l
  induction l with
  | nil =>
      intro fuel head h _
      rw [chain_nil.mp h]
      cases fuel <;> rfl
  | cons a l ih =>
      intro fuel head h hf
      obtain ⟨rfl, hc⟩ := h
      obtain ⟨fuel, rfl⟩ : ∃ f, fuel = f + 1 := ⟨fuel - 1, by simp only [List.length_cons] at hf; omega⟩
      have hi := ih fuel _ hc (by simp only [List.length_cons] at hf; omega)
      simp only [buffersFrom, hi]
      rfl

theorem Queues.buffersFrom_eq (h : Queues N bp (Function.update io fd p) q) :
    buffersFrom bp.nItems bp p.inBufHead = .ok (q (.input fd)) := by
  obtain ⟨own, hl, hq⟩ := h
  have hc := hl.owned.chain (.input fd)
  rw [heads_input] at hc
  rw [Tstdb.buffersFrom_eq _ _ _ hc (hl.length_le _), hq _ (by simp)]

/-- Take `k` bytes off a list of chunks; a chunk that is used up goes. -/
def dropBytes : Nat → List (List UInt8) → List (List UInt8)
  | _, [] => []
  | k, c :: cs => if c.length ≤ k then dropBytes (k - c.length) cs else c.drop k :: cs

theorem flatten_dropBytes : ∀ (cs : List (List UInt8)) (k : Nat),
    (dropBytes k cs).flatten = cs.flatten.drop k := by
  intro cs
  induction cs with
  | nil => intro k; simp [dropBytes]
  | cons c cs ih =>
      intro k
      rw [dropBytes]
      split_ifs with h
      · rw [ih, List.flatten_cons, List.drop_append, List.drop_eq_nil_of_le h, List.nil_append]
      · rw [List.flatten_cons, List.flatten_cons, List.drop_append_of_le_length (by omega)]

/-- `read_header` and `read_body` take what is queued, in order, as far as it goes. -/
theorem readBytes_eq : ∀ (l : List Nat) (fuel : Nat) (bp : Pool) (p : IoData) (own : Owner → List Nat)
    (q : Owner → List (List UInt8)) (k : Nat) (out : List UInt8), Ledger N bp (Function.update io fd p) own →
    (∀ y, y ≠ .free → bp.chunks (own y) = q y) → own (.input fd) = l → l ≠ [] → l.length ≤ fuel →
    ∃ bp' p', readBytes fuel bp p k out = .ok (bp', p', out ++ (q (.input fd)).flatten.take k) ∧
      SameButInput p p' ∧ p'.inBufLen = p.inBufLen ∧
      Queues N bp' (Function.update io fd p') (Function.update q (.input fd) (dropBytes k (q (.input fd)))) := by
  intro l
  induction l with
  | nil => intro fuel bp p own q k out _ _ _ hne; exact absurd rfl hne
  | cons a l ih =>
      intro fuel bp p own q k out hl hq ho _ hf
      obtain ⟨fuel, rfl⟩ : ∃ f, fuel = f + 1 := ⟨fuel - 1, by simp only [List.length_cons] at hf; omega⟩
      have hhead : p.inBufHead = some a := by rw [← heads_input, (hl.head_cons ho).1]
      have hnext := (hl.head_cons ho).2
      have hqi : q (.input fd) = (bp.base a).data :: bp.chunks l := by rw [← hq _ (by simp), ho]; rfl
      rw [readBytes, hhead]
      simp only
      rcases Nat.lt_or_ge k (bp.base a).size with hk | hk
      · -- the rest comes from this buffer, and something stays in it
        obtain ⟨hl', hq'⟩ := hl.rewrite hq (x := .input fd) (l := []) (by simp) ho ((bp.base a).data.drop k)
        have hsize : ((bp.set a { bp.base a with data := (bp.base a).data.drop k }).base a).size ≠ 0 := by
          rw [Pool.set_base, if_pos rfl, Buffer.size, List.length_drop]
          rw [Buffer.size] at hk
          omega
        rw [if_neg (by omega), if_neg hsize]
        rw [Buffer.size] at hk
        refine ⟨_, p, ?_, ⟨rfl, rfl, rfl, rfl, rfl⟩, rfl, own, hl', fun y hy => ?_⟩
        · rw [hqi, List.flatten_cons, List.take_append_of_le_length (by omega)]
          rfl
        · rw [hq' y hy, hqi, dropBytes, if_neg (by omega)]
          rfl
      · -- the buffer is used up
        obtain ⟨own', ho', hl', hsame, hq'⟩ := hl.pop hq (x := .input fd) (by simp) ho
        rw [withChain_input, tails_input, hnext] at hl'
        have hcs : (bp.give a).chunks l = bp.chunks l := Pool.chunks_congr hsame
        have htake : (q (.input fd)).flatten.take k
            = (bp.base a).data ++ (bp.chunks l).flatten.take (k - (bp.base a).size) := by
          rw [hqi, List.flatten_cons, List.take_append, List.take_of_length_le hk]
          rfl
        have hdrop : dropBytes k (q (.input fd)) = dropBytes (k - (bp.base a).size) (bp.chunks l) := by
          rw [hqi, dropBytes, if_pos (show (bp.base a).data.length ≤ k from hk)]
          rfl
        rw [if_pos hk, hnext, hl.freeBuf_eq]
        cases l with
        | nil =>
            refine ⟨bp.give a, { p with inBufHead := none, inBufTail := none }, ?_, ⟨rfl, rfl, rfl, rfl, rfl⟩, rfl,
              own', hl', fun y hy => ?_⟩
            · rw [htake]
              simp only [List.head?_nil, Pool.chunks, List.map_nil, List.flatten_nil, List.take_nil, List.append_nil]
              rfl
            · rw [hq' y hy, hdrop]
              rfl
        | cons b l =>
            rw [if_neg (List.cons_ne_nil b l)] at hl'
            obtain ⟨bp₂, p₂, e₂, hs₂, hlen₂, hq₂⟩ := ih fuel (bp.give a) { p with inBufHead := some b } own' _
              (k - (bp.base a).size) (out ++ (bp.base a).data) hl' hq' ho' (List.cons_ne_nil b l)
              (by simp only [List.length_cons] at hf ⊢; omega)
            rw [Function.update_self, Function.update_idem] at hq₂
            rw [Function.update_self] at e₂
            refine ⟨bp₂, p₂, ?_, ⟨hs₂.headerLen, hs₂.bodyLen, hs₂.isWriteCmd, hs₂.outBufHead, hs₂.outBufTail⟩,
              hlen₂, ?_⟩
            · rw [htake, ← List.append_assoc]
              exact e₂
            · rwa [hdrop]

theorem Queues.readBytes_eq (h : Queues N bp (Function.update io fd p) q) (hp : p.inBufHead ≠ none) (k : Nat) :
    ∃ bp' p', readBytes (bp.nItems + 1) bp p k [] = .ok (bp', p', (q (.input fd)).flatten.take k) ∧
      SameButInput p p' ∧ p'.inBufLen = p.inBufLen ∧
      Queues N bp' (Function.update io fd p') (Function.update q (.input fd) (dropBytes k (q (.input fd)))) := by
  obtain ⟨own, hl, hq⟩ := h
  have hne : own (.input fd) ≠ [] := fun e => hp (hl.inBufHead_eq_none.mpr e)
  have hle := hl.length_le (.input fd)
  exact Tstdb.readBytes_eq _ _ bp p own q k [] hl hq rfl hne (by omega)

end Front

end Tstdb
