/-
# `Tstdb.Server.Intake` — counting what comes in

`in_buf_len` is kept beside the chain it counts: `append_recv_data` adds what it has
received, `fix_buf_len` subtracts what a request announced, a reused slot keeps what it
has.  On every run of a worker the count is the sum of the sizes of the buffers, at
each return of `handle_input` and in each round of its loop, whatever comes in; every
round takes a byte, so the loop ends (`input_counter_exact`).
-/
import Mathlib
import Tstdb.Lib.Runs
import Tstdb.Lib.CText
import Tstdb.Lib.Bytes
import Tstdb.Lib.Chains
import Tstdb.Lib.Outcome
import Tstdb.Tst.Arena
import Tstdb.Tst.Runs
import Tstdb.Server.Index
import Tstdb.Server.Store
import Tstdb.Server.Pool
import Tstdb.Server.Buffers
import Tstdb.Server.Framing

namespace Tstdb

open CText Bytes Chains Outcome Runs

/-- One round of the loop passes the request on. -/
def Dispatches {σ : Type} (handleCmd : Handler σ) (c : Conn σ) (request : Request) (c' : Conn σ) : Prop :=
  dispatch handleCmd c = .ok (some request, c')

/-- The sizes of the buffers in the input chain, added up. -/
def inputSize (bp : Pool) (p : IoData) : Except Halt Nat :=
  (buffersFrom bp.nItems bp p.inBufHead).map fun bufs => (bufs.map List.length).sum

section Rounds

variable {σ : Type} {N : Nat} {handleCmd : Handler σ} {io : Nat → IoData} {fd : Nat} {c c' : Conn σ}
  {q : Owner → List (List UInt8)}

theorem inputSize_eq {bp : Pool} {p : IoData} (h : Queues N bp (Function.update io fd p) q) :
    inputSize bp p = .ok (q (.input fd)).flatten.length := by
  rw [inputSize, h.buffersFrom_eq, List.length_flatten]
  rfl

/-- A round keeps the count, and takes a byte at least. -/
theorem Conn.Good.dispatches (h : c.Good N io fd q) {request : Request} (hd : Dispatches handleCmd c request c') :
    ∃ q', c'.Good N io fd q' ∧ (q' (.input fd)).flatten.length < (q (.input fd)).flatten.length := by
  obtain ⟨cs, os, hgood, hr, -, hcase⟩ := (dispatch_ends h).ok hd
  have hlt := Framing.next_lt h.pending (by rw [← hr]; rfl)
  refine ⟨_, hgood, ?_⟩
  rw [withQueues_input]
  rcases hcase with ⟨-, -, hcs⟩ | ⟨-, -, -, -, hcs, -⟩
  · rwa [hcs]
  · rw [hcs]
    simp only [List.flatten_nil, List.length_nil]
    omega

theorem Conn.Good.rounds {requests : List Request} (hrun : Run (Dispatches handleCmd) c requests c') :
    ∀ {q}, c.Good N io fd q →
      ∃ q', c'.Good N io fd q' ∧ (q' (.input fd)).flatten.length + requests.length ≤ (q (.input fd)).flatten.length := by
  induction hrun with
  | nil c => exact fun h => ⟨_, h, le_refl _⟩
  | cons hd _ ih =>
      intro q h
      obtain ⟨q₁, h₁, hlt⟩ := h.dispatches hd
      obtain ⟨q', h', hle⟩ := ih h₁
      exact ⟨q', h', by rw [List.length_cons]; omega⟩

end Rounds

/-- On every run the length of the input is the sum of the sizes of its buffers; the
next `handle_input` fails no assertion and its loop ends; and each round of the loop
keeps the count and takes a byte. -/
theorem input_counter_exact {σ : Type} (handleCmd : Handler σ) {nItems : Nat} (hn : 0 < nItems) (scratch : Scratch)
    (shared : σ) {events : List IoEvent} {w : Worker σ}
    (hrun : Run (WorkerStep handleCmd) (Worker.start nItems scratch shared) events w) (fd : Nat) :
    inputSize w.pool (w.ioTable fd) = .ok (w.ioTable fd).inBufLen.toNat ∧ 0 ≤ (w.ioTable fd).inBufLen ∧
      (w.live fd = true → ∀ recv : Recv,
        Ends Halt.excused (fun _ => True) (handleInput handleCmd (w.conn fd) recv) ∧
        ∀ bp p, appendRecvData w.pool (w.ioTable fd) recv = .ok (bp, p) → ∀ requests (c : Conn σ),
          Run (Dispatches handleCmd) { w.conn fd with pool := bp, io := p } requests c →
            ∃ n, inputSize bp p = .ok n ∧ 0 ≤ c.io.inBufLen ∧ inputSize c.pool c.io = .ok c.io.inBufLen.toNat ∧
              c.io.inBufLen.toNat + requests.length ≤ n) := by
  obtain ⟨q, hq⟩ : ∃ q, w.Holds nItems q :=
    hrun.preserves (fun _ _ _ hi hs => hs.holds hi) ⟨_, holds_start hn scratch shared⟩
  have hself : Queues nItems w.pool (Function.update w.ioTable fd (w.ioTable fd)) q := by
    rw [Function.update_eq_self]
    exact hq.queues
  have hcount := hq.counted fd
  refine ⟨?_, by omega, fun hlive recv => ?_⟩
  · rw [inputSize_eq hself, hcount, Int.toNat_natCast]
  · have hgood : (w.conn fd).Good nItems w.ioTable fd q := ⟨hself, hcount, hq.pending fd hlive⟩
    refine ⟨((handleInput_ends hgood recv).imp fun _ _ => trivial).excuse fun e => handleInput_excused, fun bp p he requests c hdisp => ?_⟩
    have hstart := ((hgood.received recv).ok he).1
    obtain ⟨q', hgood', hle⟩ := hstart.rounds hdisp
    refine ⟨_, inputSize_eq hstart.queues, ?_, ?_, ?_⟩
    · rw [hgood'.counted]
      omega
    · rw [inputSize_eq hgood'.queues, hgood'.counted, Int.toNat_natCast]
    · rw [hgood'.counted, Int.toNat_natCast]
      exact hle

/-- A connection that goes away in the middle of a line, and a new one in its slot. -/
def cutLine : List IoEvent :=
  [.accept 7, .input 7 (.bytes ⟨ascii "hi\r\nge", by decide, by decide⟩), .hangUp 7, .accept 7]

theorem input_counter_exact_cutLine : ∃ w, 0 < 4 ∧
    Run (WorkerStep refuse) (Worker.start 4 ⟨fun _ => 0, fun _ => 0⟩ ()) cutLine w ∧
    inputSize w.pool (w.ioTable 7) = .ok (w.ioTable 7).inBufLen.toNat := by
  obtain ⟨w, hw⟩ : ∃ w, Run (WorkerStep refuse) (Worker.start 4 ⟨fun _ => 0, fun _ => 0⟩ ()) cutLine w :=
    ⟨_, .cons ⟨rfl, _, _, rfl, rfl⟩ (.cons ⟨rfl, _, _, rfl, rfl⟩ (.cons ⟨rfl, _, _, rfl, rfl⟩
      (.cons ⟨rfl, _, _, rfl, rfl⟩ (.nil _))))⟩
  exact ⟨w, by decide, hw, (input_counter_exact refuse (by decide : 0 < 4) _ _ hw 7).1⟩

end Tstdb
