/-
# `Tstdb.Server.Counter` — `incr` and `decr` count

A body that is the decimal text of an `int` is a counter: each `incr` and `decr` of its
key reads the text, steps the number and stores its text in a new record.  The text
conversions undo each other on every `int`, and other requests leave the key alone
(`handleCmd_framed`), so the replies are the partial sums as long as these are `int`s.
-/
import Mathlib
import Tstdb.Lib.CText
import Tstdb.Lib.Bytes
import Tstdb.Lib.Outcome
import Tstdb.Lib.Runs
import Tstdb.Tst.Arena
import Tstdb.Tst.Runs
import Tstdb.Tst.Scan
import Tstdb.Server.Index
import Tstdb.Server.Store
import Tstdb.Server.Sections
import Tstdb.Server.View
import Tstdb.Server.Boot
import Tstdb.Server.Pool
import Tstdb.Server.Commands
import Tstdb.Server.Values
import Tstdb.Server.Replies
import Tstdb.Server.Frame
import Tstdb.Server.History

namespace Tstdb

open CText Bytes Outcome Runs

/-- The number after a step, if nothing wraps. -/
def stepBy (n delta : Int) (isDecr : Bool) : Int := if isDecr then n - delta else n + delta

/-- On the text of an `int` a step is exact as long as it stays one. -/
theorem steppedNumber_decimal {n delta : Int} {isDecr : Bool} (hn : wrap32 n = n)
    (hs : wrap32 (stepBy n delta isDecr) = stepBy n delta isDecr) :
    steppedNumber (decimal n) delta isDecr = stepBy n delta isDecr := by
  have h0 : 0 ∉ decimal n := fun h => absurd (le_of_mem_decimal h).1 (by decide)
  rw [steppedNumber, cstr_of_nul_free h0, atoi_decimal hn]
  exact hs

/-- What happens to a key's store: a step of the counter and what was answered, or a
request that does not name the key. -/
inductive CounterEvent where
  | step (delta : Int) (isDecr : Bool) (answer : Answer)
  | other

/-- The event is a request that `handle_cmd` handles, in the arrays of some worker. -/
def CounterStep {ι : Type} (ix : ScanIndex ι) (key : WireKey) (st : Store ι) : CounterEvent → Store ι → Prop
  | .step delta isDecr answer, st' => ∃ now s headerLen bodyLen valueBuf s' valueBuf',
      (Command.incrOrDecr key delta isDecr).AskedBy s headerLen bodyLen ∧
        handleCmd ix now s headerLen bodyLen ⟨st, valueBuf⟩ = .ok (answer, s', ⟨st', valueBuf'⟩)
  | .other, st' => ∃ now s headerLen bodyLen valueBuf answer s' valueBuf',
      ¬Names (s.line headerLen) (s.headBuf.write headerLen [0]) key.toKey ∧
        handleCmd ix now s headerLen bodyLen ⟨st, valueBuf⟩ = .ok (answer, s', ⟨st', valueBuf'⟩)

def CounterEvent.count (n : Int) : CounterEvent → Int
  | .step delta isDecr _ => stepBy n delta isDecr
  | .other => n

/-- Every partial sum is an `int`. -/
def CountsWithin : Int → List CounterEvent → Prop
  | n, [] => wrap32 n = n
  | n, e :: es => wrap32 n = n ∧ CountsWithin (e.count n) es

theorem CountsWithin.start {n : Int} {es : List CounterEvent} (h : CountsWithin n es) : wrap32 n = n := by
  cases es with
  | nil => exact h
  | cons e es => exact h.1

/-- Every step is answered with the partial sum. -/
def CountsRight : Int → List CounterEvent → Prop
  | _, [] => True
  | n, .step delta isDecr answer :: es =>
      answer = .sent [decimal (stepBy n delta isDecr) ++ ascii "\r\n"] ∧ CountsRight (stepBy n delta isDecr) es
  | n, .other :: es => CountsRight n es

section Counter

variable {ι : Type} {ix : ScanIndex ι} {V : View ix.toIndex} {st st' : Store ι} {k : WireKey} {n flag expire : Int}

/-- The key leads to the counter `n`. -/
def CountsAt (V : View ix.toIndex) (k : WireKey) (flag expire n : Int) (st : Store ι) : Prop :=
  ∃ m, V.Rep st.index m ∧ m k.toKey ≠ 0 ∧ 0 < st.dataFile.length ∧
    recordAt st.dataFile (m k.toKey) = some ⟨flag, expire, decimal n⟩

theorem length_decimal_lt (hn : wrap32 n = n) : (decimal n).length < HEADER_BUF_SIZE :=
  lt_of_le_of_lt (hn ▸ length_decimal_wrap32 n) (by decide)

/-- One step of the counter. -/
theorem CountsAt.step_ends (hw : ix.Works V) {sh : Shared ι} (hc : CountsAt V k flag expire n sh.store)
    {delta : Int} {isDecr : Bool} {s : Scratch} {headerLen : Nat} {bodyLen : Int}
    (hask : (Command.incrOrDecr k delta isDecr).AskedBy s headerLen bodyLen) (hn : wrap32 n = n)
    (hs : wrap32 (stepBy n delta isDecr) = stepBy n delta isDecr) (now : Int) :
    Ends (fun _ => ¬sh.store.Roomy)
      (fun r => r.1 = .sent [decimal (stepBy n delta isDecr) ++ ascii "\r\n"] ∧
        CountsAt V k flag expire (stepBy n delta isDecr) r.2.2.store) (handleCmd ix now s headerLen bodyLen sh) := by
  obtain ⟨m, hr, hne, hpos, hrec⟩ := hc
  obtain ⟨hlen, hm, hscan, rfl⟩ := hask
  have hstep := steppedNumber_decimal hn hs
  have hpost : ∀ r : List (List UInt8) × Store ι,
      (r.1 = [decimal (steppedNumber (decimal n) delta isDecr) ++ ascii "\r\n"] ∧
        ∃ i log, V.Rep i (Function.update m k.toKey sh.store.dataFile.length) ∧
          r.2 = ⟨i, sh.store.dataFile ++ recordBytes (decimal (steppedNumber (decimal n) delta isDecr)).length flag
            expire (decimal (steppedNumber (decimal n) delta isDecr)), log⟩) →
      (Answer.sent r.1 = .sent [decimal (stepBy n delta isDecr) ++ ascii "\r\n"] ∧
        CountsAt V k flag expire (stepBy n delta isDecr) r.2) := by
    rw [hstep]
    rintro ⟨chunks, st'⟩ ⟨hchunks, i, log, hrep, rfl⟩
    refine ⟨congrArg Answer.sent hchunks, _, hrep, ?_, ?_, ?_⟩
    · rw [Function.update_self]
      omega
    · rw [List.length_append]
      omega
    · have hshort : (decimal (stepBy n delta isDecr)).length < 2147483648 :=
        lt_trans (length_decimal_lt hs) (by decide)
      rw [Function.update_self, recordAt_recordBytes _ _ _ hshort, (wrap32_of_recordAt hrec).1, (wrap32_of_recordAt hrec).2]
  rw [handleCmd_eq ix now s sh hlen (by decide)]
  refine Ends.map (Q := fun r => r.1 = .sent [decimal (stepBy n delta isDecr) ++ ascii "\r\n"] ∧
    CountsAt V k flag expire (stepBy n delta isDecr) r.2.store) ?_ fun r hr => hr
  have hexc : ∀ e : Fault, ¬(sh.store.Roomy ∧ (decimal n).length < HEADER_BUF_SIZE) → ¬sh.store.Roomy :=
    fun e hno hroom => hno ⟨hroom, length_decimal_lt hn⟩
  cases isDecr with
  | false =>
      rw [runCmd, hm]
      exact Ends.map (Ends.excuse (incrOrDecr_ends hw hr (by decide) hscan hne hrec) hexc) hpost
  | true =>
      rw [runCmd, hm]
      exact Ends.map (Ends.excuse (incrOrDecr_ends hw hr (by decide) hscan hne hrec) hexc) hpost

/-- Another request leaves the counter where it is. -/
theorem CountsAt.other (hw : ix.Works V) {sh sh' : Shared ι} (hc : CountsAt V k flag expire n sh.store) {s s' : Scratch}
    {headerLen : Nat} {bodyLen now : Int} {answer : Answer}
    (hno : ¬Names (s.line headerLen) (s.headBuf.write headerLen [0]) k.toKey)
    (he : handleCmd ix now s headerLen bodyLen sh = .ok (answer, s', sh')) :
    CountsAt V k flag expire n sh'.store := by
  obtain ⟨m, hr, hne, hpos, hrec⟩ := hc
  obtain ⟨m', hr', ⟨bs, hd⟩, -, hkeep⟩ := (handleCmd_framed hw hr s headerLen bodyLen).ok he
  have hk := hkeep k.toKey hno
  refine ⟨m', hr', hk ▸ hne, ?_, ?_⟩
  · rw [hd, List.length_append]
    omega
  · rw [hd, hk]
    exact recordAt_append bs hrec

theorem CountsAt.run (hw : ix.Works V) {events : List CounterEvent} (hrun : Run (CounterStep ix k) st events st') :
    ∀ {n}, CountsAt V k flag expire n st → CountsWithin n events →
      CountsRight n events ∧ CountsAt V k flag expire (events.foldl CounterEvent.count n) st' ∧
        wrap32 (events.foldl CounterEvent.count n) = events.foldl CounterEvent.count n := by
  induction hrun with
  | nil st => exact fun hc hin => ⟨trivial, hc, hin⟩
  | @cons st st₁ st' e es h _ ih =>
      intro n hc hin
      obtain ⟨hn, hrest⟩ := hin
      cases e with
      | step delta isDecr answer =>
          obtain ⟨now, s, headerLen, bodyLen, vb, s', vb', hask, he⟩ := h
          have hsh : CountsAt V k flag expire n (Shared.mk st vb).store := hc
          obtain ⟨hanswer, hc₁⟩ := (hsh.step_ends hw hask hn hrest.start now).ok he
          obtain ⟨hright, hend⟩ := ih hc₁ hrest
          exact ⟨⟨hanswer, hright⟩, hend⟩
      | other =>
          obtain ⟨now, s, headerLen, bodyLen, vb, answer, s', vb', hno, he⟩ := h
          have hsh : CountsAt V k flag expire n (Shared.mk st vb).store := hc
          exact ih (hsh.other hw hno he) hrest

end Counter

/-- The replies to the `incr`s and `decr`s of a key are the partial sums, and so is the
body that is left; flags and expiry stay what they were. -/
theorem counter_law {key : WireKey} {flag expire n : Int} {start st : Store KeyMap} {events : List CounterEvent}
    (hkey : start.index.get key.bytes ≠ 0)
    (hrec : recordAt start.dataFile (start.index.get key.bytes) = some ⟨flag, expire, decimal n⟩)
    (hrun : Run (CounterStep ScanIndex.map key) start events st) (hin : CountsWithin n events) :
    CountsRight n events ∧
      (st.index.get key.bytes ≠ 0 ∧ recordAt st.dataFile (st.index.get key.bytes)
        = some ⟨flag, expire, decimal (events.foldl CounterEvent.count n)⟩) ∧
      ∀ (delta : Int) (isDecr : Bool) (now : Int) (s : Scratch) (headerLen : Nat) (bodyLen : Int) (valueBuf : Buf),
        (Command.incrOrDecr key delta isDecr).AskedBy s headerLen bodyLen → st.Roomy →
        wrap32 (stepBy (events.foldl CounterEvent.count n) delta isDecr)
            = stepBy (events.foldl CounterEvent.count n) delta isDecr →
          ∃ s' sh', handleCmd ScanIndex.map now s headerLen bodyLen ⟨st, valueBuf⟩ =
            .ok (.sent [decimal (stepBy (events.foldl CounterEvent.count n) delta isDecr) ++ ascii "\r\n"], s', sh') := by
  have hstart : @CountsAt _ ScanIndex.map View.map key flag expire n start := by
    obtain ⟨-, -, hle⟩ := readTmp_of_recordAt hrec
    exact ⟨_, fun _ => rfl, hkey, by omega, hrec⟩
  obtain ⟨hright, hc, hn⟩ := CountsAt.run ScanIndex.map_works hrun hstart hin
  refine ⟨hright, ?_, ?_⟩
  · obtain ⟨m, hr, hne, -, hrec'⟩ := hc
    rw [← hr key.toKey]
    exact ⟨hne, hrec'⟩
  · intro delta isDecr now s headerLen bodyLen vb hask hroom hs
    have hsh : @CountsAt _ ScanIndex.map View.map key flag expire _ (Shared.mk st vb).store := hc
    obtain ⟨⟨answer, s', sh'⟩, he, rfl, -⟩ :=
      (Ends.excuse (hsh.step_ends ScanIndex.map_works hask hn hs now) fun e hno => hno hroom).returns
    exact ⟨s', sh', he⟩

/-- A store in which `k` counts 5. -/
def Store.five : Store KeyMap :=
  ⟨KeyMap.empty.put [107] 6, dataFileHead ++ recordBytes 1 9 0 (ascii "5"), []⟩

theorem counter_law_incr : ∃ st answer, Run (CounterStep ScanIndex.map (.letter 107 (by decide))) .five
    [.step 3 false answer] st ∧ answer = .sent [decimal 8 ++ ascii "\r\n"] := by
  have hask : (Command.incrOrDecr (.letter 107 (by decide)) 3 false).AskedBy (Scratch.ofLine (ascii "incr k 3")) 8 0 :=
    ⟨by decide, by decide +kernel, by decide +kernel, rfl⟩
  obtain ⟨answer, s', st', vb', he⟩ : ∃ answer s' st' vb', handleCmd ScanIndex.map 0
      (Scratch.ofLine (ascii "incr k 3")) 8 0 ⟨.five, fun _ => 0⟩ = .ok (answer, s', ⟨st', vb'⟩) := ⟨_, _, _, _, rfl⟩
  have hrun : Run (CounterStep ScanIndex.map (.letter 107 (by decide))) .five [.step 3 false answer] st' :=
    .cons ⟨0, _, 8, 0, _, s', vb', hask, he⟩ (.nil st')
  have hkey : Store.five.index.get (WireKey.letter 107 (by decide)).bytes ≠ 0 := by decide +kernel
  have hrec : recordAt Store.five.dataFile (Store.five.index.get (WireKey.letter 107 (by decide)).bytes)
      = some ⟨9, 0, decimal 5⟩ := by decide +kernel
  have hin : CountsWithin 5 [.step 3 false answer] := ⟨by decide, show wrap32 8 = 8 by decide⟩
  exact ⟨st', answer, hrun, (counter_law hkey hrec hrun hin).1.1⟩

end Tstdb
