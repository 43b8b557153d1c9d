/-
# `Tstdb.Server.Shutdown` — stopping in the middle of `dump_tst`

Here the index is a map.  A server that is stopped at any point of `dump_tst` and
started again finds an index file and a binlog.  The index file is the old one, in
which case the binlog makes the current map of it, or it is the current map
already, and then the binlog must not change it: it may still be there, and it may
grow before it is replayed the next time.  Both cases are one invariant, `Recorded`.
-/
import Mathlib
import Tstdb.Lib.Runs
import Tstdb.Lib.Journal
import Tstdb.Lib.CText
import Tstdb.Lib.Bytes
import Tstdb.Tst.Runs
import Tstdb.Server.Index
import Tstdb.Server.Store
import Tstdb.Server.Sections
import Tstdb.Server.Boot

namespace Tstdb

open CText Bytes Runs

/-! ## The binlog as a journal -/

/-- The assignments the records stand for; a record whose key is the empty C string
does nothing. -/
def journal (es : List LogEntry) : List (List UInt8 × Nat) :=
  (es.map fun e => (cstr e.key, e.value)).filter fun e => e.1 ≠ []

theorem journal_append (es es' : List LogEntry) : journal (es ++ es') = journal es ++ journal es' := by
  simp [journal]

theorem exec_op_map (m : KeyMap) (e : LogEntry) :
    e.op.exec Index.map m = some (Journal.replay m (journal [e])) := by
  have hop : e.op.exec Index.map m
      = some (if cstr e.key = [] then m else Function.update m (cstr e.key) e.value) := by
    unfold LogEntry.op replayOp
    by_cases hv : 0 < e.value
    · rw [if_pos hv]
      rfl
    · rw [if_neg hv, Nat.eq_zero_of_not_pos hv]
      rfl
  rw [hop]
  by_cases hk : cstr e.key = []
  · simp [journal, hk]
  · simp [journal, hk, Journal.replay]

/-- Over the map, replaying complete records is replaying the journal. -/
theorem execEntries_map (es : List LogEntry) (m : KeyMap) :
    execEntries Index.map m es = .ok (Journal.replay m (journal es)) := by
  induction es generalizing m with
  | nil => rfl
  | cons e es ih =>
      have hsplit : journal (e :: es) = journal [e] ++ journal es := journal_append [e] es
      rw [hsplit, Journal.replay_append, ← ih, execEntries, exec_op_map]
      rfl

/-! ## Lives of a server -/

/-- A running server and the two files it does not touch while it runs. -/
structure Server where
  store : Store KeyMap
  indexFile : Option KeyMap
  tmpFile : TmpFile KeyMap

/-- The files, all of them closed. -/
def Server.disk (sv : Server) : Disk KeyMap :=
  { dataFile := sv.store.dataFile, binlog := sv.store.binlog, indexFile := sv.indexFile
    tmpFile := sv.tmpFile }

/-- `init_data` -/
def boot (disk : Disk KeyMap) : Except Fault Server :=
  (initData Index.map reloadMap disk).map fun store => ⟨store, disk.indexFile, disk.tmpFile⟩

/-- What happens to a server: a section of some command, or a shutdown that gets so
far and the next start. -/
inductive LifeEvent where
  | run (now : Int) (s : Section)
  | restart (p : DumpPoint)

def Server.exec (sv : Server) : LifeEvent → Except Fault Server
  | .run now s => (s.run Index.map now sv.store).map fun (_, st) => { sv with store := st }
  | .restart p => boot (dumpTst sv.store.index sv.disk p)

def Server.Step (sv : Server) (e : LifeEvent) (sv' : Server) : Prop := sv.exec e = .ok sv'

/-- The binlog is short enough for the `int` that counts it. -/
def Server.ShortBinlog (sv : Server) : LifeEvent → Prop
  | .run _ _ => True
  | .restart _ => sv.store.binlog.length < 2147483648

instance (sv : Server) (e : LifeEvent) : Decidable (sv.ShortBinlog e) := by
  cases e <;> unfold Server.ShortBinlog <;> infer_instance

/-- The binlog consists of complete records, and on top of the index file they make
the current map. -/
def Server.Recorded (sv : Server) : Prop :=
  0 < sv.store.dataFile.length ∧ ∃ es, sv.store.binlog = logBytes es ∧
    sv.store.index = Journal.replay (reloadMap sv.indexFile) (journal es)

/-! ## Starting -/

theorem logBytes_append (es es' : List LogEntry) : logBytes (es ++ es') = logBytes es ++ logBytes es' := by
  simp [logBytes]

/-- A record to tell torn tails by; any will do for the empty tail. -/
def someEntry : LogEntry := ⟨[1], 0, by decide, by decide, by decide⟩

theorem replayBinlog_complete {ι : Type} (ix : Index ι) (i : ι) (es : List LogEntry) :
    replayBinlog ix i (logBytes es) =
      (execEntries ix i es).map fun i => (i, truncate (logBytes es) (logBytes es).length) := by
  have h := @replayBinlog_entries ι ix someEntry [] List.nil_prefix (by decide) es i
  simpa only [List.append_nil] using h

/-- `init_data` on complete records: nothing is cut off, the map is what they make. -/
theorem boot_complete {disk : Disk KeyMap} {es : List LogEntry} (hb : disk.binlog = logBytes es)
    (hs : disk.binlog.length < 2147483648) :
    ∃ sv, boot disk = .ok sv ∧ sv.Recorded ∧ sv.store.binlog = disk.binlog ∧
      sv.store.index = Journal.replay (reloadMap disk.indexFile) (journal es) := by
  have htr : truncate (logBytes es) (logBytes es).length = logBytes es := by
    have h := @truncate_entries es [] (by rw [← hb]; exact hs)
    simpa only [List.append_nil] using h
  have hboot : boot disk = .ok ⟨{ index := Journal.replay (reloadMap disk.indexFile) (journal es)
                                  dataFile := if disk.dataFile.length = 0 then dataFileHead else disk.dataFile
                                  binlog := logBytes es }, disk.indexFile, disk.tmpFile⟩ := by
    rw [boot, initData, hb, replayBinlog_complete, execEntries_map, htr]
    rfl
  refine ⟨_, hboot, ⟨?_, es, rfl, rfl⟩, hb.symm, rfl⟩
  show 0 < (if disk.dataFile.length = 0 then dataFileHead else disk.dataFile).length
  split_ifs with h0
  · decide
  · omega

/-! ## Running -/

/-- The record a section logs. -/
def WireKey.entry (key : WireKey) (value : Nat) (h : value < 256 ^ 8) : LogEntry :=
  ⟨key.bytes, value, List.length_pos_iff.mpr key.ne, key.short, h⟩

theorem journal_entry (key : WireKey) (value : Nat) (h : value < 256 ^ 8) :
    journal [key.entry value h] = [(key.bytes, value)] := by
  simp [journal, WireKey.entry, cstr_of_nul_free key.nul, key.ne]

theorem logBytes_entry (key : WireKey) (value : Nat) (h : value < 256 ^ 8) :
    logBytes [key.entry value h] = binlogRecord key.bytes value := by
  simp [logBytes, WireKey.entry, LogEntry.bytes]

/-- A section logs what it does to the map. -/
theorem Server.Recorded.run {sv : Server} {now : Int} {s : Section} {reply : Reply} {st : Store KeyMap}
    (h : sv.Recorded) (hrun : s.run Index.map now sv.store = .ok (reply, st)) :
    ({ sv with store := st } : Server).Recorded := by
  obtain ⟨hpos, es, hlog, hmap⟩ := h
  rcases Section.run_effect hrun with rfl | ⟨flag, expire, body, -, hst⟩ | hrm
  · exact ⟨hpos, es, hlog, hmap⟩
  · have hoff : sv.store.dataFile.length < 256 ^ 8 := by
      have h1 := hst.short
      rw [hst.data, List.length_append] at h1
      have h2 : FILE_LIMIT < 256 ^ 8 := by decide
      omega
    have hindex : sv.store.index.put s.key.bytes sv.store.dataFile.length = st.index :=
      Option.some.inj hst.index
    refine ⟨?_, es ++ [s.key.entry _ hoff], ?_, ?_⟩
    · show 0 < st.dataFile.length
      rw [hst.data, List.length_append]
      omega
    · show st.binlog = _
      rw [hst.log, hlog, logBytes_append, logBytes_entry]
    · show st.index = _
      rw [journal_append, journal_entry, Journal.replay_concat, ← hindex, hmap, KeyMap.put, if_neg s.key.ne]
  · have hindex : sv.store.index.delete s.key.bytes = st.index := Option.some.inj hrm.index
    refine ⟨?_, es ++ [s.key.entry 0 (by decide)], ?_, ?_⟩
    · show 0 < st.dataFile.length
      rw [hrm.data]
      exact hpos
    · show st.binlog = _
      rw [hrm.log, hlog, logBytes_append, logBytes_entry]
    · show st.index = _
      rw [journal_append, journal_entry, Journal.replay_concat, ← hindex, hmap, KeyMap.delete,
        if_neg s.key.ne]

/-! ## Stopping and starting again -/

/-- Wherever `dump_tst` stops, the next start recovers the map. -/
theorem Server.Recorded.restart {sv : Server} (h : sv.Recorded) (hs : sv.store.binlog.length < 2147483648)
    (p : DumpPoint) : ∃ sv', boot (dumpTst sv.store.index sv.disk p) = .ok sv' ∧
      sv'.store.index = sv.store.index ∧ sv'.Recorded := by
  obtain ⟨-, es, hlog, hmap⟩ := h
  have hold : ∀ tmp, ∃ sv', boot { sv.disk with tmpFile := tmp } = .ok sv' ∧
      sv'.store.index = sv.store.index ∧ sv'.Recorded := fun tmp => by
    obtain ⟨sv', hb, hr, -, hi⟩ := @boot_complete { sv.disk with tmpFile := tmp } es hlog hs
    exact ⟨sv', hb, hi.trans hmap.symm, hr⟩
  cases p with
  | beforeDump => exact hold sv.disk.tmpFile
  | whileDumping => exact hold .torn
  | tmpClosed => exact hold (.whole sv.store.index)
  | renamed =>
      obtain ⟨sv', hb, hr, -, hi⟩ :=
        @boot_complete (dumpTst sv.store.index sv.disk .renamed) es hlog hs
      -- the whole log is carried out a second time, on its own result
      have hsettled : Journal.Settled sv.store.index (journal es) := by
        rw [hmap]
        exact Journal.settled_replay _ _
      exact ⟨sv', hb, hi.trans hsettled, hr⟩
  | binlogRemoved =>
      obtain ⟨sv', hb, hr, -, hi⟩ :=
        @boot_complete (dumpTst sv.store.index sv.disk .binlogRemoved) [] rfl (by simp [dumpTst])
      exact ⟨sv', hb, hi, hr⟩

theorem Server.Recorded.step {sv sv' : Server} {e : LifeEvent} (h : sv.Recorded) (hs : sv.ShortBinlog e)
    (hstep : sv.Step e sv') : sv'.Recorded := by
  cases e with
  | run now s =>
      cases hrun : s.run Index.map now sv.store with
      | error f =>
          rw [Server.Step, Server.exec, hrun] at hstep
          cases hstep
      | ok r =>
          rw [Server.Step, Server.exec, hrun] at hstep
          obtain rfl := Except.ok.inj hstep
          exact h.run hrun
  | restart p =>
      obtain ⟨sv₁, hb, -, hr⟩ := h.restart hs p
      obtain rfl : sv₁ = sv' := Except.ok.inj (hb.symm.trans hstep)
      exact hr

/-- After any number of runs and shutdowns, each stopped at any point of `dump_tst`, the
next start recovers exactly the map the server stopped with. -/
theorem restart_recovers_map {disk : Disk KeyMap} {es : List LogEntry} {sv₀ sv : Server}
    {events : List LifeEvent} (hdisk : disk.binlog = logBytes es) (hshort : disk.binlog.length < 2147483648)
    (hboot : boot disk = .ok sv₀) (hrun : Run (Guarded Server.Step Server.ShortBinlog) sv₀ events sv)
    (p : DumpPoint) (hlast : sv.store.binlog.length < 2147483648) :
    ∃ sv', boot (dumpTst sv.store.index sv.disk p) = .ok sv' ∧ sv'.store.index = sv.store.index := by
  obtain ⟨sv₁, hb, hr, -, -⟩ := boot_complete hdisk hshort
  obtain rfl : sv₁ = sv₀ := Except.ok.inj (hb.symm.trans hboot)
  have hinv : sv.Recorded := hrun.preserves (fun _ _ _ hi hs => hi.step hs.1 hs.2) hr
  obtain ⟨sv', hb', hi, -⟩ := hinv.restart hlast p
  exact ⟨sv', hb', hi⟩

def emptyDisk {φ : Type} : Disk φ := { dataFile := [], binlog := [], indexFile := none, tmpFile := .absent }

/-- The log of `a` is replayed on its own result, then grows by a removal of `a`. -/
def regrownEvents : List LifeEvent :=
  [.run 0 (.set (.letter 97 letter_a_ne) 0 0 ⟨[120], letter_x_framed⟩), .restart .renamed,
    .run 0 (.delete (.letter 97 letter_a_ne))]

theorem restart_recovers_map_regrown : ∃ sv₀ sv sv' : Server, boot emptyDisk = .ok sv₀ ∧
    Run (Guarded Server.Step Server.ShortBinlog) sv₀ regrownEvents sv ∧
    boot (dumpTst sv.store.index sv.disk .renamed) = .ok sv' ∧ sv'.store.index = sv.store.index := by
  obtain ⟨sv₀, sv, hboot, hrun, hlast⟩ : ∃ sv₀ sv : Server, boot emptyDisk = .ok sv₀ ∧
      Run (Guarded Server.Step Server.ShortBinlog) sv₀ regrownEvents sv ∧
      sv.store.binlog.length < 2147483648 := by
    obtain ⟨sv₀, hboot⟩ : ∃ sv₀, boot emptyDisk = .ok sv₀ := ⟨_, rfl⟩
    obtain ⟨sv, hsv, hlen⟩ : ∃ sv, runChecked (fun sv e => (sv.exec e).toOption)
        (fun sv e => decide (sv.ShortBinlog e)) sv₀ regrownEvents = some sv ∧
        (if sv.store.binlog.length < 2147483648 then some () else none) = some () := by
      obtain rfl := Except.ok.inj hboot
      exact Option.bind_eq_some_iff.mp (by decide +kernel)
    refine ⟨sv₀, sv, hboot, runChecked_spec (fun sv e sv' h => ?_) (fun _ _ h => of_decide_eq_true h) hsv,
      by by_contra hn; rw [if_neg hn] at hlen; cases hlen⟩
    show sv.exec e = .ok sv'
    cases hx : sv.exec e with
    | error f => rw [hx] at h; cases h
    | ok sv₁ => rw [hx] at h; exact congrArg Except.ok (Option.some.inj h)
  obtain ⟨sv', hb, hi⟩ := @restart_recovers_map _ [] _ _ _ rfl (by decide) hboot hrun .renamed hlast
  exact ⟨sv₀, sv, sv', hboot, hrun, hb, hi⟩

end Tstdb
