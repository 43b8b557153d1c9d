/-
# `Tstdb.Server.History` — what the commands have written is what they read

The store is an append-only file of records and an index of offsets.  What it is for
is a map from keys to values, and `History` is that map together with all records
ever written: every command changes it in a simple way (`Command.after`) and is
answered from it (`Command.answer`).  A store is `Intact` for a history if its index
leads to the last record of each key and every record written is still there, apart
from the others.  `handle_cmd` keeps it so, one request after the other.

The requests are the single-key commands whose values do not expire and whose header
announces the length of their body.
-/
import Mathlib
import Tstdb.Lib.CText
import Tstdb.Lib.Bytes
import Tstdb.Lib.Outcome
import Tstdb.Lib.Runs
import Tstdb.Tst.Arena
import Tstdb.Tst.Runs
import Tstdb.Tst.Scan
import Tstdb.Server.Index
import Tstdb.Server.Store
import Tstdb.Server.Sections
import Tstdb.Server.View
import Tstdb.Server.Boot
import Tstdb.Server.Pool
import Tstdb.Server.Commands
import Tstdb.Server.Values
import Tstdb.Server.Replies

namespace Tstdb

open CText Bytes Outcome Runs

/-! ## Commands and histories -/

inductive Command where
  | set (key : WireKey) (flag : Int) (body : Body) (noreply : Bool)
  | cas (key : WireKey) (flag : Int) (body : Body) (sign : Nat) (noreply : Bool)
  | incrOrDecr (key : WireKey) (delta : Int) (isDecr : Bool)
  | delete (key : WireKey)
  | get (key : WireKey)

def Command.key : Command → WireKey
  | .set key .. | .cas key .. | .incrOrDecr key .. | .delete key | .get key => key

/-- A record and where it was written. -/
structure Written where
  offset : Nat
  record : Record
deriving DecidableEq, Repr

/-- The first record ends before the second one starts. -/
def Written.Before (w w' : Written) : Prop := w.offset + 12 + w.record.body.length ≤ w'.offset

structure History where
  /-- The last record of each key, if it has not been deleted. -/
  last : Key → Option Written
  /-- All records, in the order in which they were written. -/
  writes : List Written

namespace History

def empty : History := ⟨fun _ => none, []⟩

def store (h : History) (key : Key) (w : Written) : History := ⟨Function.update h.last key (some w), h.writes ++ [w]⟩

def remove (h : History) (key : Key) : History := { h with last := Function.update h.last key none }

/-- The offset of a key, `0` where it has no value. -/
def offset (h : History) (key : Key) : Nat := ((h.last key).map Written.offset).getD 0

theorem offset_store (h : History) (key : Key) (w : Written) :
    (h.store key w).offset = Function.update h.offset key w.offset := by
  funext k
  rcases Classical.em (k = key) with rfl | hne
  · simp [offset, store]
  · simp [offset, store, Function.update_of_ne hne]

theorem offset_remove (h : History) (key : Key) : (h.remove key).offset = Function.update h.offset key 0 := by
  funext k
  rcases Classical.em (k = key) with rfl | hne
  · simp [offset, remove]
  · simp [offset, remove, Function.update_of_ne hne]

end History

/-- The history after a command, when the data file ends at `offset`. -/
def Command.after (offset : Nat) (h : History) : Command → History
  | .set key flag body _ => h.store key.toKey ⟨offset, ⟨flag, 0, body.bytes⟩⟩
  | .cas key flag body sign _ =>
      if h.offset key.toKey = sign then h.store key.toKey ⟨offset, ⟨flag, 0, body.bytes⟩⟩ else h
  | .incrOrDecr key delta isDecr =>
      match h.last key.toKey with
      | none => h
      | some w => h.store key.toKey
          ⟨offset, ⟨w.record.flag, w.record.expire, decimal (steppedNumber w.record.body delta isDecr)⟩⟩
  | .delete key => h.remove key.toKey
  | .get _ => h

/-- The answer to a command. -/
def Command.answer (h : History) : Command → List (List UInt8)
  | .set _ _ _ noreply => if noreply then [] else [ascii "STORED\r\n"]
  | .cas key _ _ sign noreply =>
      if noreply then [] else [if h.offset key.toKey = sign then ascii "STORED\r\n" else ascii "EXISTS\r\n"]
  | .incrOrDecr key delta isDecr =>
      match h.last key.toKey with
      | none => [ascii "NOT_FOUND\r\n"]
      | some w => [decimal (steppedNumber w.record.body delta isDecr) ++ ascii "\r\n"]
  | .delete key => [if (h.last key.toKey).isSome then ascii "DELETED\r\n" else ascii "NOT_FOUND\r\n"]
  | .get key =>
      match h.last key.toKey with
      | none => [ascii "END\r\n"]
      | some w => [valueLine key.bytes w.record.flag w.record.body.length none ++ w.record.body ++ ascii "\r\n" ++
          ascii "END\r\n"]

/-- A number to be stepped fits `str_number`. -/
def Command.Short (h : History) : Command → Prop
  | .incrOrDecr key _ _ => ∀ w, h.last key.toKey = some w → w.record.body.length < HEADER_BUF_SIZE
  | _ => True

/-- A command leaves the other keys alone. -/
theorem Command.after_other (offset : Nat) (h : History) (c : Command) {key : Key} (hk : key ≠ c.key.toKey) :
    (c.after offset h).last key = h.last key := by
  cases c with
  | set k flag body noreply => exact Function.update_of_ne hk _ _
  | cas k flag body sign noreply =>
      simp only [Command.after]
      split_ifs
      · exact Function.update_of_ne hk _ _
      · rfl
  | incrOrDecr k delta isDecr =>
      simp only [Command.after]
      split
      · rfl
      · exact Function.update_of_ne hk _ _
  | delete k => exact Function.update_of_ne hk _ _
  | get k => rfl

/-! ## Requests -/

/-- The header line and the body in the arrays are the command. -/
def Command.AskedBy (s : Scratch) (headerLen : Nat) (bodyLen : Int) (c : Command) : Prop :=
  headerLen < MAX_BODY_SIZE ∧
    match c with
    | .set key flag body noreply => methodOf (s.line headerLen) = .set ∧
        sscanf (s.line headerLen) "%s %s %d %d %d" =
          [.str (ascii "set"), .str key.bytes, .int flag, .int 0, .int body.bytes.length] ∧
        endsWith (s.line headerLen) (ascii " noreply") = noreply ∧
        bodyLen = body.bytes.length ∧ s.bodyBuf.read 0 body.bytes.length = body.bytes
    | .cas key flag body sign noreply => methodOf (s.line headerLen) = .cas ∧
        sscanf (s.line headerLen) "%s %s %d %d %d %llu" =
          [.str (ascii "cas"), .str key.bytes, .int flag, .int 0, .int body.bytes.length, .ull sign] ∧
        endsWith (s.line headerLen) (ascii " noreply") = noreply ∧
        bodyLen = body.bytes.length ∧ s.bodyBuf.read 0 body.bytes.length = body.bytes
    | .incrOrDecr key delta isDecr => methodOf (s.line headerLen) = (if isDecr then .decr else .incr) ∧
        sscanf (s.line headerLen) "%s %s %d" =
          [.str (if isDecr then ascii "decr" else ascii "incr"), .str key.bytes, .int delta] ∧ bodyLen = 0
    | .delete key => methodOf (s.line headerLen) = .delete ∧
        sscanf (s.line headerLen) "%s %s" = [.str (ascii "delete"), .str key.bytes] ∧ bodyLen = 0
    | .get key => methodOf (s.line headerLen) = .get ∧
        getWords (s.headBuf.write headerLen [0]) = some [key.bytes] ∧ bodyLen = 0

/-! ## Intact stores -/

section Intact

variable {ι : Type} {ix : ScanIndex ι} {V : View ix.toIndex} {st : Store ι} {h : History}

structure Intact (V : View ix.toIndex) (st : Store ι) (h : History) : Prop where
  rep : V.Rep st.index h.offset
  mem : ∀ key w, h.last key = some w → w ∈ h.writes
  reads : ∀ w ∈ h.writes, recordAt st.dataFile w.offset = some w.record ∧ w.record.expire = 0
  framed : ∀ w ∈ h.writes, w.record.body.length ≤ VALUE_LIMIT
  apart : h.writes.Pairwise Written.Before
  pos : 0 < st.dataFile.length ∧ ∀ w ∈ h.writes, 0 < w.offset

/-- What is read as an `int` is one. -/
theorem wrap32_of_recordAt {data : List UInt8} {off : Nat} {r : Record} (hr : recordAt data off = some r) :
    wrap32 r.flag = r.flag ∧ wrap32 r.expire = r.expire := by
  obtain ⟨htmp, -, -⟩ := readTmp_of_recordAt hr
  unfold readTmp at htmp
  split_ifs at htmp
  obtain ⟨hflag, hexpire⟩ := Prod.mk.inj (Prod.mk.inj (Except.ok.inj htmp)).2
  rw [← hflag, ← hexpire]
  exact ⟨wrap32_wrap32 _, wrap32_wrap32 _⟩

theorem Intact.complete (hi : Intact V st h) : Complete h.offset st.dataFile := by
  intro key hne
  cases hl : h.last key with
  | none => exact absurd (by simp [History.offset, hl]) hne
  | some w =>
      rw [show h.offset key = w.offset by simp [History.offset, hl], (hi.reads w (hi.mem key w hl)).1]
      rfl

/-- What the index leads to. -/
theorem Intact.recordOf (hi : Intact V st h) (key : Key) :
    recordOf h.offset st.dataFile key.bytes = (h.last key).map fun w => (w.offset, w.record) := by
  rw [Tstdb.recordOf, offsetOf_key]
  cases hl : h.last key with
  | none => exact if_pos (by simp [History.offset, hl])
  | some w =>
      have hmem := hi.mem key w hl
      rw [show h.offset key = w.offset by simp [History.offset, hl], if_neg (Nat.pos_iff_ne_zero.mp (hi.pos.2 w hmem)),
        (hi.reads w hmem).1]
      rfl

/-- A record is written behind all others. -/
theorem Intact.store (hi : Intact V st h) {key : Key} {flag : Int} {body log : List UInt8} {i : ι}
    (hrep : V.Rep i (Function.update h.offset key st.dataFile.length)) (hf : wrap32 flag = flag)
    (hb : body.length ≤ VALUE_LIMIT) :
    Intact V ⟨i, st.dataFile ++ recordBytes body.length flag 0 body, log⟩
      (h.store key ⟨st.dataFile.length, ⟨flag, 0, body⟩⟩) := by
  have hsmall : body.length < 2147483648 := lt_of_le_of_lt hb (by decide)
  refine ⟨?_, ?_, ?_, ?_, ?_, ?_⟩
  · rw [History.offset_store]
    exact hrep
  · intro k w hw
    rcases Classical.em (k = key) with rfl | hne
    · obtain rfl : _ = w := by simpa [History.store] using hw
      exact List.mem_append_right _ (List.mem_singleton_self _)
    · exact List.mem_append_left _ (hi.mem k w ((Function.update_of_ne hne _ _).symm.trans hw))
  · intro w hw
    rcases List.mem_append.mp hw with hold | hnew
    · exact ⟨recordAt_append _ (hi.reads w hold).1, (hi.reads w hold).2⟩
    · obtain rfl := List.mem_singleton.mp hnew
      refine ⟨?_, rfl⟩
      rw [recordAt_recordBytes st.dataFile flag 0 hsmall, hf]
      rfl
  · intro w hw
    rcases List.mem_append.mp hw with hold | hnew
    · exact hi.framed w hold
    · obtain rfl := List.mem_singleton.mp hnew
      exact hb
  · refine List.pairwise_append.mpr ⟨hi.apart, List.pairwise_singleton _ _, fun w hw w' hw' => ?_⟩
    obtain rfl := List.mem_singleton.mp hw'
    exact (readTmp_of_recordAt (hi.reads w hw).1).2.2
  · refine ⟨by rw [List.length_append]; exact Nat.add_pos_left hi.pos.1 _, fun w hw => ?_⟩
    rcases List.mem_append.mp hw with hold | hnew
    · exact hi.pos.2 w hold
    · obtain rfl := List.mem_singleton.mp hnew
      exact hi.pos.1

theorem Intact.remove (hi : Intact V st h) {key : Key} {log : List UInt8} {i : ι}
    (hrep : V.Rep i (Function.update h.offset key 0)) : Intact V ⟨i, st.dataFile, log⟩ (h.remove key) := by
  refine ⟨?_, ?_, hi.reads, hi.framed, hi.apart, hi.pos⟩
  · rw [History.offset_remove]
    exact hrep
  · intro k w hw
    rcases Classical.em (k = key) with rfl | hne
    · simp [History.remove] at hw
    · exact hi.mem k w ((Function.update_of_ne hne _ _).symm.trans hw)

theorem perform_storeActs_ends (hw : ix.Works V) {m : Key → Nat} (hr : V.Rep st.index m) (k : WireKey) (reply : Reply)
    (flag expire : Int) (body : List UInt8) (hb : body.length ≤ MAX_BODY_SIZE) :
    Ends (fun _ => ¬st.Roomy)
      (fun r => r.1 = reply ∧ ∃ i log, V.Rep i (Function.update m k.toKey st.dataFile.length) ∧
        r.2 = ⟨i, st.dataFile ++ recordBytes body.length flag expire body, log⟩)
      (perform ix st (.ok (reply, storeActs st.dataFile.length k.bytes body.length flag expire body))) := by
  cases he : Act.execAll ix.toIndex st (storeActs st.dataFile.length k.bytes body.length flag expire body) with
  | error e =>
      simp only [perform, bind, Except.bind, he]
      intro hroom
      obtain ⟨st', hst'⟩ := perform_storeActs hw hr hroom k reply body.length flag expire body hb
      simp only [perform, bind, Except.bind, he] at hst'
      cases hst'
  | ok st' =>
      have hst := execAll_storeActs he
      rw [perform_ok reply he]
      exact ⟨rfl, st'.index, st'.binlog, V.put hr hst.index, by rw [← hst.data]⟩

theorem perform_deleteActs_ends (hw : ix.Works V) {m : Key → Nat} (hr : V.Rep st.index m) (k : WireKey)
    (reply : Reply) :
    Ends (fun _ => ¬st.Roomy)
      (fun r => r.1 = reply ∧ ∃ i log, V.Rep i (Function.update m k.toKey 0) ∧ r.2 = ⟨i, st.dataFile, log⟩)
      (perform ix st (.ok (reply, deleteActs k.bytes))) := by
  cases he : Act.execAll ix.toIndex st (deleteActs k.bytes) with
  | error e =>
      simp only [perform, bind, Except.bind, he]
      intro hroom
      obtain ⟨st', hst'⟩ := perform_deleteActs hw hr hroom k reply
      simp only [perform, bind, Except.bind, he] at hst'
      cases hst'
  | ok st' =>
      have hrm := execAll_deleteActs he
      rw [perform_ok reply he]
      exact ⟨rfl, st'.index, st'.binlog, V.delete hr (hw.delete k.toKey hr).1 hrm.index, by rw [← hrm.data]⟩

/-- A method and a key that fit their arrays. -/
theorem scanned_ok {α : Type} {line method : List UInt8} {fmt : String} {key : WireKey} {rest : List Arg}
    (hscan : sscanf line fmt = .str method :: .str key.bytes :: rest) (hrest : rest.filterMap Arg.text? = [])
    (hm : method.length < HEADER_BUF_SIZE) (args : Option α) :
    scanned line fmt [methodArray, keyArray] args = .ok args := by
  have hk := key.short
  unfold scanned
  rw [hscan]
  simp only [overruns, List.filterMap_cons, Arg.text?, hrest, List.zip_cons_cons, methodArray, keyArray,
    if_neg (show ¬HEADER_BUF_SIZE ≤ method.length by omega), if_neg (show ¬MAX_KEY_SIZE ≤ key.bytes.length by omega)]
  rfl

variable {line : List UInt8} {k : WireKey} {now : Int}

theorem Intact.cmdDoSet_ends (hw : ix.Works V) (hi : Intact V st h) {flag : Int} {body : Body} {noreply : Bool}
    {buf : Buf} (hscan : sscanf line "%s %s %d %d %d" =
      [.str (ascii "set"), .str k.bytes, .int flag, .int 0, .int body.bytes.length])
    (hn : endsWith line (ascii " noreply") = noreply) (hf : wrap32 flag = flag)
    (hbody : buf.read 0 body.bytes.length = body.bytes) :
    Ends (fun _ => ¬st.Roomy)
      (fun r => r.1 = (Command.set k flag body noreply).answer h ∧
        Intact V r.2 ((Command.set k flag body noreply).after st.dataFile.length h))
      (cmdDoSet ix now line buf st) := by
  have hargs : setArgs line = some (k.bytes, flag, 0, (body.bytes.length : Int)) := by rw [setArgs, hscan]
  have hle : body.bytes.length ≤ MAX_BODY_SIZE := le_trans body.framed (by decide)
  rw [cmdDoSet, hargs, scanned_ok hscan rfl (by decide)]
  simp only [bind, Except.bind, bodyOf, if_neg (show ¬(body.bytes.length : Int) < 0 by omega),
    if_neg (show ¬(MAX_BODY_SIZE : Int) < body.bytes.length by omega), Int.toNat_natCast, hbody, setPlan,
    if_neg (lt_irrefl (0 : Int))]
  have hp := perform_storeActs_ends hw hi.rep k .stored flag 0 body.bytes hle
  cases he : perform ix st (.ok (.stored, storeActs st.dataFile.length k.bytes body.bytes.length flag 0 body.bytes)) with
  | error e => rwa [he] at hp
  | ok r =>
      rw [he] at hp
      obtain ⟨reply, st'⟩ := r
      obtain ⟨rfl, i, log, hrep, rfl⟩ := hp
      refine ⟨?_, hi.store hrep hf body.framed⟩
      simp only [sendUnlessNoreply, hn]
      rfl

theorem Intact.cmdDoCas_ends (hw : ix.Works V) (hi : Intact V st h) {flag : Int} {body : Body} {sign : Nat}
    {noreply : Bool} {buf : Buf} (hscan : sscanf line "%s %s %d %d %d %llu" =
      [.str (ascii "cas"), .str k.bytes, .int flag, .int 0, .int body.bytes.length, .ull sign])
    (hn : endsWith line (ascii " noreply") = noreply) (hf : wrap32 flag = flag)
    (hbody : buf.read 0 body.bytes.length = body.bytes) :
    Ends (fun _ => ¬st.Roomy)
      (fun r => r.1 = (Command.cas k flag body sign noreply).answer h ∧
        Intact V r.2 ((Command.cas k flag body sign noreply).after st.dataFile.length h))
      (cmdDoCas ix line buf st) := by
  have hargs : casArgs line = some (k.bytes, flag, 0, (body.bytes.length : Int), sign) := by rw [casArgs, hscan]
  have hle : body.bytes.length ≤ MAX_BODY_SIZE := le_trans body.framed (by decide)
  have hv : ix.get st.index k.bytes = some (h.offset k.toKey) := by
    rw [hw.get_word hi.rep k.nul, offsetOf_key]
  rw [cmdDoCas, hargs, scanned_ok hscan rfl (by decide)]
  simp only [bind, Except.bind, if_neg (show ¬(body.bytes.length : Int) < 0 by omega), casActs_eq hv,
    if_neg (show ¬(MAX_BODY_SIZE : Int) < body.bytes.length by omega), Int.toNat_natCast, hbody, Command.answer,
    Command.after]
  rcases Classical.em (h.offset k.toKey = sign) with hs | hs
  · simp only [if_pos hs]
    have hp := perform_storeActs_ends hw hi.rep k .stored flag 0 body.bytes hle
    cases he : perform ix st
        (.ok (.stored, storeActs st.dataFile.length k.bytes body.bytes.length flag 0 body.bytes)) with
    | error e => rwa [he] at hp
    | ok r =>
        rw [he] at hp
        obtain ⟨reply, st'⟩ := r
        obtain ⟨rfl, i, log, hrep, rfl⟩ := hp
        refine ⟨?_, hi.store hrep hf body.framed⟩
        simp only [sendUnlessNoreply, hn]
        rfl
  · simp only [if_neg hs, perform_nil]
    exact ⟨by simp only [sendUnlessNoreply, hn]; rfl, hi⟩

theorem Intact.cmdDoDelete_ends (hw : ix.Works V) (hi : Intact V st h)
    (hscan : sscanf line "%s %s" = [.str (ascii "delete"), .str k.bytes]) :
    Ends (fun _ => ¬st.Roomy)
      (fun r => r.1 = (Command.delete k).answer h ∧ Intact V r.2 ((Command.delete k).after st.dataFile.length h))
      (cmdDoDelete ix line st) := by
  have hargs : deleteArgs line = some k.bytes := by rw [deleteArgs, hscan]
  have hv : ix.get st.index k.bytes = some (h.offset k.toKey) := by
    rw [hw.get_word hi.rep k.nul, offsetOf_key]
  rw [cmdDoDelete, hargs, scanned_ok hscan rfl (by decide)]
  simp only [bind, Except.bind, deletePlan, hv, returns, Option.elim_some, pure, Except.pure, Command.answer,
    Command.after]
  cases hl : h.last k.toKey with
  | none =>
      have h0 : h.offset k.toKey = 0 := by simp [History.offset, hl]
      have hsame : h.remove k.toKey = h := by
        rw [History.remove, ← hl, Function.update_eq_self]
      simp only [h0, if_true, perform_nil, hsame]
      exact ⟨rfl, hi⟩
  | some w =>
      have h0 : h.offset k.toKey ≠ 0 := by
        simpa [History.offset, hl] using Nat.pos_iff_ne_zero.mp (hi.pos.2 w (hi.mem _ w hl))
      simp only [h0, if_false]
      have hp := perform_deleteActs_ends hw hi.rep k .deleted
      cases he : perform ix st (.ok (.deleted, deleteActs k.bytes)) with
      | error e => rwa [he] at hp
      | ok r =>
          rw [he] at hp
          obtain ⟨reply, st'⟩ := r
          obtain ⟨rfl, i, log, hrep, rfl⟩ := hp
          exact ⟨rfl, hi.remove hrep⟩

/-- A record that is stepped. -/
theorem incrOrDecr_ends (hw : ix.Works V) {m : Key → Nat} (hr : V.Rep st.index m) {delta : Int} {isDecr : Bool}
    {method : List UInt8} (hm : method.length < HEADER_BUF_SIZE)
    (hscan : sscanf line "%s %s %d" = [.str method, .str k.bytes, .int delta]) (hne : m k.toKey ≠ 0) {r : Record}
    (hrec : recordAt st.dataFile (m k.toKey) = some r) :
    Ends (fun _ => ¬(st.Roomy ∧ r.body.length < HEADER_BUF_SIZE))
      (fun x => x.1 = [decimal (steppedNumber r.body delta isDecr) ++ ascii "\r\n"] ∧
        ∃ i log, V.Rep i (Function.update m k.toKey st.dataFile.length) ∧
          x.2 = ⟨i, st.dataFile ++ recordBytes (decimal (steppedNumber r.body delta isDecr)).length r.flag r.expire
            (decimal (steppedNumber r.body delta isDecr)), log⟩)
      (incrOrDecr ix line isDecr st) := by
  have hargs : incrOrDecrArgs line = some (k.bytes, delta) := by rw [incrOrDecrArgs, hscan]
  have hv : ix.get st.index k.bytes = some (m k.toKey) := by
    rw [hw.get_word hr k.nul, offsetOf_key]
  obtain ⟨htmp, hbody, -⟩ := readTmp_of_recordAt hrec
  rw [incrOrDecr, hargs, scanned_ok hscan rfl hm]
  simp only [bind, Except.bind, incrOrDecrPlan, hv, returns, Option.elim_some, pure, Except.pure, hne, if_false, htmp,
    Int.toNat_natCast, hbody]
  rcases Nat.lt_or_ge r.body.length HEADER_BUF_SIZE with hlt | hge
  · rw [if_neg (by omega)]
    have hp := perform_storeActs_ends hw hr k (.number (steppedNumber r.body delta isDecr)) r.flag r.expire
      (decimal (steppedNumber r.body delta isDecr)) (le_trans (length_decimal_wrap32 _) (by decide))
    simp only [steppedNumber] at hp ⊢
    generalize perform ix st _ = x at hp ⊢
    cases x with
    | error e => exact fun hf => hp hf.1
    | ok x =>
        obtain ⟨reply, st'⟩ := x
        obtain ⟨rfl, hrep⟩ := hp
        exact ⟨rfl, hrep⟩
  · rw [if_pos (Or.inr (by omega))]
    exact fun hf => absurd hf.2 (by omega)

theorem Intact.incrOrDecr_ends (hw : ix.Works V) (hi : Intact V st h) {delta : Int} {isDecr : Bool}
    {method : List UInt8} (hm : method.length < HEADER_BUF_SIZE)
    (hscan : sscanf line "%s %s %d" = [.str method, .str k.bytes, .int delta]) :
    Ends (fun _ => ¬(st.Roomy ∧ (Command.incrOrDecr k delta isDecr).Short h))
      (fun r => r.1 = (Command.incrOrDecr k delta isDecr).answer h ∧
        Intact V r.2 ((Command.incrOrDecr k delta isDecr).after st.dataFile.length h))
      (incrOrDecr ix line isDecr st) := by
  simp only [Command.answer, Command.after]
  cases hl : h.last k.toKey with
  | none =>
      have hargs : incrOrDecrArgs line = some (k.bytes, delta) := by rw [incrOrDecrArgs, hscan]
      have h0 : h.offset k.toKey = 0 := by simp [History.offset, hl]
      have hv : ix.get st.index k.bytes = some 0 := by
        rw [hw.get_word hi.rep k.nul, offsetOf_key, h0]
      rw [incrOrDecr, hargs, scanned_ok hscan rfl hm]
      simp only [bind, Except.bind, incrOrDecrPlan, hv, returns, Option.elim_some, pure, Except.pure, if_true,
        perform_nil]
      exact ⟨rfl, hi⟩
  | some w =>
      have hmem := hi.mem _ w hl
      have hoff : h.offset k.toKey = w.offset := by simp [History.offset, hl]
      obtain ⟨hrec, hx⟩ := hi.reads w hmem
      refine Ends.imp (Ends.excuse (Tstdb.incrOrDecr_ends hw hi.rep hm hscan
        (hoff ▸ Nat.pos_iff_ne_zero.mp (hi.pos.2 w hmem)) (hoff ▸ hrec)) fun e he hf => he ⟨hf.1, hf.2 w hl⟩) ?_
      rintro ⟨chunks, st'⟩ ⟨hc, i, log, hrep, rfl⟩
      refine ⟨hc, ?_⟩
      simp only [hx]
      exact hi.store hrep (wrap32_of_recordAt hrec).1 (le_trans (length_decimal_wrap32 _) (by decide))

/-- One value always fits the value buffer. -/
theorem length_valueText {r : Record} (hk : k.bytes.length < MAX_KEY_SIZE) (hf : wrap32 r.flag = r.flag)
    (hb : r.body.length ≤ VALUE_LIMIT) (off : Nat) :
    (valueText false k.bytes off r).length + 5 ≤ VALUE_BUF_SIZE := by
  have hflag : (decimal r.flag).length ≤ 11 := hf ▸ length_decimal_wrap32 _
  have hlen : (decimal (r.body.length : Int)).length ≤ 11 := by
    have hlt : r.body.length < 2147483648 := lt_of_le_of_lt hb (by decide)
    rw [← wrap32_of_range (n := (r.body.length : Int)) (by omega) (by omega)]
    exact length_decimal_wrap32 _
  have hlimits : VALUE_LIMIT + MAX_KEY_SIZE + 50 ≤ VALUE_BUF_SIZE := by decide
  simp only [valueText, valueLine, Bool.false_eq_true, if_false, List.length_append, List.length_nil,
    show (ascii "VALUE ").length = 6 by decide, show (ascii " ").length = 1 by decide,
    show (ascii "\r\n").length = 2 by decide]
  omega

theorem Intact.cmdDoGet_ends (hw : ix.Works V) (hi : Intact V st h) {header valueBuf : Buf}
    (hwords : getWords header = some [k.bytes]) :
    Ends (fun _ => ¬st.Roomy)
      (fun r => r.1 = (Command.get k).answer h ∧ Intact V r.2.1 h) (cmdDoGet ix now false header st valueBuf) := by
  have hrec := hi.recordOf k.toKey
  have hlive : ∀ w, h.last k.toKey = some w → ¬w.record.expired now := fun w hl hx => by
    have := hx.1
    rw [(hi.reads w (hi.mem _ w hl)).2] at this
    exact absurd this (lt_irrefl 0)
  have hblock : valueBlock h.offset st.dataFile now false k.bytes =
      match h.last k.toKey with
      | none => []
      | some w => valueText false k.bytes w.offset w.record := by
    rw [valueBlock, hrec]
    cases hl : h.last k.toKey with
    | none => rfl
    | some w => exact if_neg (hlive w hl)
  have hforget : forget st.dataFile now h.offset k.bytes = h.offset := by
    rw [forget, hrec]
    cases hl : h.last k.toKey with
    | none => rfl
    | some w => exact if_neg (hlive w hl)
  have hfit : Fitting h.offset st.dataFile now false 0 [k.bytes] := by
    refine ⟨List.forall_mem_singleton.mpr k.short, ?_⟩
    rw [List.flatMap_singleton, hblock]
    cases hl : h.last k.toKey with
    | none => exact show 0 + ([] : List UInt8).length + 5 ≤ VALUE_BUF_SIZE by decide
    | some w =>
        have hmem := hi.mem _ w hl
        simpa using length_valueText k.short (wrap32_of_recordAt (hi.reads w hmem).1).1 (hi.framed w hmem) w.offset
  refine Ends.imp (Ends.excuse (Tstdb.cmdDoGet_ends hw hi.rep hi.complete valueBuf)
    fun e he hroom => he ⟨hroom.log, _, hwords, hfit⟩) ?_
  rintro ⟨chunks, st', vb⟩ ⟨ws, hws, -, hchunks, hrep, hdata⟩
  obtain rfl := Option.some.inj (hwords.symm.trans hws)
  simp only at hchunks hrep hdata
  refine ⟨?_, ?_⟩
  · simp only [hchunks, getReply, List.flatMap_singleton, hblock, Command.answer]
    cases hl : h.last k.toKey <;> rfl
  · rw [List.foldl_cons, hforget, List.foldl_nil] at hrep
    exact ⟨hrep, hi.mem, hdata ▸ hi.reads, hi.framed, hi.apart, hdata ▸ hi.pos⟩

/-- The request is answered from the history, and its command goes into it. -/
theorem Intact.handleCmd_ends (hw : ix.Works V) {sh : Shared ι} (hi : Intact V sh.store h) {s : Scratch}
    {headerLen : Nat} {bodyLen : Int} {c : Command} (hask : c.AskedBy s headerLen bodyLen) (now : Int) :
    Ends (fun _ => ¬(sh.store.Roomy ∧ c.Short h))
      (fun r => r.1 = .sent (c.answer h) ∧ Intact V r.2.2.store (c.after sh.store.dataFile.length h))
      (handleCmd ix now s headerLen bodyLen sh) := by
  obtain ⟨hlen, hask⟩ := hask
  have hbody : 0 ≤ bodyLen ∧ bodyLen < MAX_BODY_SIZE := by
    have hlimits : VALUE_LIMIT < MAX_BODY_SIZE := by decide
    cases c with
    | set key flag body noreply => have := body.framed; obtain ⟨-, -, -, rfl, -⟩ := hask; omega
    | cas key flag body sign noreply => have := body.framed; obtain ⟨-, -, -, rfl, -⟩ := hask; omega
    | incrOrDecr key delta isDecr => obtain ⟨-, -, rfl⟩ := hask; decide
    | delete key => obtain ⟨-, -, rfl⟩ := hask; decide
    | get key => obtain ⟨-, -, rfl⟩ := hask; decide
  have hread : ∀ n : Nat, bodyLen = n → (s.bodyBuf.write bodyLen.toNat [0]).read 0 n = s.bodyBuf.read 0 n :=
    fun n hn => by rw [hn, Int.toNat_natCast, Buf.read_write_before]
  have hrun : Ends (fun _ => ¬(sh.store.Roomy ∧ c.Short h))
      (fun r => r.1 = .sent (c.answer h) ∧ Intact V r.2.store (c.after sh.store.dataFile.length h))
      (runCmd ix now (s.line headerLen) ⟨s.headBuf.write headerLen [0], s.bodyBuf.write bodyLen.toNat [0]⟩ sh) := by
    cases c with
    | set key flag body noreply =>
        obtain ⟨hm, hscan, hn, hl, hb⟩ := hask
        have hf : wrap32 flag = flag :=
          scan_int (show Arg.int flag ∈ sscanf (s.line headerLen) "%s %s %d %d %d" by rw [hscan]; simp)
        rw [runCmd, hm]
        exact Ends.map (Ends.excuse (hi.cmdDoSet_ends hw hscan hn hf ((hread _ hl).trans hb))
          fun e he hroom => he hroom.1) fun r hr => ⟨congrArg Answer.sent hr.1, hr.2⟩
    | cas key flag body sign noreply =>
        obtain ⟨hm, hscan, hn, hl, hb⟩ := hask
        have hf : wrap32 flag = flag :=
          scan_int (show Arg.int flag ∈ sscanf (s.line headerLen) "%s %s %d %d %d %llu" by rw [hscan]; simp)
        rw [runCmd, hm]
        exact Ends.map (Ends.excuse (hi.cmdDoCas_ends hw hscan hn hf ((hread _ hl).trans hb))
          fun e he hroom => he hroom.1) fun r hr => ⟨congrArg Answer.sent hr.1, hr.2⟩
    | incrOrDecr key delta isDecr =>
        obtain ⟨hm, hscan, -⟩ := hask
        cases isDecr with
        | false =>
            rw [runCmd, hm]
            exact Ends.map (hi.incrOrDecr_ends hw (by decide) hscan)
              fun r hr => ⟨congrArg Answer.sent hr.1, hr.2⟩
        | true =>
            rw [runCmd, hm]
            exact Ends.map (hi.incrOrDecr_ends hw (by decide) hscan)
              fun r hr => ⟨congrArg Answer.sent hr.1, hr.2⟩
    | delete key =>
        obtain ⟨hm, hscan, -⟩ := hask
        rw [runCmd, hm]
        exact Ends.map (Ends.excuse (hi.cmdDoDelete_ends hw hscan) fun e he hroom => he hroom.1)
          fun r hr => ⟨congrArg Answer.sent hr.1, hr.2⟩
    | get key =>
        obtain ⟨hm, hwords, -⟩ := hask
        rw [runCmd, hm]
        exact Ends.map (Ends.excuse (hi.cmdDoGet_ends hw hwords) fun e he hroom => he hroom.1)
          fun r hr => ⟨congrArg Answer.sent hr.1, hr.2⟩
  rw [handleCmd_eq ix now s sh hlen hbody]
  exact Ends.map hrun fun r hr => hr

end Intact

/-! ## Runs -/

/-- A request that was handled, and where the data file ended when it came. -/
structure Served where
  command : Command
  offset : Nat
  answer : Answer

/-- `handle_cmd` handles the command, whatever else its worker has in its arrays. -/
def Serves {ι : Type} (ix : ScanIndex ι) (st : Store ι) (x : Served) (st' : Store ι) : Prop :=
  x.offset = st.dataFile.length ∧ ∃ now s headerLen bodyLen valueBuf s' valueBuf',
    x.command.AskedBy s headerLen bodyLen ∧
      handleCmd ix now s headerLen bodyLen ⟨st, valueBuf⟩ = .ok (x.answer, s', ⟨st', valueBuf'⟩)

def History.serve (h : History) (x : Served) : History := x.command.after x.offset h

section Run

variable {ι : Type} {ix : ScanIndex ι} {V : View ix.toIndex} {st st' : Store ι} {h : History} {x : Served}

theorem Intact.serves (hw : ix.Works V) (hi : Intact V st h) (hs : Serves ix st x st') :
    x.answer = .sent (x.command.answer h) ∧ Intact V st' (h.serve x) := by
  obtain ⟨hoff, now, s, headerLen, bodyLen, vb, s', vb', hask, he⟩ := hs
  rw [History.serve, hoff]
  exact (hi.handleCmd_ends hw hask now).ok he

theorem Intact.run (hw : ix.Works V) {served : List Served} (hrun : Run (Serves ix) st served st')
    (hi : Intact V st h) : Intact V st' (served.foldl History.serve h) :=
  Run.simulates (R := Intact V) History.serve (fun _ _ _ _ hi hs => (Intact.serves hw hi hs).2) hrun h hi

end Run

/-- A store whose index is empty. -/
theorem Intact.start {start : Store KeyMap} (hi : start.index = KeyMap.empty) (hd : start.dataFile ≠ []) :
    @Intact _ ScanIndex.map View.map start .empty := by
  refine ⟨fun key => ?_, fun key w hw => ?_, fun w hw => ?_, fun w hw => ?_, List.Pairwise.nil,
    List.length_pos_iff.mpr hd, fun w hw => ?_⟩
  · simp [hi, KeyMap.get, KeyMap.empty, History.offset, History.empty]
  · cases hw
  · cases hw
  · cases hw
  · cases hw

/-- After every run each key leads to the record last stored under it, all records
written are intact and apart, and the next request is answered from them. -/
theorem store_keeps_records {start : Store KeyMap} (hindex : start.index = KeyMap.empty)
    (hdata : start.dataFile ≠ []) {served : List Served} {st : Store KeyMap}
    (hrun : Run (Serves ScanIndex.map) start served st) :
    ∃ h, h = served.foldl History.serve .empty ∧
      (∀ key : Key, st.index.get key.bytes = h.offset key) ∧
      (∀ key w, h.last key = some w →
        readTmp st.dataFile w.offset = .ok (w.record.body.length, w.record.flag, w.record.expire) ∧
          slice st.dataFile (w.offset + 12) w.record.body.length = w.record.body) ∧
      (∀ w ∈ h.writes, w.offset ≠ 0 ∧ recordAt st.dataFile w.offset = some w.record) ∧
      h.writes.Pairwise Written.Before ∧
      (∀ (c : Command) (now : Int) (s : Scratch) (headerLen : Nat) (bodyLen : Int) (valueBuf : Buf),
        c.AskedBy s headerLen bodyLen → st.Roomy → c.Short h →
          ∃ s' sh', handleCmd ScanIndex.map now s headerLen bodyLen ⟨st, valueBuf⟩ =
            .ok (.sent (c.answer h), s', sh')) ∧
      ∀ x st', Serves ScanIndex.map st x st' → x.answer = .sent (x.command.answer h) ∧
        ∀ key : WireKey, key.toKey ≠ x.command.key.toKey →
          (Command.get key).answer (h.serve x) = (Command.get key).answer h := by
  have hi : @Intact _ ScanIndex.map View.map st _ :=
    Intact.run ScanIndex.map_works hrun (Intact.start hindex hdata)
  refine ⟨_, rfl, fun key => (hi.rep key).symm, fun key w hl => ?_, fun w hw => ?_, hi.apart, ?_, ?_⟩
  · obtain ⟨htmp, hbody, -⟩ := readTmp_of_recordAt (hi.reads w (hi.mem key w hl)).1
    exact ⟨htmp, hbody⟩
  · exact ⟨Nat.pos_iff_ne_zero.mp (hi.pos.2 w hw), (hi.reads w hw).1⟩
  · intro c now s headerLen bodyLen vb hask hroom hshort
    have hshared : @Intact _ ScanIndex.map View.map (Shared.mk st vb).store _ := hi
    have hends := hshared.handleCmd_ends ScanIndex.map_works hask now
    obtain ⟨⟨answer, s', sh'⟩, he, rfl, -⟩ := (Ends.excuse hends fun e he => he ⟨hroom, hshort⟩).returns
    exact ⟨s', sh', he⟩
  · intro x st' hs
    refine ⟨(hi.serves ScanIndex.map_works hs).1, fun key hne => ?_⟩
    simp only [Command.answer, History.serve, Command.after_other x.offset _ x.command hne]

/-- A store that is just starting. -/
def Store.fresh : Store KeyMap := ⟨KeyMap.empty, dataFileHead, []⟩

theorem store_keeps_records_set : ∃ x st h, Run (Serves ScanIndex.map) .fresh [x] st ∧ h = History.serve .empty x ∧
    st.index.get [107] = h.offset (.letter 107 (by decide)) := by
  have hask : (Command.set (.letter 107 (by decide)) 5 ⟨[118], by decide⟩ false).AskedBy
      ⟨fun j => (ascii "set k 5 0 1").getD j 0, fun _ => 118⟩ 11 1 :=
    ⟨by decide, by decide +kernel, by decide +kernel, by decide +kernel, rfl, rfl⟩
  obtain ⟨answer, s', st', vb', he⟩ : ∃ answer s' st' vb', handleCmd ScanIndex.map 0
      ⟨fun j => (ascii "set k 5 0 1").getD j 0, fun _ => 118⟩ 11 1 ⟨.fresh, fun _ => 0⟩
        = .ok (answer, s', ⟨st', vb'⟩) := ⟨_, _, _, _, rfl⟩
  have hrun : Run (Serves ScanIndex.map) .fresh [⟨_, Store.fresh.dataFile.length, answer⟩] st' :=
    .cons ⟨rfl, 0, _, 11, 1, _, s', vb', hask, he⟩ (.nil st')
  obtain ⟨h, hh, hget, -⟩ := store_keeps_records rfl (by decide) hrun
  exact ⟨_, st', h, hrun, hh, hget (.letter 107 (by decide))⟩

end Tstdb
