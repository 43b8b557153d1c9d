/-
# `Tstdb.Client.Cas` — compare and swap from the client

`gets` keeps the sign of a value in `cas_ids`, and `cas` sends it along.  The sign is the
offset of a record, and no offset is used twice.  So `cas` returns true exactly when no
command since `gets` has changed the key, whatever has been written, deleted and written
again in between; then the value is stored, and otherwise nothing has happened
(`cas_after_gets`).

* The signs are kept where `cache_cas` is set.  By default it is not, and `cas` is `set`.
-/
import Mathlib
import Tstdb.Lib.Runs
import Tstdb.Lib.CText
import Tstdb.Lib.PyText
import Tstdb.Lib.Bytes
import Tstdb.Lib.Outcome
import Tstdb.Tst.Arena
import Tstdb.Tst.Runs
import Tstdb.Server.Index
import Tstdb.Server.Store
import Tstdb.Server.Sections
import Tstdb.Server.View
import Tstdb.Server.Pool
import Tstdb.Server.Commands
import Tstdb.Server.Values
import Tstdb.Server.Replies
import Tstdb.Server.Requests
import Tstdb.Server.History
import Tstdb.Server.Dialogue
import Tstdb.Client.Host
import Tstdb.Client.Keys
import Tstdb.Client.Values
import Tstdb.Client.Lines
import Tstdb.Client.Calls
import Tstdb.Client.Session

namespace Tstdb

open CText Bytes Outcome Runs PyText

attribute [local instance] lawful_bytes

/-! ## The client -/

/-- `_expect_cas_value` -/
def expectCasValue (line : List UInt8) : Except ClientError (Option (List UInt8 × Int × Int × Int)) :=
  if line ≠ [] ∧ line.take 5 = ascii "VALUE" then
    match words line with
    | [_, rkey, flags, len, casId] => do
        let flags ← toInt flags
        let len ← toInt len
        let casId ← toInt casId
        return some (rkey, flags, len, casId)
    | _ => .error .valueError
  else .ok none

/-- `cas_ids` -/
abbrev CasIds := List UInt8 → Option Int

section Calls

variable {Ω : Type} (codec : Codec Ω)

/-- `_get` with the command `gets` -/
def getsCall (cacheCas : Bool) (server : Host) (casIds : CasIds) (key : List UInt8) :
    Except ClientError (Decoded Ω × CasIds × Host) := do
  checkKey key
  let server := server.sendCmd (ascii "gets " ++ key)
  let (line, server) ← server.readline
  match ← expectCasValue line with
  | none => return (.none, casIds, server)
  | some (rkey, flags, rlen, casId) =>
      let casIds := if cacheCas then Function.update casIds rkey (some casId) else casIds
      let (buf, server) ← recvValue server rlen
      let (_, server) ← server.expect (ascii "END")
      return (decodeValue codec flags buf, casIds, server)

/-- `_set` with the command `cas` -/
def casCall (server : Host) (casIds : CasIds) (key : List UInt8) (val : PyValue Ω) (time minCompressLen : Int) :
    Except ClientError (Bool × Host) := do
  checkKey key
  match valToStoreInfo codec val minCompressLen with
  | none => return (false, server)
  | some (flags, len, text) =>
      match casIds key with
      | none => setCall codec server key val time minCompressLen
      | some casId =>
          let server := server.sendCmd (ascii "cas " ++ key ++ ascii " " ++ decimal flags ++ ascii " " ++
            decimal time ++ ascii " " ++ decimal len ++ ascii " " ++ decimal casId ++ ascii "\r\n" ++ text)
          let (line, server) ← server.expect (ascii "STORED")
          return (decide (line = ascii "STORED"), server)

end Calls

/-! ## `gets` on the server -/

def getsRequest (key : WireKey) : Request := ⟨ascii "gets" ++ 32 :: key.bytes, []⟩

/-- `handle_cmd` handles `gets` for one key. -/
def ServesGets {ι : Type} (ix : ScanIndex ι) (st : Store ι) (key : WireKey) (answer : Answer) (st' : Store ι) : Prop :=
  ∃ now s s' valueBuf valueBuf', (getsRequest key).LiesIn s ∧
    handleCmd ix now s (getsRequest key).header.length 0 ⟨st, valueBuf⟩ = .ok (answer, s', ⟨st', valueBuf'⟩)

/-- The answer to `gets`. -/
def History.getsAnswer (h : History) (key : WireKey) : List UInt8 :=
  match h.last key.toKey with
  | none => ascii "END\r\n"
  | some w => valueText true key.bytes w.offset w.record ++ ascii "END\r\n"

section Gets

variable {ι : Type} {ix : ScanIndex ι} {V : View ix.toIndex} {st st' : Store ι} {h : History} {key : WireKey}

/-- What has not expired is in the reply of one key, and the index stays as it is. -/
theorem Intact.getReply (hi : Intact V st h) (now : Int) (rSign : Bool) (key : WireKey) :
    Tstdb.getReply h.offset st.dataFile now rSign [key.bytes] =
      (match h.last key.toKey with
        | none => []
        | some w => valueText rSign key.bytes w.offset w.record) ++ ascii "END\r\n" ∧
    forget st.dataFile now h.offset key.bytes = h.offset := by
  have hrec := hi.recordOf key.toKey
  rw [Tstdb.getReply, List.flatMap_singleton, valueBlock, forget, hrec]
  cases hl : h.last key.toKey with
  | none => exact ⟨rfl, rfl⟩
  | some w =>
      have hlive : ¬w.record.expired now := fun hx => by
        have hpos := hx.1
        rw [(hi.reads w (hi.mem _ w hl)).2] at hpos
        exact absurd hpos (lt_irrefl 0)
      exact ⟨congrArg (· ++ ascii "END\r\n") (if_neg hlive), if_neg hlive⟩

theorem getsRequest_length : (getsRequest key).header.length = key.bytes.length + 5 := by
  rw [getsRequest, List.length_append, List.length_cons, show (ascii "gets").length = 4 from rfl]
  omega

theorem getsRequest_fits : (getsRequest key).header.length < MAX_BODY_SIZE := by
  have hlimits : MAX_KEY_SIZE + 5 < MAX_BODY_SIZE := by decide
  have := key.short
  rw [getsRequest_length]
  omega

/-- The line asks for the sign of the key. -/
theorem getsRequest_line (hkey : ∀ b ∈ key.bytes, isSpace b = false) {s : Scratch} (hs : (getsRequest key).LiesIn s) :
    methodOf (s.line (getsRequest key).header.length) = .gets ∧
      getWords (s.headBuf.write (getsRequest key).header.length [0]) = some [key.bytes] := by
  have hchars : ∀ b ∈ key.bytes, b ≠ 32 ∧ b ≠ 0 := fun b hb =>
    ⟨fun e => absurd (hkey b hb) (by rw [e]; decide), fun e => key.nul (e ▸ hb)⟩
  have hnul : 0 ∉ (getsRequest key).header := by
    rw [getsRequest, List.mem_append, List.mem_cons]
    rintro (hm | hm | hm)
    · exact absurd hm (by decide)
    · exact absurd hm (by decide)
    · exact key.nul hm
  have hmethod : ∀ b ∈ ascii "gets", b ≠ 32 ∧ b ≠ 0 := by decide +kernel
  have hread := Buf.read_write_append s.headBuf (getsRequest key).header.length [0]
  rw [show s.headBuf.read 0 (getsRequest key).header.length = (getsRequest key).header from hs.header] at hread
  refine ⟨?_, getWords_line hmethod hchars ?_ ?_⟩
  · rw [Scratch.line, show s.headBuf.read 0 (getsRequest key).header.length = (getsRequest key).header from hs.header,
      cstr_of_nul_free hnul]
    rfl
  · have hfits : (getsRequest key).header.length < MAX_BODY_SIZE := getsRequest_fits
    rw [getsRequest_length] at hfits
    rw [show (ascii "gets").length = 4 from rfl]
    omega
  · have hend : (ascii "gets").length + 1 + (key.bytes.length + 1) =
        (getsRequest key).header.length + ([0] : List UInt8).length := by
      rw [getsRequest_length, show (ascii "gets").length = 4 from rfl, List.length_singleton]
      omega
    rw [hend, hread, getsRequest]
    simp only [List.append_assoc, List.cons_append]

/-- `gets` is answered from the history and leaves it alone. -/
theorem Intact.servesGets (hw : ix.Works V) (hi : Intact V st h) (hkey : ∀ b ∈ key.bytes, isSpace b = false)
    {answer : Answer} (hs : ServesGets ix st key answer st') : answer = .sent [h.getsAnswer key] ∧ Intact V st' h := by
  obtain ⟨now, s, s', valueBuf, valueBuf', hlies, he⟩ := hs
  obtain ⟨hmethod, hwords⟩ := getsRequest_line hkey hlies
  rw [handleCmd_eq ix now s _ getsRequest_fits ⟨le_refl _, by decide⟩] at he
  have hends : Ends (fun _ => True) (fun r => r.1 = .sent [h.getsAnswer key] ∧ Intact V r.2.store h)
      (runCmd ix now (s.line (getsRequest key).header.length)
        ⟨s.headBuf.write (getsRequest key).header.length [0], s.bodyBuf.write (0 : Int).toNat [0]⟩ ⟨st, valueBuf⟩) := by
    rw [runCmd, hmethod]
    refine Ends.map (Ends.excuse (Tstdb.cmdDoGet_ends hw hi.rep hi.complete valueBuf) fun _ _ => trivial) ?_
    rintro ⟨chunks, st', vb⟩ ⟨ws, hws, -, hchunks, hrep, hdata⟩
    obtain rfl := Option.some.inj (hwords.symm.trans hws)
    obtain ⟨htext, hforget⟩ := hi.getReply now true key
    simp only at hchunks hrep hdata
    rw [List.foldl_cons, hforget, List.foldl_nil] at hrep
    refine ⟨?_, hrep, hi.mem, hdata ▸ hi.reads, hi.framed, hi.apart, hdata ▸ hi.pos⟩
    rw [hchunks, htext, History.getsAnswer]
    cases h.last key.toKey <;> rfl
  generalize runCmd ix now _ _ _ = x at he hends
  cases x with
  | error f => cases he
  | ok r =>
      obtain ⟨a, sh⟩ := r
      cases he
      exact hends

end Gets

/-! ## What `gets` and `cas` read -/

section Reads

variable {Ω : Type} {codec : Codec Ω} {h : History} {key : WireKey} {server : Host} {rest : List UInt8}
  {casIds : CasIds}

/-- The line of a value with its sign is understood. -/
theorem expectCasValue_spec {w : List UInt8} {flag len casId : Int} (hne : w ≠ []) (hw : ∀ b ∈ w, isSpace b = false) :
    expectCasValue (ascii "VALUE " ++ w ++ ascii " " ++ decimal flag ++ ascii " " ++ decimal len ++ ascii " " ++
      decimal casId) = .ok (some (w, flag, len, casId)) := by
  have hline : ascii "VALUE " ++ w ++ ascii " " ++ decimal flag ++ ascii " " ++ decimal len ++ ascii " " ++
      decimal casId = ascii "VALUE" ++ 32 :: (w ++ 32 :: (decimal flag ++ 32 :: (decimal len ++ 32 :: decimal casId))) := by
    rw [show ascii "VALUE " = ascii "VALUE" ++ [32] from rfl, show ascii " " = [32] from rfl]
    simp only [List.append_assoc, List.cons_append, List.nil_append]
  have hvalue : ascii "VALUE" ≠ [] := by decide
  have htake : (ascii "VALUE" ++ 32 :: (w ++ 32 :: (decimal flag ++ 32 :: (decimal len ++ 32 :: decimal casId)))).take 5
      = ascii "VALUE" := List.take_left' rfl
  have hwords : words (ascii "VALUE" ++ 32 :: (w ++ 32 :: (decimal flag ++ 32 :: (decimal len ++ 32 :: decimal casId))))
      = [ascii "VALUE", w, decimal flag, decimal len, decimal casId] := by
    rw [words_append hvalue (by decide +kernel), words_append hne hw, words_append (decimal_ne_nil _) isSpace_decimal,
      words_append (decimal_ne_nil _) isSpace_decimal, words_single (decimal_ne_nil _) isSpace_decimal]
  rw [hline, expectCasValue, if_pos ⟨List.append_ne_nil_of_left_ne_nil hvalue _, htake⟩, hwords]
  simp only [toInt, int_decimal, Option.elim_some]
  rfl

/-- `gets` returns the value and keeps its sign. -/
theorem gets_returns (hkey : checkKey key.bytes = .ok ()) {w : Written} (hlast : h.last key.toKey = some w)
    (hs : server.Holds (h.getsAnswer key ++ rest)) :
    ∃ server', getsCall codec true server casIds key.bytes = .ok (decodeValue codec w.record.flag w.record.body,
        Function.update casIds key.bytes (some (w.offset : Int)), server') ∧ server'.Holds rest ∧
      server'.sent = server.sent ++ ((getsRequest key).header ++ crlf) := by
  obtain ⟨hspace, h13⟩ := key_visible hkey
  obtain ⟨offset, flag, expire, body⟩ := w
  have hcmd : ascii "gets " ++ key.bytes = (getsRequest key).header := rfl
  have hs₁ := hs.sendCmd (getsRequest key).header
  have hstream : h.getsAnswer key ++ rest = (ascii "VALUE " ++ key.bytes ++ ascii " " ++ decimal flag ++ ascii " " ++
      decimal body.length ++ ascii " " ++ decimal offset) ++ PyText.crlf ++
        (body ++ PyText.crlf ++ (ascii "END\r\n" ++ rest)) := by
    rw [History.getsAnswer, hlast, show PyText.crlf = ascii "\r\n" from rfl]
    simp only [valueText, valueLine, if_true, decimal_natCast, List.append_assoc]
  have hcr : 13 ∉ ascii "VALUE " ++ key.bytes ++ ascii " " ++ decimal flag ++ ascii " " ++ decimal body.length ++
      ascii " " ++ decimal offset := by
    have hdec : ∀ n : Int, 13 ∉ decimal n := fun n hm => absurd (le_of_mem_decimal hm).1 (by decide)
    have hspace1 : 13 ∉ ascii " " := by decide
    simp only [List.mem_append, not_or]
    exact ⟨⟨⟨⟨⟨⟨⟨by decide +kernel, h13⟩, hspace1⟩, hdec _⟩, hspace1⟩, hdec _⟩, hspace1⟩, hdec _⟩
  rw [hstream] at hs₁
  obtain ⟨server₂, hline, hs₂⟩ := readline_spec hs₁ hcr
  obtain ⟨server₃, hbody, hs₃⟩ := recvValue_spec hs₂
  obtain ⟨server₄, hend, hs₄⟩ := expect_end hs₃
  refine ⟨server₄, ?_, hs₄, ?_⟩
  · simp only [getsCall, hkey, hcmd, hline, bind, Except.bind, expectCasValue_spec key.ne hspace, hbody, hend, if_true]
    rfl
  · rw [readline_sent hend, recvValue_sent hbody, readline_sent hline, Host.sendCmd, List.append_assoc]
    rfl

/-- `cas` returns whether the sign is still that of the key. -/
theorem cas_returns {val : PyValue Ω} {minCompressLen flags : Int} {body : Body} {sign : Nat}
    (hkey : checkKey key.bytes = .ok ())
    (hinfo : valToStoreInfo codec val minCompressLen = some (flags, body.bytes.length, body.bytes))
    (hsign : casIds key.bytes = some (sign : Int))
    (hs : server.Holds (((Command.cas key flags body sign false).answer h).flatten ++ rest)) :
    ∃ server', casCall codec server casIds key.bytes val 0 minCompressLen =
        .ok (decide (h.offset key.toKey = sign), server') ∧
      server'.Holds rest ∧ server'.sent = server.sent ++ (Command.cas key flags body sign false).wire := by
  obtain ⟨cmd, hcmd⟩ : ∃ cmd, cmd = ascii "cas " ++ key.bytes ++ ascii " " ++ decimal flags ++ ascii " " ++
    decimal 0 ++ ascii " " ++ decimal body.bytes.length ++ ascii " " ++ decimal (sign : Int) ++ ascii "\r\n" ++
    body.bytes := ⟨_, rfl⟩
  have hs₁ := hs.sendCmd cmd
  have hwire : (server.sendCmd cmd).sent = server.sent ++ (Command.cas key flags body sign false).wire := by
    rw [Host.sendCmd, hcmd, show ascii "cas " = ascii "cas" ++ [32] from rfl, show ascii " " = [32] from rfl,
      show ascii "\r\n" = crlf from rfl, show PyText.crlf = crlf from rfl]
    simp [Command.wire, Command.header, Command.method, Command.args, Command.key, Command.body?, spaced, noreplyWord]
  have hanswer : ∃ line, 13 ∉ line ∧ decide (line = ascii "STORED") = decide (h.offset key.toKey = sign) ∧
      ((Command.cas key flags body sign false).answer h).flatten = line ++ PyText.crlf := by
    rcases Classical.em (h.offset key.toKey = sign) with hsame | hother
    · refine ⟨ascii "STORED", by decide +kernel, by rw [decide_eq_true rfl, decide_eq_true hsame], ?_⟩
      simp only [Command.answer, Bool.false_eq_true, if_false, if_pos hsame]
      rfl
    · refine ⟨ascii "EXISTS", by decide +kernel, by rw [decide_eq_false (by decide), decide_eq_false hother], ?_⟩
      simp only [Command.answer, Bool.false_eq_true, if_false, if_neg hother]
      rfl
  obtain ⟨line, hcr, hdecide, hline⟩ := hanswer
  rw [hline] at hs₁
  obtain ⟨server₂, hread, hs₂⟩ := readline_spec hs₁ hcr
  have hexpect : (server.sendCmd cmd).expect (ascii "STORED") = .ok (line, server₂) := hread
  refine ⟨server₂, ?_, hs₂, by rw [readline_sent hread, hwire]⟩
  rw [hcmd] at hexpect
  simp only [casCall, hkey, hinfo, hsign, bind, Except.bind, hexpect, ← hdecide]
  rfl

end Reads

/-! ## No sign comes back -/

/-- The command changes the value of the key. -/
def Command.Changes (h : History) (key : Key) (c : Command) : Prop :=
  c.key.toKey = key ∧ match c with
    | .set .. => True
    | .cas _ _ _ sign _ => h.offset key = sign
    | .incrOrDecr .. | .delete _ => h.last key ≠ none
    | .get _ => False

/-- None of the commands changes the key. -/
def History.Untouched (key : Key) : History → List Served → Prop
  | _, [] => True
  | h, x :: served => ¬x.command.Changes h key ∧ History.Untouched key (h.serve x) served

section Signs

variable {ι : Type} {ix : ScanIndex ι} {V : View ix.toIndex} {st st' : Store ι} {h : History} {key : Key} {w : Written}

theorem Command.after_unchanged {c : Command} (hc : ¬c.Changes h key) (offset : Nat) :
    (c.after offset h).last key = h.last key := by
  rcases Classical.em (c.key.toKey = key) with rfl | hk
  · cases c with
    | set k flag body noreply => exact absurd ⟨rfl, trivial⟩ hc
    | cas k flag body sign noreply =>
        have hsign : ¬h.offset k.toKey = sign := fun e => hc ⟨rfl, e⟩
        simp only [Command.after, if_neg hsign]
    | incrOrDecr k delta isDecr =>
        have hnone : h.last k.toKey = none := Classical.not_not.mp fun e => hc ⟨rfl, e⟩
        simp only [Command.after, hnone]
    | delete k =>
        have hnone : h.last k.toKey = none := Classical.not_not.mp fun e => hc ⟨rfl, e⟩
        exact (Function.update_self _ _ _).trans hnone.symm
    | get k => rfl
  · exact c.after_other offset h fun e => hk e.symm

/-- A key that is changed has no value or one at the end of the file. -/
theorem Command.after_changed {c : Command} (hc : c.Changes h key) (offset : Nat) :
    (c.after offset h).offset key = 0 ∨ (c.after offset h).offset key = offset := by
  obtain ⟨rfl, hc⟩ := hc
  have hstore : ∀ (k : Key) (r : Record), (h.store k ⟨offset, r⟩).offset k = offset := fun k r => by
    rw [History.offset_store, Function.update_self]
  cases c with
  | set k flag body noreply => exact Or.inr (hstore _ _)
  | cas k flag body sign noreply =>
      have hsign : h.offset k.toKey = sign := hc
      simp only [Command.after, if_pos hsign]
      exact Or.inr (hstore _ _)
  | incrOrDecr k delta isDecr =>
      obtain ⟨w, hw⟩ := Option.ne_none_iff_exists'.mp (show h.last k.toKey ≠ none from hc)
      simp only [Command.after, hw]
      exact Or.inr (hstore _ _)
  | delete k =>
      refine Or.inl ?_
      simp only [Command.after, History.offset_remove]
      exact Function.update_self _ _ _
  | get k => exact hc.elim

/-- What was written stays written. -/
theorem Command.mem_after {c : Command} (hw : w ∈ h.writes) (offset : Nat) : w ∈ (c.after offset h).writes := by
  cases c with
  | set k flag body noreply => exact List.mem_append_left _ hw
  | cas k flag body sign noreply =>
      simp only [Command.after]
      split_ifs
      · exact List.mem_append_left _ hw
      · exact hw
  | incrOrDecr k delta isDecr =>
      simp only [Command.after]
      split
      · exact hw
      · exact List.mem_append_left _ hw
  | delete k => exact hw
  | get k => exact hw

/-- A change takes the sign of an earlier record away from the key, and nothing brings it back. -/
theorem Intact.offset_serve (hi : Intact V st h) {x : Served} (hs : Serves ix st x st') (hmem : w ∈ h.writes) :
    (h.serve x).offset key = w.offset ↔ h.offset key = w.offset ∧ ¬x.command.Changes h key := by
  rcases Classical.em (x.command.Changes h key) with hc | hc
  · refine iff_of_false (fun e => ?_) fun hno => hno.2 hc
    have hpos := hi.pos.2 w hmem
    have hend := (readTmp_of_recordAt (hi.reads w hmem).1).2.2
    have hoff := hs.1
    rcases Command.after_changed hc x.offset with h0 | hnew
    · have h0' : (h.serve x).offset key = 0 := h0
      omega
    · have hnew' : (h.serve x).offset key = x.offset := hnew
      omega
  · have hsame : (h.serve x).offset key = h.offset key := by
      rw [History.offset, History.offset, History.serve, Command.after_unchanged hc]
    rw [hsame]
    exact (and_iff_left hc).symm

theorem Intact.offset_run (hw : ix.Works V) {between : List Served} (hrun : Run (Serves ix) st between st') :
    ∀ {h : History}, Intact V st h → w ∈ h.writes →
      ((between.foldl History.serve h).offset key = w.offset ↔ h.offset key = w.offset ∧ h.Untouched key between) := by
  induction hrun with
  | nil st => exact fun _ _ => (and_iff_left trivial).symm
  | @cons st st' st'' x between hs _ ih =>
      intro h hi hmem
      rw [List.foldl_cons, ih (hi.serves hw hs).2 (Command.mem_after hmem x.offset), hi.offset_serve hs hmem, and_assoc]
      rfl

end Signs

/-- A client gets a value with its sign, others do what they like, and the client's `cas`
sends the sign.  It returns true exactly when no command in between has changed the key.  Then
its value is stored under the key; otherwise nothing has changed. -/
theorem cas_after_gets {ι Ω : Type} {ix : ScanIndex ι} {V : View ix.toIndex} (hw : ix.Works V) {codec : Codec Ω}
    (hc : codec.Lawful) {st st₁ st₂ st₃ : Store ι} {h : History} (hi : Intact V st h) {key : WireKey}
    (hkey : checkKey key.bytes = .ok ()) {w : Written} (hlast : h.last key.toKey = some w) {answer : Answer}
    (hgets : ServesGets ix st key answer st₁) {between : List Served} (hbetween : Run (Serves ix) st₁ between st₂)
    {val : PyValue Ω} {minCompressLen flags : Int} {body : Body}
    (hinfo : valToStoreInfo codec val minCompressLen = some (flags, body.bytes.length, body.bytes)) {y : Served}
    (hy : y.command = .cas key flags body w.offset false) (hcas : Serves ix st₂ y st₃) (casIds : CasIds)
    {server : Host} {rest : List UInt8} (hserver : server.Holds (answer.bytes ++ rest)) :
    ∃ casIds' server₁, getsCall codec true server casIds key.bytes =
        .ok (decodeValue codec w.record.flag w.record.body, casIds', server₁) ∧ server₁.Holds rest ∧
      server₁.sent = server.sent ++ ((getsRequest key).header ++ crlf) ∧
      (∀ key', key' ≠ key.bytes → casIds' key' = casIds key') ∧
      ∀ (server₂ : Host) (rest' : List UInt8), server₂.Holds (y.answer.bytes ++ rest') →
        ∃ stored server₃, casCall codec server₂ casIds' key.bytes val 0 minCompressLen = .ok (stored, server₃) ∧
          server₃.Holds rest' ∧ server₃.sent = server₂.sent ++ y.command.wire ∧
          (stored = true ↔ h.Untouched key.toKey between) ∧ decodeValue codec flags body.bytes = .value val ∧
          Intact V st₃ (if stored = true
            then (between.foldl History.serve h).store key.toKey ⟨st₂.dataFile.length, ⟨flags, 0, body.bytes⟩⟩
            else between.foldl History.serve h) := by
  obtain ⟨rfl, hi₁⟩ := hi.servesGets hw (key_visible hkey).1 hgets
  have hbytes : (Answer.sent [h.getsAnswer key]).bytes = h.getsAnswer key := List.flatten_singleton
  rw [hbytes] at hserver
  obtain ⟨server₁, hread, hrest, hsent⟩ := gets_returns hkey hlast hserver
  refine ⟨_, server₁, hread, hrest, hsent, fun key' hne => Function.update_of_ne hne _ _, ?_⟩
  intro server₂ rest' hserver₂
  have hi₂ := hi₁.run hw hbetween
  obtain ⟨hanswer, hi₃⟩ := hi₂.serves hw hcas
  have hoffset : h.offset key.toKey = w.offset := by simp [History.offset, hlast]
  have hsame : (between.foldl History.serve h).offset key.toKey = w.offset ↔ h.Untouched key.toKey between := by
    rw [Intact.offset_run hw hbetween hi₁ (hi.mem _ w hlast)]
    exact and_iff_right hoffset
  have hserve : (between.foldl History.serve h).serve y =
      if (between.foldl History.serve h).offset key.toKey = w.offset
        then (between.foldl History.serve h).store key.toKey ⟨st₂.dataFile.length, ⟨flags, 0, body.bytes⟩⟩
        else between.foldl History.serve h := by
    rw [History.serve, hy, hcas.1]
    rfl
  rw [hserve] at hi₃
  rw [hanswer, hy] at hserver₂
  obtain ⟨server₃, hcall, hrest', hsent'⟩ := cas_returns hkey hinfo (Function.update_self _ _ _) hserver₂
  refine ⟨_, server₃, hcall, hrest', by rw [hsent', hy], ?_, (value_roundtrip hc hinfo).1, ?_⟩
  · rw [decide_eq_true_eq]
    exact hsame
  · simp only [decide_eq_true_eq]
    exact hi₃

theorem none_framed : (ascii "N.").length ≤ VALUE_LIMIT := by decide

/-- `None`, pickled. -/
def noneBody : Body := ⟨ascii "N.", none_framed⟩

/-- The value is set once more in between, and so the sign is another one. -/
theorem cas_after_gets_again : ∃ (st st₁ st₂ st₃ : Store KeyMap) (gets : Answer) (between : List Served) (y : Served),
    ServesGets ScanIndex.map st (.letter 110 letter_n_ne) gets st₁ ∧
      Run (Serves ScanIndex.map) st₁ between st₂ ∧ Serves ScanIndex.map st₂ y st₃ ∧
      ∃ casIds server₁, getsCall Codec.noneOnly true ⟨[], gets.bytes.map fun b => [b], []⟩ (fun _ => none) [110] =
          .ok (.value (.object ()), casIds, server₁) ∧
        ∃ server₃, casCall Codec.noneOnly ⟨[], y.answer.bytes.map fun b => [b], []⟩ casIds [110] (.object ()) 0 0 =
            .ok (false, server₃) := by
  obtain ⟨line, hline⟩ : ∃ line : Scratch,
      line = ⟨fun j => (ascii "set n 1 0 2").getD j 0, fun j => (ascii "N.").getD j 0⟩ := ⟨_, rfl⟩
  obtain ⟨a₁, s₁, st, vb, a₂, s₂, st₁, vb₁, a₃, s₃, st₂, vb₂, a₄, s₄, st₃, vb₃, h₁, h₂, h₃, h₄⟩ :
      ∃ a₁ s₁ st vb a₂ s₂ st₁ vb₁ a₃ s₃ st₂ vb₂ a₄ s₄ st₃ vb₃,
      handleCmd ScanIndex.map 0 line 11 2 ⟨.fresh, fun _ => 0⟩ = .ok (a₁, s₁, ⟨st, vb⟩) ∧
      handleCmd ScanIndex.map 0 ⟨fun j => (ascii "gets n").getD j 0, fun _ => 0⟩ 6 0 ⟨st, fun _ => 0⟩
        = .ok (a₂, s₂, ⟨st₁, vb₁⟩) ∧
      handleCmd ScanIndex.map 0 line 11 2 ⟨st₁, fun _ => 0⟩ = .ok (a₃, s₃, ⟨st₂, vb₂⟩) ∧
      handleCmd ScanIndex.map 0 ⟨fun j => (ascii "cas n 1 0 2 6").getD j 0, fun j => (ascii "N.").getD j 0⟩ 13 2
        ⟨st₂, fun _ => 0⟩ = .ok (a₄, s₄, ⟨st₃, vb₃⟩) := by
    rw [hline]
    exact ⟨_, _, _, _, _, _, _, _, _, _, _, _, _, _, _, _, rfl, rfl, rfl, rfl⟩
  have hkey : checkKey (WireKey.letter 110 letter_n_ne).bytes = .ok () := by decide +kernel
  have hset : (Command.set (.letter 110 letter_n_ne) 1 noneBody false).AskedBy line 11 2 := by
    rw [hline]
    exact ⟨by decide, by decide +kernel, by decide +kernel, by decide +kernel, rfl, by decide +kernel⟩
  have hcas : (Command.cas (.letter 110 letter_n_ne) 1 noneBody 6 false).AskedBy
      ⟨fun j => (ascii "cas n 1 0 2 6").getD j 0, fun j => (ascii "N.").getD j 0⟩ 13 2 :=
    ⟨by decide, by decide +kernel, by decide +kernel, by decide +kernel, rfl, by decide +kernel⟩
  have hserved : Serves ScanIndex.map .fresh ⟨.set (.letter 110 letter_n_ne) 1 noneBody false, 6, a₁⟩ st :=
    ⟨rfl, 0, line, 11, 2, _, s₁, vb, hset, h₁⟩
  have hgets : ServesGets ScanIndex.map st (.letter 110 letter_n_ne) a₂ st₁ :=
    ⟨0, _, s₂, _, vb₁, ⟨by decide +kernel, by decide +kernel⟩, h₂⟩
  have hbetween : Run (Serves ScanIndex.map) st₁
      [⟨.set (.letter 110 letter_n_ne) 1 noneBody false, st₁.dataFile.length, a₃⟩] st₂ :=
    .cons ⟨rfl, 0, line, 11, 2, _, s₃, vb₂, hset, h₃⟩ (.nil _)
  have hy : Serves ScanIndex.map st₂
      ⟨.cas (.letter 110 letter_n_ne) 1 noneBody 6 false, st₂.dataFile.length, a₄⟩ st₃ :=
    ⟨rfl, 0, _, 13, 2, _, s₄, vb₃, hcas, h₄⟩
  have hfresh : @Intact _ ScanIndex.map View.map Store.fresh .empty := Intact.start rfl (by decide)
  have hi := (hfresh.serves ScanIndex.map_works hserved).2
  have hholds : ∀ bytes : List UInt8, Host.Holds ⟨[], bytes.map fun b => [b], []⟩ (bytes ++ []) := fun bytes =>
    ⟨by rw [← List.flatMap_def, List.flatMap_singleton', List.append_nil]; rfl, by simp⟩
  have hlast : (History.empty.serve ⟨.set (.letter 110 letter_n_ne) 1 noneBody false, 6, a₁⟩).last
      (WireKey.letter 110 letter_n_ne).toKey = some ⟨6, ⟨1, 0, noneBody.bytes⟩⟩ := by
    simp only [History.serve, Command.after, History.store, Function.update_self]
  have hinfo : valToStoreInfo Codec.noneOnly (.object ()) 0 = some (1, noneBody.bytes.length, noneBody.bytes) := rfl
  obtain ⟨casIds, server₁, hread, -, -, -, hcalls⟩ := cas_after_gets ScanIndex.map_works Codec.noneOnly_lawful hi hkey
    hlast hgets hbetween hinfo rfl hy (fun _ => none) (hholds _)
  obtain ⟨stored, server₃, hcall, -, -, hstored, -⟩ := hcalls _ _ (hholds _)
  have hchanged : ¬History.Untouched (WireKey.letter 110 letter_n_ne).toKey (History.empty.serve
      ⟨.set (.letter 110 letter_n_ne) 1 noneBody false, 6, a₁⟩)
      [⟨.set (.letter 110 letter_n_ne) 1 noneBody false, st₁.dataFile.length, a₃⟩] := fun hu => hu.1 ⟨rfl, trivial⟩
  obtain rfl : stored = false := Bool.eq_false_of_not_eq_true (mt hstored.mp hchanged)
  exact ⟨st, st₁, st₂, st₃, a₂, _, _, hgets, hbetween, hy, casIds, server₁, hread, server₃, hcall⟩

end Tstdb
