/-
# `Tstdb.Client.Batch` — many values at once

`set_multi` writes all its commands before it reads the first answer.  For one server, and
keys that pass, it does what one `set` after the other does: the same bytes are sent, the
same answers taken, and the keys it returns are those whose `set` returns false
(`set_multi_is_sets`).  The exception is a value that is too large for the client.  It is
left out of what is sent, but its answer is waited for all the same, so that every later
answer counts for the wrong key and the call ends with the connection.

On a connection to a worker, whatever other clients do in between, all values are stored
and `set_multi` returns no key (`set_multi_is_served`).

* The keys of the mapping are byte strings.  Then each key with its prefix belongs to one
  key of the mapping, and the dictionary that leads back is left out.
-/
import Mathlib
import Tstdb.Lib.Runs
import Tstdb.Lib.CText
import Tstdb.Lib.PyText
import Tstdb.Lib.Bytes
import Tstdb.Tst.Arena
import Tstdb.Tst.Runs
import Tstdb.Server.Index
import Tstdb.Server.Store
import Tstdb.Server.View
import Tstdb.Server.Pool
import Tstdb.Server.Framing
import Tstdb.Server.Output
import Tstdb.Server.Stream
import Tstdb.Server.Commands
import Tstdb.Server.Values
import Tstdb.Server.Requests
import Tstdb.Server.History
import Tstdb.Server.Dialogue
import Tstdb.Client.Host
import Tstdb.Client.Keys
import Tstdb.Client.Values
import Tstdb.Client.Lines
import Tstdb.Client.Service
import Tstdb.Client.Calls
import Tstdb.Client.Session

namespace Tstdb

open CText PyText Runs

/-- `check_key` with a `key_extra_len`. -/
def checkKeyExtra (key : List UInt8) (keyExtraLen : Nat) : Except ClientError Unit :=
  if key = [] then .error .keyNone
  else if SERVER_MAX_KEY_LENGTH < key.length + keyExtraLen then .error .keyLength
  else if ∃ char ∈ key, char < 33 ∨ char = 127 then .error .keyCharacter
  else .ok ()

/-- `_map_and_prefix_keys` -/
def mapAndPrefixKeys (keyPrefix : List UInt8) (keys : List (List UInt8)) :
    Except ClientError (List (List UInt8)) := do
  if keyPrefix ≠ [] then checkKey keyPrefix
  keys.mapM fun key => do
    checkKeyExtra key keyPrefix.length
    return keyPrefix ++ key

/-- `send_cmds` -/
def Host.sendCmds (server : Host) (cmds : List UInt8) : Host := { server with sent := server.sent ++ cmds }

section Batch

variable {Ω : Type} (codec : Codec Ω) (time : Int) (keyPrefix : List UInt8) (minCompressLen : Int)

/-- What `set_multi` writes for a key, which has its prefix. -/
def multiCmd (key : List UInt8) (val : PyValue Ω) : List UInt8 :=
  match valToStoreInfo codec val minCompressLen with
  | some (flags, len, text) =>
      ascii "set " ++ key ++ ascii " " ++ decimal flags ++ ascii " " ++ decimal time ++ ascii " " ++ decimal len ++
        ascii "\r\n" ++ text ++ ascii "\r\n"
  | none => []

/-- A value that is sent. -/
def Storable (val : PyValue Ω) : Prop := (valToStoreInfo codec val minCompressLen).isSome = true

instance (val : PyValue Ω) : Decidable (Storable codec minCompressLen val) :=
  inferInstanceAs (Decidable ((valToStoreInfo codec val minCompressLen).isSome = true))

/-- The second loop of `set_multi`, a line for each key. -/
def readStored : Host → List (List UInt8) → Except ClientError (List (List UInt8) × Host)
  | server, [] => .ok ([], server)
  | server, key :: keys => do
      let (line, server) ← server.readline
      let (notstored, server) ← readStored server keys
      return (if line = ascii "STORED" then notstored else key :: notstored, server)

/-- `set_multi` -/
def setMulti (server : Host) (mapping : List (List UInt8 × PyValue Ω)) :
    Except ClientError (List (List UInt8) × Host) := do
  let keys ← mapAndPrefixKeys keyPrefix (mapping.map Prod.fst)
  let bigcmd := (keys.zip (mapping.map Prod.snd)).flatMap fun (key, val) => multiCmd codec time minCompressLen key val
  let notstored := (mapping.filter fun e => !decide (Storable codec minCompressLen e.2)).map Prod.fst
  let (unstored, server) ← readStored (server.sendCmds bigcmd) (mapping.map Prod.fst)
  return (notstored ++ unstored, server)

end Batch

/-! ## Keys -/

section Keys

variable {keyPrefix : List UInt8} (hpass : keyPrefix = [] ∨ checkKey keyPrefix = .ok ())

include hpass

theorem mapAndPrefixKeys_ok {keys : List (List UInt8)}
    (hkeys : ∀ key ∈ keys, checkKeyExtra key keyPrefix.length = .ok ()) :
    mapAndPrefixKeys keyPrefix keys = .ok (keys.map fun key => keyPrefix ++ key) := by
  have hmap : keys.mapM (fun key => do
      checkKeyExtra key keyPrefix.length
      return keyPrefix ++ key : List UInt8 → Except ClientError (List UInt8)) =
        .ok (keys.map fun key => keyPrefix ++ key) := by
    induction keys with
    | nil => rfl
    | cons key keys ih =>
        obtain ⟨hkey, hrest⟩ := List.forall_mem_cons.mp hkeys
        rw [List.mapM_cons, ih hrest, hkey]
        rfl
  rw [mapAndPrefixKeys, hmap]
  rcases hpass with rfl | hpass
  · rfl
  · rw [hpass]
    split_ifs <;> rfl

end Keys

/-! ## Sending and reading -/

section Sends

variable {server : Host} {w : List UInt8}

end Sends

/-- Nothing more comes. -/
theorem readline_end {server : Host} (hs : server.Holds []) : server.readline = .error .connectionDead := by
  obtain ⟨hbuffer, hsocket⟩ := hs.empty
  rw [Host.readline, hbuffer, hsocket]
  rfl

/-- The keys whose lines do not say that they were stored. -/
def unstored (keys lines : List (List UInt8)) : List (List UInt8) :=
  ((keys.zip lines).filter fun x => !decide (x.2 = ascii "STORED")).map Prod.fst

/-- A line is read for each key, as long as there are lines. -/
theorem readStored_lines : ∀ (keys : List (List UInt8)) {lines : List (List UInt8)} {server : Host},
    (∀ line ∈ lines, 13 ∉ line) → server.Holds (lines.flatMap fun line => line ++ PyText.crlf) →
    (keys.length ≤ lines.length → ∃ server', readStored server keys = .ok (unstored keys lines, server') ∧
      server'.Holds ((lines.drop keys.length).flatMap fun line => line ++ PyText.crlf) ∧ server'.sent = server.sent) ∧
      (lines.length < keys.length → readStored server keys = .error .connectionDead) := by
  intro keys
  induction keys with
  | nil => exact fun _ hs => ⟨fun _ => ⟨_, rfl, hs, rfl⟩, fun hlt => absurd hlt (Nat.not_lt_zero _)⟩
  | cons key keys ih =>
      intro lines server hlines hs
      cases lines with
      | nil =>
          refine ⟨fun hle => absurd hle (by simp), fun _ => ?_⟩
          rw [readStored, readline_end hs]
          rfl
      | cons line lines =>
          obtain ⟨hline, hrest⟩ := List.forall_mem_cons.mp hlines
          rw [List.flatMap_cons] at hs
          obtain ⟨server₁, hread, hs₁⟩ := readline_spec hs hline
          obtain ⟨hok, herror⟩ := ih hrest hs₁
          rw [readStored, hread]
          simp only [bind, Except.bind, List.length_cons, Nat.add_le_add_iff_right, Nat.add_lt_add_iff_right]
          constructor
          · intro hle
            obtain ⟨server₂, hr, hs₂, hsent⟩ := hok hle
            refine ⟨server₂, ?_, hs₂, hsent.trans (readline_sent hread)⟩
            rw [hr]
            simp only [pure, Except.pure, unstored, List.zip_cons_cons, List.filter_cons]
            by_cases h : line = ascii "STORED" <;> simp [h]
          · intro hlt
            rw [herror hlt]

/-! ## One after the other -/

section Multi

variable {Ω : Type} (codec : Codec Ω) (time : Int) {keyPrefix : List UInt8} (minCompressLen : Int)
  (hpass : keyPrefix = [] ∨ checkKey keyPrefix = .ok ())

include hpass

theorem setMulti_eq {mapping : List (List UInt8 × PyValue Ω)}
    (hkeys : ∀ e ∈ mapping, checkKeyExtra e.1 keyPrefix.length = .ok ()) (server : Host) :
    setMulti codec time keyPrefix minCompressLen server mapping =
      (readStored (server.sendCmds (mapping.flatMap fun e => multiCmd codec time minCompressLen (keyPrefix ++ e.1) e.2))
        (mapping.map Prod.fst)).map fun r =>
          ((mapping.filter fun e => !decide (Storable codec minCompressLen e.2)).map Prod.fst ++ r.1, r.2) := by
  have hok : mapAndPrefixKeys keyPrefix (mapping.map Prod.fst) =
      .ok ((mapping.map Prod.fst).map fun key => keyPrefix ++ key) := mapAndPrefixKeys_ok hpass fun key hk => by
    obtain ⟨e, he, rfl⟩ := List.mem_map.mp hk
    exact hkeys e he
  have hzip : (((mapping.map Prod.fst).map fun key => keyPrefix ++ key).zip (mapping.map Prod.snd)).flatMap
      (fun (key, val) => multiCmd codec time minCompressLen key val) =
        mapping.flatMap fun e => multiCmd codec time minCompressLen (keyPrefix ++ e.1) e.2 := by
    rw [List.map_map, List.zip_map', List.flatMap_map]
    rfl
  rw [setMulti, hok]
  simp only [bind, Except.bind, hzip]
  cases readStored _ (mapping.map Prod.fst) <;> rfl

end Multi

/-- `a` and `b` with numbers. -/
def twoNumbers : List (List UInt8 × PyValue Unit) := [([97], .int 5), ([98], .int 6)]

section Served

variable {Ω : Type} {codec : Codec Ω} {keyPrefix : List UInt8} {minCompressLen : Int}
  {mapping : List (List UInt8 × PyValue Ω)} {commands : List Command}

/-- The entry of a mapping and its command. -/
def SetsEntry (codec : Codec Ω) (keyPrefix : List UInt8) (minCompressLen : Int) (e : List UInt8 × PyValue Ω)
    (c : Command) : Prop :=
  ApiCall.Sends codec (.set (keyPrefix ++ e.1) e.2 minCompressLen) c

theorem SetsEntry.spec {e : List UInt8 × PyValue Ω} {c : Command} (h : SetsEntry codec keyPrefix minCompressLen e c) :
    Storable codec minCompressLen e.2 ∧ multiCmd codec 0 minCompressLen (keyPrefix ++ e.1) e.2 = c.wire ∧
      ∀ h : History, (c.answer h).flatten = ascii "STORED" ++ PyText.crlf := by
  obtain ⟨key, val⟩ := e
  unfold SetsEntry at h
  generalize hpre : keyPrefix ++ key = word at h ⊢
  cases h with
  | @set key _ _ flags body hkey hinfo =>
      refine ⟨?_, ?_, fun _ => rfl⟩
      · rw [Storable, hinfo]
        rfl
      · rw [multiCmd, hinfo, show ascii "set " = ascii "set" ++ [32] from rfl, show ascii " " = [32] from rfl,
          show ascii "\r\n" = crlf from rfl]
        simp [Command.wire, Command.header, Command.method, Command.args, Command.key, Command.body?, spaced,
          noreplyWord]

theorem bigcmd_wire (h : List.Forall₂ (SetsEntry codec keyPrefix minCompressLen) mapping commands) :
    (mapping.flatMap fun e => multiCmd codec 0 minCompressLen (keyPrefix ++ e.1) e.2) =
      commands.flatMap Command.wire := by
  induction h with
  | nil => rfl
  | cons hset _ ih => rw [List.flatMap_cons, List.flatMap_cons, ih, hset.spec.2.1]

theorem answers_stored {l : List (Command × History)}
    (h : List.Forall₂ (SetsEntry codec keyPrefix minCompressLen) mapping (l.map Prod.fst)) :
    (l.flatMap fun x => (x.1.answer x.2).flatten) =
      (mapping.map fun _ => ascii "STORED").flatMap fun line => line ++ PyText.crlf := by
  induction l generalizing mapping with
  | nil =>
      cases h
      rfl
  | cons x l ih =>
      cases h with
      | cons hset hrest => rw [List.flatMap_cons, List.map_cons, List.flatMap_cons, ih hrest, hset.spec.2.2]

theorem unstored_stored : ∀ keys : List (List UInt8), unstored keys (keys.map fun _ => ascii "STORED") = [] := by
  intro keys
  induction keys with
  | nil => rfl
  | cons key keys ih =>
      rw [unstored, List.map_cons, List.zip_cons_cons, List.filter_cons_of_neg (by simp)]
      exact ih

end Served

/-- A client of a worker calls `set_multi` while others send any commands.  Where all it has
sent has arrived and all output has been sent, every value has been stored at some moment, in
the order of the mapping; the call returns no key, has sent exactly what the worker received,
and leaves no byte unread. -/
theorem set_multi_is_served {ι Ω : Type} {ix : ScanIndex ι} {V : View ix.toIndex} (hw : ix.Works V) {nItems : Nat}
    (hn : 0 < nItems) (scratch : Scratch) {sh : Shared ι} {h : History} (hi : Intact V sh.store h) (times : Nat → Int)
    {events : List IoEvent} {s : Session (Shared ι × (Nat → Int))}
    (hrun : Run (SessionStep (clocked ix)) (Session.start nItems scratch (sh, times)) events s)
    (commands : Nat → List Command) (hwired : ∀ n, ∀ c ∈ commands n, c.Wired)
    (hsent : ∀ n, (s.received n).flatten <+: (commands n).flatMap Command.wire)
    (hchunks : ∀ n, Chunks BUF_UNIT_SIZE (s.received n)) (codec : Codec Ω) (keyPrefix : List UInt8)
    (minCompressLen : Int) (hpass : keyPrefix = [] ∨ checkKey keyPrefix = .ok ()) :
    ∃ served : List (Nat × Served), h.Explains (served.map Prod.snd) ∧
      (∀ n, (conversation n served).map Served.command <+: commands n) ∧
      ∀ (fd n : Nat) (mapping : List (List UInt8 × PyValue Ω)),
        (∀ e ∈ mapping, checkKeyExtra e.1 keyPrefix.length = .ok ()) →
        List.Forall₂ (SetsEntry codec keyPrefix minCompressLen) mapping (commands n) →
        s.worker.live fd = true → s.number fd = n → (s.worker.ioTable fd).outBufHead = none →
        (s.received n).flatten = (commands n).flatMap Command.wire →
        (conversation n served).map Served.command = commands n ∧
          ∀ host : Host, host.Holds (s.sent n) →
            ∃ host', setMulti codec 0 keyPrefix minCompressLen host mapping = .ok ([], host') ∧
              host'.buffer = [] ∧ host'.socket = [] ∧ host'.sent = host.sent ++ (s.received n).flatten := by
  obtain ⟨served, hexplains, hall, hopen⟩ := sent_answers hw hn scratch hi times hrun commands hwired hsent hchunks
  refine ⟨served, hexplains, hall, fun fd n mapping hkeys hsets hlive hnum hempty hwhole => ?_⟩
  obtain ⟨hcommands, hanswers⟩ := hopen fd n hlive hnum hempty hwhole
  refine ⟨(annotate_commands n served h).symm.trans hcommands, fun host hhost => ?_⟩
  have hstorable : ∀ e ∈ mapping, Storable codec minCompressLen e.2 := by
    intro e he
    obtain ⟨c, -, hset⟩ := mem_of_forall₂ hsets.flip he
    exact (SetsEntry.spec hset).1
  have hnone : (mapping.filter fun e => !decide (Storable codec minCompressLen e.2)) = [] :=
    List.filter_eq_nil_iff.mpr fun e he => by simp [hstorable e he]
  rw [hanswers, answers_stored (by rwa [hcommands])] at hhost
  have hlines : ∀ line ∈ mapping.map fun _ => ascii "STORED", 13 ∉ line := by
    intro line hline
    obtain ⟨-, -, rfl⟩ := List.mem_map.mp hline
    decide +kernel
  have hholds : (host.sendCmds ((commands n).flatMap Command.wire)).Holds
      ((mapping.map fun _ => ascii "STORED").flatMap fun line => line ++ PyText.crlf) := ⟨hhost.bytes, hhost.pieces⟩
  obtain ⟨host', hread, hrest, hsent'⟩ := (readStored_lines (mapping.map Prod.fst) hlines hholds).1 (by simp)
  rw [List.drop_of_length_le (by simp)] at hrest
  obtain ⟨hbuffer, hsocket⟩ := hrest.empty
  refine ⟨host', ?_, hbuffer, hsocket, by rw [hsent', hwhole]; rfl⟩
  have hunstored : unstored (mapping.map Prod.fst) (mapping.map fun _ => ascii "STORED") = [] := by
    have hu := unstored_stored (mapping.map Prod.fst)
    rwa [List.map_map] at hu
  rw [setMulti_eq codec 0 minCompressLen hpass hkeys, bigcmd_wire hsets, hread, hnone, hunstored]
  rfl

theorem letter_b_ne : (98 : UInt8) ≠ 0 := by decide

theorem digit_5_framed : [(53 : UInt8)].length ≤ VALUE_LIMIT := by decide

theorem digit_6_framed : [(54 : UInt8)].length ≤ VALUE_LIMIT := by decide

/-- One client sets two numbers, another deletes the first in between. -/
def numbersStored : List IoEvent :=
  [.accept 7, .accept 8, .input 7 (.bytes ⟨ascii "set a 2 0 1\r\n5\r\nset b", by decide, by decide⟩),
    .input 8 (.bytes ⟨ascii "delete a\r\n", by decide, by decide⟩),
    .input 7 (.bytes ⟨ascii " 2 0 1\r\n6\r\n", by decide, by decide⟩), .output 7 16]

def numbersStoredCommands : Nat → List Command
  | 0 => [.set (.letter 97 letter_a_ne) 2 ⟨[53], digit_5_framed⟩ false,
      .set (.letter 98 letter_b_ne) 2 ⟨[54], digit_6_framed⟩ false]
  | 1 => [.delete (.letter 97 letter_a_ne)]
  | _ => []

theorem set_multi_is_served_numbersStored : ∃ s, 0 < 8 ∧ Run (SessionStep (clocked ScanIndex.map))
      (Session.start 8 ⟨fun _ => 0, fun _ => 0⟩ (⟨Store.fresh, fun _ => 0⟩, fun _ => 0)) numbersStored s ∧
    ∃ host', setMulti Codec.noneOnly 0 [] 0 ⟨[], [s.sent 0], []⟩ twoNumbers = .ok ([], host') ∧ host'.buffer = [] := by
  have hrun : ∃ s, Run (SessionStep (clocked ScanIndex.map))
      (Session.start 8 ⟨fun _ => 0, fun _ => 0⟩ (⟨Store.fresh, fun _ => 0⟩, fun _ => 0)) numbersStored s ∧
      s.received 0 = [ascii "set a 2 0 1\r\n5\r\nset b", ascii " 2 0 1\r\n6\r\n"] ∧
      s.received 1 = [ascii "delete a\r\n"] ∧ (∀ n, s.received (n + 2) = []) ∧ s.worker.live 7 = true ∧
      s.number 7 = 0 ∧ (s.worker.ioTable 7).outBufHead = none ∧ s.sent 0 ≠ [] := by
    refine ⟨_, .cons ⟨_, ⟨rfl, _, _, rfl, rfl⟩, rfl⟩ (.cons ⟨_, ⟨rfl, _, _, rfl, rfl⟩, rfl⟩
      (.cons ⟨_, ⟨rfl, _, _, rfl, rfl⟩, rfl⟩ (.cons ⟨_, ⟨rfl, _, _, rfl, rfl⟩, rfl⟩
      (.cons ⟨_, ⟨rfl, _, _, rfl, rfl⟩, rfl⟩ (.cons ⟨_, ⟨⟨rfl, ?_⟩, _, _, rfl, rfl⟩, rfl⟩ (.nil _)))))),
      rfl, rfl, fun n => rfl, rfl, rfl, rfl, ?_⟩
    · decide +kernel
    · decide +kernel
  obtain ⟨s, hs, h0, h1, hrest, hlive, hnum, hempty, hne⟩ := hrun
  have hi : @Intact _ ScanIndex.map View.map (Shared.mk Store.fresh fun _ => 0).store .empty :=
    Intact.start rfl (by decide)
  have hkeyA : checkKey (WireKey.letter 97 letter_a_ne).bytes = .ok () := by decide +kernel
  have hkeyB : checkKey (WireKey.letter 98 letter_b_ne).bytes = .ok () := by decide +kernel
  have hsets : List.Forall₂ (SetsEntry Codec.noneOnly [] 0) twoNumbers (numbersStoredCommands 0) :=
    .cons (.set hkeyA rfl) (.cons (.set hkeyB rfl) .nil)
  have hwired : ∀ n, ∀ c ∈ numbersStoredCommands n, c.Wired := by
    intro n c hc
    match n with
    | 0 =>
        obtain ⟨e, -, hset⟩ := mem_of_forall₂ hsets hc
        exact ApiCall.Sends.wired hset
    | 1 =>
        obtain rfl := List.mem_singleton.mp hc
        have hdelete : ApiCall.Sends Codec.noneOnly (.delete [97]) (.delete (.letter 97 letter_a_ne)) := .delete hkeyA
        exact hdelete.wired
    | n + 2 => cases hc
  have hwire0 : (s.received 0).flatten = (numbersStoredCommands 0).flatMap Command.wire := by
    rw [h0]
    decide +kernel
  have hwire1 : (s.received 1).flatten = (numbersStoredCommands 1).flatMap Command.wire := by
    rw [h1]
    decide +kernel
  have hsent : ∀ n, (s.received n).flatten <+: (numbersStoredCommands n).flatMap Command.wire := by
    intro n
    match n with
    | 0 => rw [hwire0]
    | 1 => rw [hwire1]
    | n + 2 => rw [hrest]; exact List.nil_prefix
  have hchunks : ∀ n, Chunks BUF_UNIT_SIZE (s.received n) := by
    intro n
    match n with
    | 0 => rw [h0]; decide +kernel
    | 1 => rw [h1]; decide +kernel
    | n + 2 => rw [hrest]; decide +kernel
  obtain ⟨served, -, -, hserved⟩ := set_multi_is_served ScanIndex.map_works (by decide : 0 < 8) _ hi _ hs
    numbersStoredCommands hwired hsent hchunks Codec.noneOnly [] 0 (Or.inl rfl)
  obtain ⟨-, hreturns⟩ := hserved 7 0 twoNumbers (by decide) hsets hlive hnum hempty hwire0
  obtain ⟨host', hmulti, hbuffer, -⟩ := hreturns ⟨[], [s.sent 0], []⟩ ⟨by simp, by simpa using hne⟩
  exact ⟨s, by decide, hs, host', hmulti, hbuffer⟩

end Tstdb
