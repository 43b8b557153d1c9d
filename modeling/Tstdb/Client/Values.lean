/-
# `Tstdb.Client.Values` — values, from the server to the client

The reply to a `get` mixes lines with bodies of an announced length.  The client reads
line by line until `END`; behind a line that announces a value it takes the body and its
line feed by their length, so what the body looks like does not matter.  For a store
whose keys lead to complete records the client ends up with the values that are there
and have not expired, for any bodies and any cut of the reply into pieces
(`values_reply_decodes`), and has nothing left over.
-/
import Mathlib
import Tstdb.Lib.CText
import Tstdb.Lib.Bytes
import Tstdb.Lib.Outcome
import Tstdb.Lib.PyText
import Tstdb.Tst.Arena
import Tstdb.Tst.Runs
import Tstdb.Tst.Scan
import Tstdb.Server.Index
import Tstdb.Server.Store
import Tstdb.Server.Sections
import Tstdb.Server.View
import Tstdb.Server.Pool
import Tstdb.Server.Commands
import Tstdb.Server.Values
import Tstdb.Server.Replies
import Tstdb.Server.Limits
import Tstdb.Client.Host
import Tstdb.Client.Keys

namespace Tstdb

open CText Bytes Outcome PyText

attribute [local instance] lawful_bytes

/-! ## The client -/

/-- `_expectvalue`, for the line that `get_multi` hands in. -/
def expectvalue (line : List UInt8) : Except ClientError (Option (List UInt8 × Int × Int)) :=
  if line ≠ [] ∧ line.take 5 = ascii "VALUE" then
    match words line with
    | [_, rkey, flags, len] => do
        let flags ← toInt flags
        let rlen ← toInt len
        return some (rkey, flags, rlen)
    | _ => .error .valueError
  else .ok none

/-- `_recv_value`, up to the body as it was received. -/
def recvValue (server : Host) (rlen : Int) : Except ClientError (List UInt8 × Host) := do
  let rlen := rlen + 2
  let (buf, server) ← server.recv rlen
  if (buf.length : Int) ≠ rlen then throw .error
  else return (sliceTo buf (-2), server)

/-- A dictionary of flags and bodies. -/
abbrev Retvals := List UInt8 → Option (Int × List UInt8)

/-- The loop of `get_multi`.  Every line takes bytes off the stream. -/
def getMultiLoop (keys : List (List UInt8)) : Nat → Host → List UInt8 → Retvals → Except ClientError (Retvals × Host)
  | 0, _, _, _ => .error .endless
  | fuel + 1, server, line, retvals =>
      if line = [] ∨ line = ascii "END" then .ok (retvals, server)
      else do
        match ← expectvalue line with
        | some (rkey, flags, rlen) =>
            let (val, server) ← recvValue server rlen
            -- `retvals[prefixed_to_orig_key[rkey]] = val`
            if rkey ∉ keys then throw .keyError
            else
              let (line, server) ← server.readline
              getMultiLoop keys fuel server line (Function.update retvals rkey (some (flags, val)))
        | none =>
            let (line, server) ← server.readline
            getMultiLoop keys fuel server line retvals

/-- `_map_and_prefix_keys`, without a prefix and for a single server. -/
def checkKeys : List (List UInt8) → Except ClientError Unit
  | [] => .ok ()
  | key :: keys => do
      checkKey key
      checkKeys keys

/-- `get_multi` -/
def getMulti (server : Host) (keys : List (List UInt8)) : Except ClientError (Retvals × Host) := do
  checkKeys keys
  if keys = [] then return (fun _ => none, server)
  else
    let server := server.sendCmd (ascii "get " ++ join keys)
    let (line, server) ← server.readline
    getMultiLoop keys (server.buffer.length + server.socket.flatten.length + 1) server line fun _ => none

/-! ## The line of a `get` -/

/-- The header array holds the line that asks for the keys. -/
structure GetLine (header : Buf) (keys : List (List UInt8)) : Prop where
  fits : (ascii "get " ++ join keys).length < MAX_BODY_SIZE
  text : header.read 0 ((ascii "get " ++ join keys).length + 1) = ascii "get " ++ join keys ++ [0]

section Line

variable {header : Buf} {i fuel : Nat} {w : List UInt8} {c : UInt8} {rest : List UInt8}

/-- A word ends at the first byte that stops it. -/
theorem span_word (h : header.read i (w.length + 1 + rest.length) = w ++ c :: rest) (hw : ∀ b ∈ w, b ≠ 32 ∧ b ≠ 0)
    (hc : c = 32 ∨ c = 0) (hfuel : w.length < fuel) :
    Buf.span (fun b => b = 32 || b = 0) fuel header i = some w.length ∧ header.read i w.length = w ∧
      header (i + w.length) = c ∧ header.read (i + w.length + 1) rest.length = rest := by
  rw [Buf.read_append, Buf.read_append, List.append_assoc] at h
  obtain ⟨hword, h⟩ := List.append_inj h (Buf.length_read _ _ _)
  obtain ⟨hstop, hrest⟩ := List.cons.inj (show header (i + w.length) :: header.read (i + w.length + 1) rest.length = c :: rest from h)
  refine ⟨Buf.span_spec.mpr ⟨hfuel, ?_, fun j hj => ?_⟩, hword, hstop, hrest⟩
  · rw [hstop]
    rcases hc with rfl | rfl <;> decide
  · have hb : header (i + j) ∈ w := by
      rw [← hword]
      exact List.mem_map.mpr ⟨j, List.mem_range.mpr hj, rfl⟩
    simp [hw _ hb]

theorem wordsFrom_join : ∀ {keys : List (List UInt8)} {fuel i : Nat}, keys ≠ [] →
    (∀ w ∈ keys, ∀ b ∈ w, b ≠ 32 ∧ b ≠ 0) → keys.length ≤ fuel → i + (join keys).length < MAX_BODY_SIZE →
    header.read i ((join keys).length + 1) = join keys ++ [0] → wordsFrom header fuel i = some keys := by
  intro keys
  induction keys with
  | nil => intro fuel i h; exact absurd rfl h
  | cons w keys ih =>
      intro fuel i _ hwords hfuel hfits htext
      obtain ⟨hw, hkeys⟩ := List.forall_mem_cons.mp hwords
      obtain ⟨fuel, rfl⟩ : ∃ n, fuel = n + 1 := ⟨fuel - 1, by rw [List.length_cons] at hfuel; omega⟩
      rcases Classical.em (keys = []) with rfl | hne
      · obtain ⟨hspan, hread, hend, -⟩ := span_word
          (show header.read i (w.length + 1 + ([] : List UInt8).length) = w ++ 0 :: [] from htext) hw (Or.inr rfl)
          (show w.length < MAX_BODY_SIZE - i by simp only [join] at hfits; omega)
        rw [wordsFrom_succ hspan, if_pos hend, hread]
      · rw [join_cons hne] at htext hfits
        have hlen : (w ++ 32 :: join keys).length + 1 = w.length + 1 + (join keys ++ [0]).length := by
          simp only [List.length_append, List.length_cons, List.length_nil]
          omega
        rw [List.length_append, List.length_cons] at hfits
        rw [hlen, List.append_assoc, List.cons_append] at htext
        obtain ⟨hspan, hread, hend, hrest⟩ := span_word htext hw (Or.inl rfl)
          (show w.length < MAX_BODY_SIZE - i by omega)
        rw [wordsFrom_succ hspan, hend, if_neg (by decide), hread, ih hne hkeys (by rw [List.length_cons] at hfuel; omega)
          (by omega) (by rwa [List.length_append] at hrest)]
        rfl

theorem length_le_join : ∀ {keys : List (List UInt8)}, (∀ w ∈ keys, w ≠ []) → keys.length ≤ (join keys).length := by
  intro keys
  induction keys with
  | nil => intro _; exact le_refl _
  | cons w keys ih =>
      intro h
      obtain ⟨hw, hkeys⟩ := List.forall_mem_cons.mp h
      have hpos := List.length_pos_iff.mpr hw
      have hle := ih hkeys
      rcases Classical.em (keys = []) with rfl | hne
      · exact hpos
      · rw [join_cons hne, List.length_append, List.length_cons, List.length_cons]
        omega

/-- What `check_key` lets through. -/
theorem checkKey_ok {key : List UInt8} (h : checkKey key = .ok ()) :
    key ≠ [] ∧ key.length ≤ SERVER_MAX_KEY_LENGTH ∧ ∀ b ∈ key, 33 ≤ b := by
  unfold checkKey at h
  split_ifs at h with hne hlen hchar
  refine ⟨hne, Nat.not_lt.mp hlen, fun b hb => ?_⟩
  exact UInt8.not_lt.mp fun hlt => hchar ⟨b, hb, Or.inl hlt⟩

theorem checkKeys_ok : ∀ {keys : List (List UInt8)}, checkKeys keys = .ok () ↔ ∀ key ∈ keys, checkKey key = .ok () := by
  intro keys
  induction keys with
  | nil => exact iff_of_true rfl fun _ h => absurd h List.not_mem_nil
  | cons key keys ih =>
      rw [List.forall_mem_cons, ← ih, checkKeys]
      cases checkKey key with
      | error e => exact iff_of_false (fun h => by cases h) fun h => by cases h.1
      | ok u => exact ⟨fun h => ⟨rfl, h⟩, fun h => h.2⟩

/-- A byte above the space is no white space. -/
theorem isSpace_of_le {b : UInt8} (h : 33 ≤ b) : isSpace b = false := by
  have hle : 33 ≤ b.toNat := UInt8.le_iff_toNat_le.mp h
  simp only [isSpace, Bool.or_eq_false_iff, Bool.and_eq_false_iff, decide_eq_false_iff_not, UInt8.le_iff_toNat_le]
  refine ⟨fun e => ?_, Or.inr ?_⟩
  · rw [e] at hle
    exact absurd hle (by decide)
  · have h13 : (13 : UInt8).toNat = 13 := rfl
    omega

/-- `cmd_do_get` walks over the keys of the line. -/
theorem GetLine.words {keys : List (List UInt8)} (h : GetLine header keys) (hne : keys ≠ [])
    (hkeys : ∀ key ∈ keys, checkKey key = .ok ()) : getWords header = some keys := by
  have hchar : ∀ w ∈ keys, ∀ b ∈ w, b ≠ 32 ∧ b ≠ 0 := fun w hw b hb => by
    have hle := (checkKey_ok (hkeys w hw)).2.2 b hb
    exact ⟨fun e => absurd (e ▸ hle) (by decide), fun e => absurd (e ▸ hle) (by decide)⟩
  obtain ⟨hfits, htext⟩ := h
  have hget : (ascii "get ").length = 4 := rfl
  have hlen : (ascii "get " ++ join keys).length + 1 = (ascii "get").length + 1 + (join keys ++ [0]).length := by
    simp only [List.length_append, List.length_cons, List.length_nil, hget]
    have h3 : (ascii "get").length = 3 := rfl
    omega
  rw [List.length_append, hget] at hfits
  have hcons : ascii "get " ++ join keys ++ [0] = ascii "get" ++ 32 :: (join keys ++ [0]) := by
    rw [show ascii "get " = ascii "get" ++ [32] from rfl]
    simp only [List.append_assoc, List.cons_append, List.nil_append]
  rw [hlen, hcons] at htext
  obtain ⟨hspan, -, -, hrest⟩ := span_word htext (by decide +kernel) (Or.inl rfl)
    (show (ascii "get").length < MAX_BODY_SIZE by decide)
  rw [Nat.zero_add, List.length_append] at hrest
  have hle := length_le_join fun w hw => (checkKey_ok (hkeys w hw)).1
  rw [getWords, hspan, Option.bind_some]
  exact wordsFrom_join hne hchar (by omega) (by
    have h3 : (ascii "get").length = 3 := rfl
    omega) hrest

end Line

/-! ## The reply and its reader -/

section Reply

variable {m : Key → Nat} {data : List UInt8} {now : Int} {w body rest : List UInt8} {flag : Int} {server : Host}
  {keys : List (List UInt8)}

/-- The flags and the body of a key that is there and has not expired. -/
def present (m : Key → Nat) (data : List UInt8) (now : Int) (w : List UInt8) : Option (Int × List UInt8) :=
  match recordOf m data w with
  | none => none
  | some (_, r) => if r.expired now then none else some (r.flag, r.body)

theorem valueBlock_absent (h : present m data now w = none) : valueBlock m data now false w = [] := by
  unfold present at h
  unfold valueBlock
  cases hr : recordOf m data w with
  | none => rfl
  | some p =>
      rw [hr] at h
      simp only at h ⊢
      split_ifs at h ⊢
      rfl

theorem valueBlock_present (h : present m data now w = some (flag, body)) : valueBlock m data now false w
    = ascii "VALUE " ++ w ++ ascii " " ++ decimal flag ++ ascii " " ++ decimal body.length ++ crlf ++ (body ++ crlf) := by
  unfold present at h
  unfold valueBlock
  cases hr : recordOf m data w with
  | none => rw [hr] at h; cases h
  | some p =>
      rw [hr] at h
      simp only at h ⊢
      split_ifs at h ⊢
      obtain ⟨rfl, rfl⟩ := Prod.mk.inj (Option.some.inj h)
      simp only [valueText, valueLine, Bool.false_eq_true, if_false, List.append_nil, List.append_assoc]
      rfl

/-- The line of a value is understood. -/
theorem expectvalue_spec {len : Int} (hne : w ≠ []) (hw : ∀ b ∈ w, isSpace b = false) :
    expectvalue (ascii "VALUE " ++ w ++ ascii " " ++ decimal flag ++ ascii " " ++ decimal len)
      = .ok (some (w, flag, len)) := by
  have hline : ascii "VALUE " ++ w ++ ascii " " ++ decimal flag ++ ascii " " ++ decimal len
      = ascii "VALUE" ++ 32 :: (w ++ 32 :: (decimal flag ++ 32 :: decimal len)) := by
    rw [show ascii "VALUE " = ascii "VALUE" ++ [32] from rfl, show ascii " " = [32] from rfl]
    simp only [List.append_assoc, List.cons_append, List.nil_append]
  have hvalue : ascii "VALUE" ≠ [] := by decide
  have htake : (ascii "VALUE" ++ 32 :: (w ++ 32 :: (decimal flag ++ 32 :: decimal len))).take 5 = ascii "VALUE" :=
    List.take_left' rfl
  have hwords : words (ascii "VALUE" ++ 32 :: (w ++ 32 :: (decimal flag ++ 32 :: decimal len)))
      = [ascii "VALUE", w, decimal flag, decimal len] := by
    rw [words_append hvalue (by decide +kernel), words_append hne hw, words_append (decimal_ne_nil _) isSpace_decimal,
      words_single (decimal_ne_nil _) isSpace_decimal]
  rw [hline, expectvalue, if_pos ⟨List.append_ne_nil_of_left_ne_nil hvalue _, htake⟩, hwords]
  simp only [toInt, int_decimal, Option.elim_some]
  rfl

/-- A body is taken by its length, whatever it holds. -/
theorem recvValue_spec (hs : server.Holds (body ++ crlf ++ rest)) :
    ∃ server', recvValue server body.length = .ok (body, server') ∧ server'.Holds rest := by
  obtain ⟨server', hrecv, hs'⟩ := recv_spec hs
  have hlen : ((body.length : Int) + 2) = ((body ++ crlf).length : Int) := by
    rw [List.length_append]
    rfl
  have hslice : sliceTo (body ++ crlf) (-2) = body := by
    rw [sliceTo, if_pos (by decide), List.length_append]
    exact List.take_left' rfl
  refine ⟨server', ?_, hs'⟩
  simp only [recvValue, hlen, hrecv, bind, Except.bind, ne_eq, not_true_eq_false, if_false, hslice]
  rfl

/-- From the start of a line on, the loop takes the values of the words. -/
theorem getMultiLoop_spec (hkeys : ∀ key ∈ keys, key ≠ [] ∧ ∀ b ∈ key, isSpace b = false) :
    ∀ {ws : List (List UInt8)} {server : Host}, (∀ w ∈ ws, w ∈ keys) →
      server.Holds (ws.flatMap (valueBlock m data now false) ++ ascii "END\r\n") →
      ∃ line server₁ left, server.readline = .ok (line, server₁) ∧ server₁.Holds left ∧
        left.length ≤ (ws.flatMap (valueBlock m data now false) ++ ascii "END\r\n").length ∧
        ∀ (fuel : Nat) (retvals : Retvals), left.length < fuel → ∃ server',
          getMultiLoop keys fuel server₁ line retvals
            = .ok (fun key => if key ∈ ws then (present m data now key).or (retvals key) else retvals key, server') ∧
          server'.Holds [] := by
  intro ws
  induction ws with
  | nil =>
      intro server _ hs
      obtain ⟨server₁, hline, hs₁⟩ := readline_spec (show server.Holds (ascii "END" ++ crlf ++ []) from hs) (by decide)
      refine ⟨_, server₁, [], hline, hs₁, Nat.zero_le _, fun fuel retvals hfuel => ?_⟩
      obtain ⟨fuel, rfl⟩ : ∃ n, fuel = n + 1 := ⟨fuel - 1, by omega⟩
      refine ⟨server₁, ?_, hs₁⟩
      rw [getMultiLoop, if_pos (Or.inr rfl)]
      simp only [List.not_mem_nil, if_false]
  | cons w ws ih =>
      intro server hsub hs
      obtain ⟨hw, hws⟩ := List.forall_mem_cons.mp hsub
      obtain ⟨hne, hspace⟩ := hkeys w hw
      cases hp : present m data now w with
      | none =>
          rw [List.flatMap_cons, valueBlock_absent hp, List.nil_append] at hs
          obtain ⟨line, server₁, left, hline, hs₁, hleft, hloop⟩ := ih hws hs
          rw [List.flatMap_cons, valueBlock_absent hp, List.nil_append]
          refine ⟨line, server₁, left, hline, hs₁, hleft, fun fuel retvals hfuel => ?_⟩
          obtain ⟨server', he, hs'⟩ := hloop fuel retvals hfuel
          refine ⟨server', ?_, hs'⟩
          rw [he]
          congr 2
          funext key
          rcases Classical.em (key = w) with rfl | hother
          · simp [hp]
          · simp [hother]
      | some p =>
          obtain ⟨flag, body⟩ := p
          have h13 : 13 ∉ ascii "VALUE " ++ w ++ ascii " " ++ decimal flag ++ ascii " " ++ decimal body.length := by
            have hnumber : ∀ n : Int, 13 ∉ decimal n := fun n h => absurd (isSpace_decimal 13 h) (by decide)
            have hword : 13 ∉ w := fun h => absurd (hspace 13 h) (by decide)
            simp only [List.mem_append, not_or]
            exact ⟨⟨⟨⟨⟨by decide, hword⟩, by decide⟩, hnumber _⟩, by decide⟩, hnumber _⟩
          obtain ⟨tail, htail⟩ : ∃ tail, tail = ws.flatMap (valueBlock m data now false) ++ ascii "END\r\n" := ⟨_, rfl⟩
          have hstream : (w :: ws).flatMap (valueBlock m data now false) ++ ascii "END\r\n"
              = ascii "VALUE " ++ w ++ ascii " " ++ decimal flag ++ ascii " " ++ decimal body.length ++ crlf ++
                (body ++ crlf ++ tail) := by
            rw [List.flatMap_cons, valueBlock_present hp, htail]
            simp only [List.append_assoc]
          rw [hstream] at hs ⊢
          rw [← htail] at ih
          obtain ⟨server₁, hline, hs₁⟩ := readline_spec hs h13
          obtain ⟨server₂, hrecv, hs₂⟩ := recvValue_spec hs₁
          obtain ⟨line, server₃, left, hnext, hs₃, hleft, hloop⟩ := ih hws hs₂
          refine ⟨_, server₁, _, hline, hs₁, ?_, fun fuel retvals hfuel => ?_⟩
          · exact (List.suffix_append _ _).length_le
          · obtain ⟨fuel, rfl⟩ : ∃ n, fuel = n + 1 := ⟨fuel - 1, by omega⟩
            rw [List.length_append, List.length_append] at hfuel
            obtain ⟨server', he, hs'⟩ := hloop fuel (Function.update retvals w (some (flag, body))) (by
              have hcrlf : crlf.length = 2 := rfl
              omega)
            refine ⟨server', ?_, hs'⟩
            have hvalue := @expectvalue_spec w flag body.length hne hspace
            rw [getMultiLoop, if_neg ?_, hvalue]
            · simp only [bind, Except.bind, hrecv, not_true_eq_false, hw, if_false, hnext, he]
              congr 2
              funext key
              rcases Classical.em (key = w) with rfl | hother
              · simp [hp]
              · simp [hother]
            · simp only [List.append_assoc]
              rintro (e | e)
              · cases e
              · exact absurd (List.cons.inj e).1 (by decide)

end Reply

/-- For a store whose keys lead to complete records: `cmd_do_get` answers the line that
asks for the keys, unless the answer does not fit or the log is full, and the client
reads from it the flags and the body of every key that is there and has not expired and
nothing for any other, and is left with an empty buffer. -/
theorem values_reply_decodes {ι : Type} {ix : ScanIndex ι} {V : View ix.toIndex} (hw : ix.Works V) {st : Store ι}
    {m : Key → Nat} (hr : V.Rep st.index m) (hc : Complete m st.dataFile) (now : Int) {keys : List (List UInt8)}
    (hkeys : ∀ key ∈ keys, checkKey key = .ok ()) (hne : keys ≠ []) {header : Buf} (hline : GetLine header keys)
    (valueBuf : Buf) :
    Ends (fun _ => ¬(st.Roomy ∧ answerSize m st.dataFile now false keys ≤ VALUE_BUF_SIZE))
      (fun r => ∀ server : Host, server.Holds r.1.flatten → ∃ server',
        getMulti server keys = .ok (fun key => if key ∈ keys then present m st.dataFile now key else none, server') ∧
          server'.buffer = [] ∧ server'.socket = [])
      (cmdDoGet ix now false header st valueBuf) := by
  have hwords := hline.words hne hkeys
  have hshort : ∀ w ∈ keys, w.length < MAX_KEY_SIZE := fun w hw =>
    lt_of_le_of_lt (checkKey_ok (hkeys w hw)).2.1 (by decide)
  refine Ends.imp (Ends.excuse (cmdDoGet_ends hw hr hc valueBuf) fun e he hfits => he ⟨hfits.1.log, keys, hwords,
    (fitting_iff hshort).mpr hfits.2⟩) ?_
  rintro ⟨chunks, st', valueBuf'⟩ ⟨ws, hws, -, hreply, -⟩ server hs
  obtain rfl := Option.some.inj (hwords.symm.trans hws)
  simp only at hreply
  rw [hreply, List.flatten_singleton, getReply] at hs
  have hplain : ∀ key ∈ keys, key ≠ [] ∧ ∀ b ∈ key, isSpace b = false := fun key hk =>
    ⟨(checkKey_ok (hkeys key hk)).1, fun b hb => isSpace_of_le ((checkKey_ok (hkeys key hk)).2.2 b hb)⟩
  have hsent : (server.sendCmd (ascii "get " ++ join keys)).Holds _ := ⟨hs.bytes, hs.pieces⟩
  obtain ⟨line, server₁, left, hnext, hs₁, -, hloop⟩ := getMultiLoop_spec hplain (fun _ h => h) hsent
  obtain ⟨server', he, hs'⟩ := hloop (server₁.buffer.length + server₁.socket.flatten.length + 1) (fun _ => none) (by
    rw [← hs₁.bytes, List.length_append]
    exact Nat.lt_succ_self _)
  refine ⟨server', ?_, hs'.empty⟩
  simp only [getMulti, checkKeys_ok.mpr hkeys, bind, Except.bind, if_neg hne, hnext, he, Option.or_none]

/-- A body that looks like the end of the reply, which arrives byte by byte. -/
theorem values_reply_decodes_end : ∃ (body : Body) (header : Buf) (r : List (List UInt8) × Store KeyMap × Buf)
    (retvals : Retvals) (server' : Host), body.bytes = ascii "END\r\n" ∧
      cmdDoGet ScanIndex.map 0 false header (Store.holding body) (fun _ => 0) = .ok r ∧
      getMulti ⟨[], r.1.flatten.map fun b => [b], []⟩ [[107], [108]] = .ok (retvals, server') ∧
      retvals [107] = some (0, ascii "END\r\n") ∧ retvals [108] = none ∧ server'.buffer = [] := by
  obtain ⟨header, hheader⟩ : ∃ header, header = (Scratch.ofLine (ascii "get k l")).headBuf := ⟨_, rfl⟩
  obtain ⟨body, hbody⟩ : ∃ body : Body, body = ⟨ascii "END\r\n", by decide⟩ := ⟨_, rfl⟩
  have hline : GetLine header [[107], [108]] := by
    rw [hheader]
    exact ⟨by decide, by decide +kernel⟩
  have hkeys : ∀ key ∈ [[107], [108]], checkKey key = .ok () :=
    List.forall_mem_cons.mpr ⟨rfl, List.forall_mem_singleton.mpr rfl⟩
  have hfits : answerSize (Store.holding body).index.offsets (Store.holding body).dataFile 0 false [[107], [108]]
      ≤ VALUE_BUF_SIZE := by
    rw [hbody]
    decide +kernel
  have hends := values_reply_decodes ScanIndex.map_works (m := (Store.holding body).index.offsets) (fun _ => rfl)
    Store.holding_complete 0 hkeys (List.cons_ne_nil _ _) hline (fun _ => 0)
  obtain ⟨r, hreply, hread⟩ := (Ends.excuse hends fun e he => he ⟨Store.holding_roomy, hfits⟩).returns
  obtain ⟨server', he, hbuf, -⟩ := hread ⟨[], r.1.flatten.map fun b => [b], []⟩
    ⟨by simp only [List.nil_append]; exact List.flatMap_singleton' _, fun piece hp => by
      obtain ⟨b, -, rfl⟩ := List.mem_map.mp hp
      exact List.cons_ne_nil b []⟩
  refine ⟨body, header, r, _, server', by rw [hbody], hreply, he, ?_, ?_, hbuf⟩
  · rw [hbody]
    decide +kernel
  · rw [hbody]
    decide +kernel

end Tstdb
