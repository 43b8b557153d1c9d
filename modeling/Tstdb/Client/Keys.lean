/-
# `Tstdb.Client.Keys` — lists of keys, from the server to the client

The server announces how many keys it is going to send and how many bytes they take.
The number of keys is counted by the walk through the tree, the number of bytes is the
`strlen` of the text; the client relies on the first to tell that there is nothing to
read, and on the second to read it.  Both are right (`dfs_counts`), so the client gets
the keys the walk has found, in its order, however the reply is cut into pieces
(`keys_reply_decodes`).
-/
import Mathlib
import Tstdb.Lib.CText
import Tstdb.Lib.Bytes
import Tstdb.Lib.Outcome
import Tstdb.Lib.PyText
import Tstdb.Tst.Arena
import Tstdb.Tst.Runs
import Tstdb.Tst.Scan
import Tstdb.Server.Index
import Tstdb.Server.Store
import Tstdb.Server.Sections
import Tstdb.Server.Pool
import Tstdb.Server.Commands
import Tstdb.Server.Replies
import Tstdb.Client.Host

namespace Tstdb

open CText Outcome PyText

/-! ## The client -/

def SERVER_MAX_KEY_LENGTH : Nat := 250

/-- `check_key` for a byte string. -/
def checkKey (key : List UInt8) : Except ClientError Unit :=
  if key = [] then .error .keyNone
  else if SERVER_MAX_KEY_LENGTH < key.length then .error .keyLength
  else if ∃ char ∈ key, char < 33 ∨ char = 127 then .error .keyCharacter
  else .ok ()

/-- `int`, which raises a `ValueError`. -/
def toInt (s : List UInt8) : Except ClientError Int := (int s).elim (.error .valueError) .ok

/-- `_expectkeys`: the number of keys and of bytes, or nothing from another line. -/
def expectkeys (server : Host) : Except ClientError (Option (Int × Int) × Host) := do
  let (line, server) ← server.readline
  if line ≠ [] ∧ line.take 4 = ascii "KEYS" then
    match words line with
    | [_, rSize, bytesLen] =>
        let rSize ← toInt rSize
        let bytesLen ← toInt bytesLen
        return (some (rSize, bytesLen), server)
    | _ => throw .valueError
  else return (none, server)

/-- `server.recv(bytes_len)`; no buffer is shorter than `None`. -/
def recvBytes (server : Host) : Option Int → Except ClientError (List UInt8 × Host)
  | some bytesLen => server.recv bytesLen
  | none => .ok (server.buffer, server)

/-- `END` is expected also where `recv` has failed, which it does at the end of the stream. -/
def recvThenEnd (server : Host) (bytesLen : Option Int) : Except ClientError (List UInt8 × Host) :=
  match recvBytes server bytesLen with
  | .ok (value, server) => do
      let (_, server) ← server.expect (ascii "END")
      return (value, server)
  | .error e => do
      let _ ← Host.expect { server with socket := [] } (ascii "END")
      throw e

/-- `_unsafe_prefix`, behind `send_cmd`. -/
def readKeys (server : Host) : Except ClientError (List (List UInt8) × Host) := do
  let (sizes, server) ← expectkeys server
  if sizes.map Prod.fst = some 0 then
    let (_, server) ← server.expect (ascii "END")
    return ([], server)
  else
    let (value, server) ← recvThenEnd server (sizes.map Prod.snd)
    return ((splitLines value).dropLast, server)

/-- `_less_greater` -/
def lessGreater (server : Host) (cmd pre : List UInt8) (limit : Int) :
    Except ClientError (List (List UInt8) × Host) := do
  checkKey pre
  readKeys (server.sendCmd (cmd ++ ascii " " ++ pre ++ ascii " " ++ decimal limit))

/-- `_prefix` -/
def prefixKeys (server : Host) (cmd pre : List UInt8) (limit : Int) (sortingOrder : List UInt8) :
    Except ClientError (List (List UInt8) × Host) := do
  checkKey pre
  readKeys (server.sendCmd (cmd ++ ascii " " ++ pre ++ ascii " " ++ decimal limit ++ ascii " " ++ sortingOrder))

/-! ## What the walk counts -/

/-- The keys that have been appended are counted, and are strings. -/
structure Counts (result : List (List UInt8)) (resultSize : Int) : Prop where
  size : resultSize = result.length
  nul : ∀ key ∈ result, 0 ∉ key

def Scan.Counts (st : Scan) : Prop := Tstdb.Counts st.result st.resultSize

section Counts

variable {st st' : Scan} {db : TstDb} {limit : Int} {order : SortingOrder}

/-- A computation on a scan keeps the count, if it ends. -/
def KeepsCount (x : Option Scan) : Prop := ∀ st' ∈ x, st'.Counts

theorem KeepsCount.some (h : st.Counts) : KeepsCount (some st) := fun _ h' => Option.mem_some.mp h' ▸ h

theorem KeepsCount.none : KeepsCount none := fun _ h => absurd h (Option.not_mem_none _)

theorem KeepsCount.bind {x : Option Scan} {f : Scan → Option Scan} (hx : KeepsCount x)
    (hf : ∀ st, st.Counts → KeepsCount (f st)) : KeepsCount (x.bind f) := by
  intro st' h
  obtain ⟨st, hst, h⟩ := Option.mem_bind_iff.mp h
  exact hf st (hx st hst) st' h

theorem KeepsCount.ite {p : Prop} [Decidable p] {x y : Option Scan} (hx : KeepsCount x) (hy : KeepsCount y) :
    KeepsCount (if p then x else y) := by
  split_ifs
  · exact hx
  · exact hy

theorem write_counts (h : st.Counts) (d : Nat) (c : UInt8) : KeepsCount (st.write d c) := by
  intro st' h'
  obtain ⟨keyBuf, -, rfl⟩ := Option.mem_map.mp h'
  exact h

theorem appendResult_counts (h : st.Counts) : KeepsCount (appendResult st) := by
  rw [appendResult]
  refine .ite (.some ⟨?_, ?_⟩) .none
  · simp only [h.size, List.length_append, List.length_singleton, Nat.cast_add, Nat.cast_one]
  · exact List.forall_mem_append.mpr ⟨h.nul, List.forall_mem_singleton.mpr (notMem_cstr _)⟩

theorem emit_counts (h : st.Counts) (d value : Nat) : KeepsCount (st.emit d value) :=
  .ite (.some h) (.bind (write_counts h _ _) fun _ h => appendResult_counts h)

theorem dfs_counts : ∀ {fuel : Nat} {node d : Nat} {st : Scan}, st.Counts →
    KeepsCount (dfs fuel db node d limit order st) := by
  intro fuel
  induction fuel with
  | zero => intro node d st _; exact .none
  | succ fuel ih =>
      intro node d st h
      rw [dfs]
      refine .ite (.some h) (.ite (.some h) ?_)
      cases order with
      | asc =>
          refine .bind (ih h) fun _ h => .bind (write_counts h _ _) fun _ h => .ite (.some h) ?_
          refine .bind (.bind (emit_counts h _ _) fun _ h => .bind (ih h) fun _ h => write_counts h _ _) fun _ h => ?_
          exact .ite (.some h) (.bind (ih h) fun _ h => write_counts h _ _)
      | desc =>
          refine .bind (ih h) fun _ h => .bind (write_counts h _ _) fun _ h => .ite (.some h) ?_
          refine .bind (.bind (ih h) fun _ h => .ite (.some h) (emit_counts h _ _)) fun _ h => ?_
          exact .ite (.some h) (.bind (ih h) fun _ h => write_counts h _ _)

theorem dfsLess_counts : ∀ {fuel : Nat} {node d : Nat} {key : List UInt8} {st : Scan}, st.Counts →
    KeepsCount (dfsLess fuel db node key d limit st) := by
  intro fuel
  induction fuel with
  | zero => intro node d key st _; exact .none
  | succ fuel ih =>
      intro node d key st h
      rw [dfsLess]
      refine .ite (.some h) (.ite (.some h) (.bind (write_counts h _ _) fun _ h => .ite (ih h) (.ite ?_ ?_)))
      · cases key.tail? with
        | none => exact .none
        | some key =>
            refine .bind (ih h) fun _ h => .bind (.ite (emit_counts h _ _) (.some h)) fun _ h => ?_
            exact .ite (dfs_counts h) (.some h)
      · refine .bind (ih h) fun _ h => .bind (write_counts h _ _) fun _ h => ?_
        refine .bind (.ite (dfs_counts h) (.some h)) fun _ h => ?_
        refine .bind (.ite (emit_counts h _ _) (.some h)) fun _ h => ?_
        exact .ite (dfs_counts h) (.some h)

theorem dfsGreater_counts : ∀ {fuel : Nat} {node d : Nat} {key : List UInt8} {st : Scan}, st.Counts →
    KeepsCount (dfsGreater fuel db node key d limit st) := by
  intro fuel
  induction fuel with
  | zero => intro node d key st _; exact .none
  | succ fuel ih =>
      intro node d key st h
      rw [dfsGreater]
      refine .ite (.some h) (.ite (.some h) (.bind (write_counts h _ _) fun _ h => .ite (ih h) (.ite ?_ ?_)))
      · cases key.tail? with
        | none => exact .none
        | some key =>
            refine .bind (.ite (appendResult_counts h) (.some h)) fun _ h => ?_
            exact .bind (.ite (ih h) (.some h)) fun _ h => .ite (dfs_counts h) (.some h)
      · refine .bind (ih h) fun _ h => .bind (write_counts h _ _) fun _ h => ?_
        refine .bind (.ite (emit_counts h _ _) (.some h)) fun _ h => ?_
        refine .bind (.ite (dfs_counts h) (.some h)) fun _ h => ?_
        exact .ite (dfs_counts h) (.some h)

end Counts

/-- So every enumeration counts its keys. -/
theorem list_counts {n : Nat} {db : TstDb} {call : ListCall} {keys : List (List UInt8)} {resultSize : Int}
    (h : (ScanIndex.arena n).list db call = some (keys, resultSize)) : Counts keys resultSize := by
  have hempty : ∀ {out : Listed}, some emptyListed = some out → Counts out.1 out.2 := fun h => by
    obtain rfl := Option.some.inj h
    exact ⟨rfl, fun _ h => absurd h List.not_mem_nil⟩
  have hstart : ∀ keyBuf, Scan.Counts ⟨[], 0, keyBuf⟩ := fun _ => ⟨rfl, fun _ h => absurd h List.not_mem_nil⟩
  have hlisted : ∀ {x : Option Scan}, KeepsCount x → x.map Scan.listed = some (keys, resultSize) →
      Counts keys resultSize := fun hx h => by
    obtain ⟨st, hst, he⟩ := Option.map_eq_some_iff.mp h
    obtain ⟨rfl, rfl⟩ := Prod.mk.inj he
    exact hx st hst
  cases call with
  | below pre limit order =>
      simp only [ScanIndex.arena, tstPrefix] at h
      rcases Classical.em (pre.length = 0) with hpre | hpre
      · rw [if_pos hpre] at h
        exact hempty h
      · rw [if_neg hpre] at h
        obtain ⟨⟨node, baseKey⟩, -, h⟩ := Option.bind_eq_some_iff.mp h
        rcases Classical.em (node = 0) with hnode | hnode
        · simp only [if_pos hnode] at h
          exact hempty h
        · simp only [if_neg hnode] at h
          obtain ⟨st₁, h₁, h⟩ := Option.bind_eq_some_iff.mp h
          obtain ⟨st₂, h₂, h⟩ := Option.bind_eq_some_iff.mp h
          have hc₁ : st₁.Counts := KeepsCount.ite (appendResult_counts (hstart _)) (.some (hstart _)) st₁ h₁
          have hc₂ : st₂.Counts := KeepsCount.ite (dfs_counts hc₁) (.some hc₁) st₂ h₂
          exact hlisted (.ite (appendResult_counts hc₂) (.some hc₂)) h
  | less key limit =>
      simp only [ScanIndex.arena, tstLess] at h
      split_ifs at h
      · exact hempty h
      · exact hempty h
      · exact hlisted (dfsLess_counts (hstart _)) h
  | greater key limit =>
      simp only [ScanIndex.arena, tstGreater] at h
      split_ifs at h
      · exact hempty h
      · exact hempty h
      · exact hlisted (dfsGreater_counts (hstart _)) h

/-! ## The reply and its reader -/

/-- One of the three commands answers a line that makes this call. -/
inductive KeysReply {ι : Type} (ix : ScanIndex ι) (st : Store ι) (call : ListCall) (reply : List (List UInt8)) : Prop
  | below {line : List UInt8} (hargs : prefixArgs line = some call) (h : cmdDoPrefix ix line st = .ok reply)
  | less {line : List UInt8} (hargs : lessArgs line = some call) (h : cmdDoLess ix line st = .ok reply)
  | greater {line : List UInt8} (hargs : greaterArgs line = some call) (h : cmdDoGreater ix line st = .ok reply)

section Reply

variable {ι : Type} {ix : ScanIndex ι} {st : Store ι} {call : ListCall} {reply keys : List (List UInt8)} {resultSize : Int}
  {rest : List UInt8} {server : Host}

theorem KeysReply.sendKeys (h : KeysReply ix st call reply) : sendKeys ix st (some call) = .ok reply := by
  have hscan : ∀ {line : List UInt8} {fmt : String} {arrays : List (CArray × Nat)} {args : Option ListCall},
      args = some call → (scanned line fmt arrays args >>= Tstdb.sendKeys ix st) = .ok reply →
        Tstdb.sendKeys ix st (some call) = .ok reply := by
    rintro line fmt arrays _ rfl h
    unfold scanned at h
    split at h
    · cases h
    · exact h
  cases h with
  | below hargs h => exact hscan hargs h
  | less hargs h => exact hscan hargs h
  | greater hargs h => exact hscan hargs h

theorem sendKeys_eq (hlist : ix.list st.index call = some (keys, resultSize)) (hc : Counts keys resultSize)
    (h : sendKeys ix st (some call) = .ok reply) :
    reply = [ascii "KEYS " ++ decimal keys.length ++ ascii " " ++ decimal (resultText keys).length ++ ascii "\r\n",
      resultText keys, ascii "END\r\n"] := by
  have h0 : 0 ∉ resultText keys := fun h => by
    obtain ⟨key, hkey, hmem⟩ := List.mem_flatMap.mp h
    rcases List.mem_append.mp hmem with hk | hk
    · exact hc.nul key hkey hk
    · exact absurd hk (by decide)
  simp only [sendKeys, hlist, returns, Option.elim_some, bind, Except.bind] at h
  split_ifs at h
  rw [cstr_of_nul_free h0, hc.size] at h
  exact (Except.ok.inj h).symm

/-- The line of the reply is understood. -/
theorem expectkeys_spec {count size : Int}
    (hs : server.Holds (ascii "KEYS " ++ decimal count ++ ascii " " ++ decimal size ++ ascii "\r\n" ++ rest)) :
    ∃ server', expectkeys server = .ok (some (count, size), server') ∧ server'.Holds rest := by
  have h13 : 13 ∉ ascii "KEYS " ++ decimal count ++ ascii " " ++ decimal size := by
    have hnumber : ∀ n : Int, 13 ∉ decimal n := fun n h => absurd (le_of_mem_decimal h).1 (by decide)
    simp only [List.mem_append, not_or]
    exact ⟨⟨⟨by decide, hnumber _⟩, by decide⟩, hnumber _⟩
  obtain ⟨server', hline, hs'⟩ := readline_spec hs h13
  have hkeys : ascii "KEYS " ++ decimal count ++ ascii " " ++ decimal size
      = ascii "KEYS" ++ 32 :: (decimal count ++ 32 :: decimal size) := by
    rw [show ascii "KEYS " = ascii "KEYS" ++ [32] from rfl, show ascii " " = [32] from rfl]
    simp only [List.append_assoc, List.cons_append, List.nil_append]
  have hwords : words (ascii "KEYS" ++ 32 :: (decimal count ++ 32 :: decimal size))
      = [ascii "KEYS", decimal count, decimal size] := by
    rw [words_append (by decide) (by decide +kernel), words_append (decimal_ne_nil _) isSpace_decimal,
      words_single (decimal_ne_nil _) isSpace_decimal]
  refine ⟨server', ?_, hs'⟩
  rw [hkeys] at hline
  simp only [expectkeys, hline, bind, Except.bind, hwords]
  have hne : ascii "KEYS" ≠ [] := by decide
  have htake : (ascii "KEYS" ++ 32 :: (decimal count ++ 32 :: decimal size)).take 4 = ascii "KEYS" := List.take_left' rfl
  rw [if_pos ⟨List.append_ne_nil_of_left_ne_nil hne _, htake⟩]
  simp only [toInt, int_decimal, Option.elim_some]
  rfl

theorem expect_end (hs : server.Holds (ascii "END\r\n" ++ rest)) :
    ∃ server', server.expect (ascii "END") = .ok (ascii "END", server') ∧ server'.Holds rest :=
  readline_spec hs (by decide)

/-- The keys are read back, and the buffer ends up right behind `END`. -/
theorem readKeys_spec (hkeys : ∀ key ∈ keys, 13 ∉ key)
    (hs : server.Holds (ascii "KEYS " ++ decimal keys.length ++ ascii " " ++ decimal (resultText keys).length ++
      ascii "\r\n" ++ (resultText keys ++ (ascii "END\r\n" ++ rest)))) :
    ∃ server', readKeys server = .ok (keys, server') ∧ server'.Holds rest := by
  obtain ⟨server₁, hexpect, hs₁⟩ := expectkeys_spec hs
  cases keys with
  | nil =>
      obtain ⟨server₂, hend, hs₂⟩ := expect_end hs₁
      refine ⟨server₂, ?_, hs₂⟩
      simp only [readKeys, hexpect, bind, Except.bind, Option.map_some, List.length_nil, Nat.cast_zero, if_true, hend]
      rfl
  | cons key keys =>
      obtain ⟨server₂, hrecv, hs₂⟩ := recv_spec hs₁
      obtain ⟨server₃, hend, hs₃⟩ := expect_end hs₂
      refine ⟨server₃, ?_, hs₃⟩
      have hne : ¬((key :: keys).length : Int) = 0 := by
        rw [List.length_cons]
        omega
      have hlines : (splitLines (resultText (key :: keys))).dropLast = key :: keys := by
        rw [show resultText (key :: keys) = (key :: keys).flatMap (· ++ crlf) from rfl, splitLines_flatMap hkeys,
          List.dropLast_concat]
      simp only [readKeys, hexpect, bind, Except.bind, Option.map_some, Option.some.injEq, if_neg hne, recvThenEnd,
        recvBytes, hrecv, hend, pure, Except.pure, hlines]

end Reply

/-- Whichever of the three commands answers, the count and the length it announces are
right, and both readers of the client return the keys the walk has found, in its order,
with nothing but what is behind `END` left. -/
theorem keys_reply_decodes {n : Nat} {st : Store TstDb} {call : ListCall} {keys reply : List (List UInt8)}
    {resultSize : Int} (hlist : (ScanIndex.arena n).list st.index call = some (keys, resultSize))
    (hkeys : ∀ key ∈ keys, key ≠ [] ∧ ∀ b ∈ key, isSpace b = false) (hreply : KeysReply (ScanIndex.arena n) st call reply) :
    reply.flatten = ascii "KEYS " ++ decimal resultSize ++ ascii " " ++ decimal (resultText keys).length ++ ascii "\r\n" ++
        (resultText keys ++ ascii "END\r\n") ∧
      resultSize = keys.length ∧
      ∀ (server : Host) (rest pre : List UInt8), checkKey pre = .ok () → server.Holds (reply.flatten ++ rest) →
        (∀ cmd limit, ∃ server', lessGreater server cmd pre limit = .ok (keys, server') ∧ server'.Holds rest) ∧
          ∀ cmd limit order, ∃ server', prefixKeys server cmd pre limit order = .ok (keys, server') ∧
            server'.Holds rest := by
  have hc := list_counts hlist
  have hsent := sendKeys_eq hlist hc hreply.sendKeys
  have h13 : ∀ key ∈ keys, 13 ∉ key := fun key hkey h => absurd ((hkeys key hkey).2 13 h) (by decide)
  have hflat : reply.flatten = ascii "KEYS " ++ decimal keys.length ++ ascii " " ++ decimal (resultText keys).length ++
      ascii "\r\n" ++ (resultText keys ++ ascii "END\r\n") := by
    rw [hsent]
    simp only [List.flatten_cons, List.flatten_nil, List.append_nil]
  refine ⟨by rw [hc.size, hflat], hc.size, fun server rest pre hpre hs => ?_⟩
  rw [hflat, List.append_assoc _ _ rest, List.append_assoc (resultText keys)] at hs
  -- what is sent does not change what is to be received
  have hread : ∀ cmd, ∃ server', readKeys (server.sendCmd cmd) = .ok (keys, server') ∧ server'.Holds rest := fun cmd =>
    readKeys_spec h13 ⟨hs.bytes, hs.pieces⟩
  refine ⟨fun cmd limit => ?_, fun cmd limit order => ?_⟩
  · rw [lessGreater, hpre]
    exact hread _
  · rw [prefixKeys, hpre]
    exact hread _

/-- Two keys below a prefix, the first of them the prefix itself. -/
theorem keys_reply_decodes_two : ∃ db reply server',
    KeysReply (ScanIndex.arena 8) ⟨db, [], []⟩ (.below (ascii "a") 10 .asc) reply ∧
      prefixKeys ⟨[], [reply.flatten], []⟩ (ascii "prefix") (ascii "a") 10 (ascii "asc")
        = .ok ([ascii "a", ascii "ab"], server') ∧ server'.buffer = [] := by
  obtain ⟨db, -, hlist⟩ : ∃ db, ((tstPut 8 (createTstDb fun _ => TstNode.zero) (ascii "ab") 6).bind
        fun db => tstPut 8 db (ascii "a") 7) = some db ∧
      (ScanIndex.arena 8).list db (.below (ascii "a") 10 .asc) = some ([ascii "a", ascii "ab"], 2) :=
    Option.bind_eq_some_iff.mp (by decide +kernel)
  have hargs : prefixArgs (ascii "prefix a 10 asc") = some (.below (ascii "a") 10 .asc) := by decide +kernel
  have hover : overruns (sscanf (ascii "prefix a 10 asc") "prefix %s %d %s") [keyArray, (.sortingOrder, 10)] = [] := by
    decide +kernel
  have hfits : ¬PREFIX_BUF_SIZE ≤ (resultText [ascii "a", ascii "ab"]).length := by decide +kernel
  obtain ⟨reply, hsent⟩ : ∃ reply, cmdDoPrefix (ScanIndex.arena 8) (ascii "prefix a 10 asc") ⟨db, [], []⟩ = .ok reply := by
    simp only [cmdDoPrefix, scanned, hover, hargs, bind, Except.bind, sendKeys, hlist, returns, Option.elim_some,
      if_neg hfits]
    exact ⟨_, rfl⟩
  have hreply : KeysReply (ScanIndex.arena 8) ⟨db, [], []⟩ _ reply := .below hargs hsent
  obtain ⟨hflat, -, hread⟩ := keys_reply_decodes hlist (by decide +kernel) hreply
  have hne : reply.flatten ≠ [] := by
    rw [hflat]
    exact List.append_ne_nil_of_right_ne_nil _ (List.append_ne_nil_of_right_ne_nil _ (by decide))
  obtain ⟨-, hread⟩ := hread ⟨[], [reply.flatten], []⟩ [] (ascii "a") (by decide +kernel)
    ⟨by rw [List.flatten_singleton, List.append_nil, List.nil_append], List.forall_mem_singleton.mpr hne⟩
  obtain ⟨server', he, hs⟩ := hread (ascii "prefix") 10 (ascii "asc")
  exact ⟨db, reply, server', hreply, he, hs.empty.1⟩

end Tstdb
