/-
# `Tstdb.Server.Expiry` — values that expire

A record carries the time at which it expires, a positive `int`.  `cmd_do_set` adds the
current time to what the client asks for, and `cmd_do_cas` does not.  So

* a `cas` stores what a `set` stores for expiries that are not positive only
  (`cas_stores_as_set`);
* what a `set` stores is returned up to its deadline and not later, for every time that
  an `int` can tell (`set_expires_exactly`).
-/
import Mathlib
import Tstdb.Lib.Fuel
import Tstdb.Lib.CText
import Tstdb.Lib.Bytes
import Tstdb.Lib.Outcome
import Tstdb.Lib.Runs
import Tstdb.Tst.Arena
import Tstdb.Tst.Shape
import Tstdb.Tst.Runs
import Tstdb.Tst.Scan
import Tstdb.Tst.Walks
import Tstdb.Tst.Ranges
import Tstdb.Server.Index
import Tstdb.Server.Store
import Tstdb.Server.Sections
import Tstdb.Server.View
import Tstdb.Server.Boot
import Tstdb.Server.Pool
import Tstdb.Server.Commands
import Tstdb.Server.Values
import Tstdb.Server.Replies
import Tstdb.Server.Frame
import Tstdb.Server.History

namespace Tstdb

open CText Bytes Outcome Runs

/-! ## Lines that store -/

/-- The line is a `set` of the key, and the body is in its array. -/
structure SetBy (s : Scratch) (headerLen : Nat) (bodyLen : Int) (key : WireKey) (flag expire : Int) (body : Body) :
    Prop where
  short : headerLen < MAX_BODY_SIZE
  method : methodOf (s.line headerLen) = .set
  scan : sscanf (s.line headerLen) "%s %s %d %d %d" =
    [.str (ascii "set"), .str key.bytes, .int flag, .int expire, .int body.bytes.length]
  framed : bodyLen = body.bytes.length ∧ s.bodyBuf.read 0 body.bytes.length = body.bytes

/-- The line is a `cas` of the key. -/
structure CasBy (s : Scratch) (headerLen : Nat) (bodyLen : Int) (key : WireKey) (flag expire : Int) (body : Body)
    (sign : Nat) : Prop where
  short : headerLen < MAX_BODY_SIZE
  method : methodOf (s.line headerLen) = .cas
  scan : sscanf (s.line headerLen) "%s %s %d %d %d %llu" =
    [.str (ascii "cas"), .str key.bytes, .int flag, .int expire, .int body.bytes.length, .ull sign]
  framed : bodyLen = body.bytes.length ∧ s.bodyBuf.read 0 body.bytes.length = body.bytes

section Storing

variable {ι : Type} {ix : ScanIndex ι} {V : View ix.toIndex} {now : Int} {s : Scratch} {headerLen : Nat} {bodyLen : Int}
  {key : WireKey} {flag expire : Int} {body : Body} {sign : Nat} {sh : Shared ι}

/-- What a stored expiry is for a `set`. -/
def deadline (now expire : Int) : Int := if 0 < expire then wrap32 (expire + now) else expire

/-- The answer of a command that stores, and the store it leaves. -/
def storeAnswer (ix : ScanIndex ι) (line : List UInt8) (key : WireKey) (flag expire : Int) (body : Body)
    (st : Store ι) : Except Fault (List (List UInt8) × Store ι) :=
  (perform ix st (.ok (.stored,
    storeActs st.dataFile.length key.bytes body.bytes.length flag expire body.bytes))).map
      fun r => (sendUnlessNoreply line r.1.text, r.2)

theorem Body.limits (body : Body) (buf : Buf) :
    body.bytes.length ≤ MAX_BODY_SIZE ∧ (0 : Int) ≤ body.bytes.length ∧ (body.bytes.length : Int) < MAX_BODY_SIZE ∧
      (buf.write body.bytes.length [0]).read 0 body.bytes.length = buf.read 0 body.bytes.length := by
  have h := body.framed
  have hlt : VALUE_LIMIT < MAX_BODY_SIZE := by decide
  exact ⟨by omega, by omega, by omega, Buf.read_write_before _ _ _⟩

theorem SetBy.handleCmd_eq (h : SetBy s headerLen bodyLen key flag expire body) :
    handleCmd ix now s headerLen bodyLen sh =
      (storeAnswer ix (s.line headerLen) key flag (deadline now expire) body sh.store).map fun r =>
        (.sent r.1, ⟨s.headBuf.write headerLen [0], s.bodyBuf.write bodyLen.toNat [0]⟩, { sh with store := r.2 }) := by
  obtain ⟨rfl, hread⟩ := h.framed
  obtain ⟨hle, hpos, hlt, hkeep⟩ := body.limits s.bodyBuf
  have hargs : setArgs (s.line headerLen) = some (key.bytes, flag, expire, (body.bytes.length : Int)) := by
    rw [setArgs, h.scan]
  rw [Tstdb.handleCmd_eq ix now s sh h.short ⟨hpos, hlt⟩, runCmd, h.method]
  simp only [answerStore, cmdDoSet, hargs, scanned_ok h.scan rfl (by decide), bind, Except.bind, bodyOf,
    if_neg (show ¬(body.bytes.length : Int) < 0 by omega),
    if_neg (show ¬(MAX_BODY_SIZE : Int) < body.bytes.length by omega), Int.toNat_natCast, hkeep, hread, setPlan,
    storeAnswer, deadline]
  cases perform ix sh.store _ <;> rfl

theorem CasBy.handleCmd_eq (h : CasBy s headerLen bodyLen key flag expire body sign) {v : Nat}
    (hv : ix.get sh.store.index key.bytes = some v) :
    handleCmd ix now s headerLen bodyLen sh =
      (if v = sign then storeAnswer ix (s.line headerLen) key flag expire body sh.store
        else .ok (sendUnlessNoreply (s.line headerLen) (ascii "EXISTS\r\n"), sh.store)).map fun r =>
          (.sent r.1, ⟨s.headBuf.write headerLen [0], s.bodyBuf.write bodyLen.toNat [0]⟩,
            { sh with store := r.2 }) := by
  obtain ⟨rfl, hread⟩ := h.framed
  obtain ⟨hle, hpos, hlt, hkeep⟩ := body.limits s.bodyBuf
  have hargs : casArgs (s.line headerLen) = some (key.bytes, flag, expire, (body.bytes.length : Int), sign) := by
    rw [casArgs, h.scan]
  rw [Tstdb.handleCmd_eq ix now s sh h.short ⟨hpos, hlt⟩, runCmd, h.method]
  simp only [answerStore, cmdDoCas, hargs, scanned_ok h.scan rfl (by decide), bind, Except.bind,
    if_neg (show ¬(body.bytes.length : Int) < 0 by omega), casActs_eq hv,
    if_neg (show ¬(MAX_BODY_SIZE : Int) < body.bytes.length by omega), Int.toNat_natCast, hkeep, hread, storeAnswer]
  rcases Classical.em (v = sign) with hs | hs
  · simp only [hs, if_true]
    cases perform ix sh.store _ <;> rfl
  · simp only [hs, if_false, perform_nil]
    rfl

end Storing

/-! ## `cas` and `set` -/

theorem wrap32_add_eq_iff {expire : Int} (he : wrap32 expire = expire) (now : Int) :
    wrap32 (expire + now) = expire ↔ now % 4294967296 = 0 := by
  unfold wrap32 at he ⊢
  omega

/-- The stored expiry is what the client asks for only where the time adds nothing. -/
theorem deadline_eq_iff {expire : Int} (he : wrap32 expire = expire) (now : Int) :
    deadline now expire = expire ↔ expire ≤ 0 ∨ now % 4294967296 = 0 := by
  unfold deadline
  rcases Int.lt_or_le 0 expire with hpos | hneg
  · rw [if_pos hpos, wrap32_add_eq_iff he]
    exact ⟨Or.inr, fun h => h.resolve_left (by omega)⟩
  · rw [if_neg (by omega)]
    exact iff_of_true rfl (Or.inl hneg)

theorem wrap32_deadline {expire : Int} (he : wrap32 expire = expire) (now : Int) :
    wrap32 (deadline now expire) = deadline now expire := by
  unfold deadline
  split_ifs
  · exact wrap32_wrap32 _
  · exact he

/-- Records that differ in their expiry only. -/
theorem recordBytes_expire {bodyLen flag expire expire' : Int} {body : List UInt8} (he : wrap32 expire = expire)
    (he' : wrap32 expire' = expire')
    (h : recordBytes bodyLen flag expire body = recordBytes bodyLen flag expire' body) : expire = expire' := by
  simp only [recordBytes, List.append_assoc] at h
  have hexpire := (List.append_inj (List.append_cancel_left (List.append_cancel_left h)) (by simp)).1
  rw [← he, ← he', ← int32Of_int32LE, ← int32Of_int32LE, hexpire]

section Storing

variable {ι : Type} {ix : ScanIndex ι} {now : Int} {st st' : Store ι} {line line' : List UInt8} {key : WireKey}
  {flag expire : Int} {body : Body} {chunks : List (List UInt8)}

theorem storeAnswer_ok (h : storeAnswer ix line key flag expire body st = .ok (chunks, st')) :
    Stored ix.toIndex st st' key.bytes flag expire body.bytes := by
  unfold storeAnswer perform at h
  cases he : Act.execAll ix.toIndex st
      (storeActs st.dataFile.length key.bytes body.bytes.length flag expire body.bytes) with
  | error e =>
      simp only [bind, Except.bind, he] at h
      cases h
  | ok st₁ =>
      simp only [bind, Except.bind, he] at h
      obtain rfl : st₁ = st' := congrArg Prod.snd (Except.ok.inj h)
      exact execAll_storeActs he

/-- The store does not depend on the line. -/
theorem storeAnswer_line (h : storeAnswer ix line key flag expire body st = .ok (chunks, st')) :
    ∃ chunks', storeAnswer ix line' key flag expire body st = .ok (chunks', st') := by
  unfold storeAnswer at h ⊢
  generalize perform ix st _ = r at h ⊢
  cases r with
  | error e => cases h
  | ok r =>
      obtain rfl : r.2 = st' := congrArg Prod.snd (Except.ok.inj h)
      exact ⟨_, rfl⟩

end Storing

section Same

variable {ι : Type} {ix : ScanIndex ι} {now : Int} {s s' : Scratch} {headerLen headerLen' : Nat}
  {bodyLen bodyLen' : Int} {key : WireKey} {flag expire : Int} {body : Body} {sign : Nat} {sh sh₁ : Shared ι}
  {answer answer' : Answer} {s₁ s₁' : Scratch}

theorem SetBy.expire_int (h : SetBy s headerLen bodyLen key flag expire body) : wrap32 expire = expire :=
  scan_int (show Arg.int expire ∈ sscanf (s.line headerLen) "%s %s %d %d %d" by rw [h.scan]; simp)

/-- What a `set` leaves when it returns. -/
theorem SetBy.stored (h : SetBy s headerLen bodyLen key flag expire body)
    (he : handleCmd ix now s headerLen bodyLen sh = .ok (answer, s₁, sh₁)) :
    ∃ chunks st, storeAnswer ix (s.line headerLen) key flag (deadline now expire) body sh.store = .ok (chunks, st) ∧
      sh₁ = { sh with store := st } := by
  rw [h.handleCmd_eq] at he
  cases hs : storeAnswer ix (s.line headerLen) key flag (deadline now expire) body sh.store with
  | error e =>
      rw [hs] at he
      cases he
  | ok r =>
      rw [hs] at he
      exact ⟨r.1, r.2, rfl, (congrArg (fun r => r.2.2) (Except.ok.inj he)).symm⟩

/-- What a `cas` leaves when it returns and carried the sign. -/
theorem CasBy.stored (h : CasBy s headerLen bodyLen key flag expire body sign)
    (hsign : ix.get sh.store.index key.bytes = some sign)
    (he : handleCmd ix now s headerLen bodyLen sh = .ok (answer, s₁, sh₁)) :
    ∃ chunks st, storeAnswer ix (s.line headerLen) key flag expire body sh.store = .ok (chunks, st) ∧
      sh₁ = { sh with store := st } := by
  rw [h.handleCmd_eq hsign, if_pos rfl] at he
  cases hs : storeAnswer ix (s.line headerLen) key flag expire body sh.store with
  | error e =>
      rw [hs] at he
      cases he
  | ok r =>
      rw [hs] at he
      exact ⟨r.1, r.2, rfl, (congrArg (fun r => r.2.2) (Except.ok.inj he)).symm⟩

/-- Where the two leave one store, the expiry is stored as it came. -/
theorem deadline_eq_of_stored (hset : SetBy s headerLen bodyLen key flag expire body)
    (hcas : CasBy s' headerLen' bodyLen' key flag expire body sign) (hsign : ix.get sh.store.index key.bytes = some sign)
    (he : handleCmd ix now s headerLen bodyLen sh = .ok (answer, s₁, sh₁))
    (hc : handleCmd ix now s' headerLen' bodyLen' sh = .ok (answer', s₁', sh₁)) : deadline now expire = expire := by
  obtain ⟨chunks, st, hs, rfl⟩ := hset.stored he
  obtain ⟨chunks', st', hs', hst⟩ := hcas.stored hsign hc
  obtain rfl : st = st' := by simpa using hst
  have hdata := (storeAnswer_ok hs).data.symm.trans (storeAnswer_ok hs').data
  exact recordBytes_expire (wrap32_deadline hset.expire_int now) hset.expire_int (List.append_cancel_left hdata)

end Same

/-- A `cas` with the key's sign leaves the store that a `set` leaves exactly if the
expiry does not count from now. -/
theorem cas_stores_as_set {ι : Type} {ix : ScanIndex ι} {now : Int} {s s' : Scratch} {headerLen headerLen' : Nat}
    {bodyLen bodyLen' : Int} {key : WireKey} {flag expire : Int} {body : Body} {sign : Nat} {sh : Shared ι}
    (hset : SetBy s headerLen bodyLen key flag expire body)
    (hcas : CasBy s' headerLen' bodyLen' key flag expire body sign) (hsign : ix.get sh.store.index key.bytes = some sign)
    {answer : Answer} {s₁ : Scratch} {sh₁ : Shared ι}
    (he : handleCmd ix now s headerLen bodyLen sh = .ok (answer, s₁, sh₁)) :
    (∃ answer' s₁', handleCmd ix now s' headerLen' bodyLen' sh = .ok (answer', s₁', sh₁)) ↔
      expire ≤ 0 ∨ now % 4294967296 = 0 := by
  rw [← deadline_eq_iff hset.expire_int now]
  constructor
  · rintro ⟨answer', s₁', hc⟩
    exact deadline_eq_of_stored hset hcas hsign he hc
  · intro hd
    obtain ⟨chunks, st, hs, rfl⟩ := hset.stored he
    rw [hd] at hs
    obtain ⟨chunks', hs'⟩ := storeAnswer_line hs
    rw [hcas.handleCmd_eq hsign, if_pos rfl, hs']
    exact ⟨_, _, rfl⟩

/-- A body of one byte. -/
def Body.zero : Body := ⟨[0], by decide⟩

/-- A store in which `k` has a record that does not expire. -/
def Store.one : Store KeyMap :=
  ⟨KeyMap.empty.put [107] 6, dataFileHead ++ recordBytes 1 0 0 [0], []⟩

theorem setBy_line : SetBy (Scratch.ofLine (ascii "set k 0 5 1")) 11 1 (.letter 107 (by decide)) 0 5 .zero :=
  ⟨by decide, by decide +kernel, by decide +kernel, by decide +kernel⟩

theorem casBy_line : CasBy (Scratch.ofLine (ascii "cas k 0 5 1 6")) 13 1 (.letter 107 (by decide)) 0 5 .zero 6 :=
  ⟨by decide, by decide +kernel, by decide +kernel, by decide +kernel⟩

theorem cas_stores_as_set_epoch : ∃ answer s₁ sh₁ answer' s₁',
    handleCmd ScanIndex.map 0 (Scratch.ofLine (ascii "set k 0 5 1")) 11 1 ⟨.one, fun _ => 0⟩ = .ok (answer, s₁, sh₁) ∧
      handleCmd ScanIndex.map 0 (Scratch.ofLine (ascii "cas k 0 5 1 6")) 13 1 ⟨.one, fun _ => 0⟩
        = .ok (answer', s₁', sh₁) := by
  obtain ⟨answer, s₁, sh₁, he⟩ : ∃ answer s₁ sh₁, handleCmd ScanIndex.map 0 (Scratch.ofLine (ascii "set k 0 5 1")) 11 1
      ⟨.one, fun _ => 0⟩ = .ok (answer, s₁, sh₁) := ⟨_, _, _, rfl⟩
  have hsign : ScanIndex.map.get Store.one.index (WireKey.letter 107 (by decide)).bytes = some 6 := by decide +kernel
  obtain ⟨answer', s₁', hc⟩ := (cas_stores_as_set setBy_line casBy_line hsign he).mpr (Or.inr rfl)
  exact ⟨answer, s₁, sh₁, answer', s₁', he, hc⟩

/-- A second after the epoch the two differ already. -/
theorem cas_stores_otherwise : ¬ ∀ (now : Int) (s s' : Scratch) (headerLen headerLen' : Nat) (bodyLen bodyLen' : Int)
    (key : WireKey) (flag expire : Int) (body : Body) (sign : Nat) (sh : Shared KeyMap),
    SetBy s headerLen bodyLen key flag expire body → CasBy s' headerLen' bodyLen' key flag expire body sign →
      ScanIndex.map.get sh.store.index key.bytes = some sign →
      ∀ answer s₁ sh₁, handleCmd ScanIndex.map now s headerLen bodyLen sh = .ok (answer, s₁, sh₁) →
        ∃ answer' s₁', handleCmd ScanIndex.map now s' headerLen' bodyLen' sh = .ok (answer', s₁', sh₁) := by
  intro H
  obtain ⟨answer, s₁, sh₁, he⟩ : ∃ answer s₁ sh₁, handleCmd ScanIndex.map 1 (Scratch.ofLine (ascii "set k 0 5 1")) 11 1
      ⟨.one, fun _ => 0⟩ = .ok (answer, s₁, sh₁) := ⟨_, _, _, rfl⟩
  have hsign : ScanIndex.map.get Store.one.index (WireKey.letter 107 (by decide)).bytes = some 6 := by decide +kernel
  obtain ⟨answer', s₁', hc⟩ := H 1 _ _ 11 13 1 1 _ 0 5 .zero 6 ⟨.one, fun _ => 0⟩ setBy_line casBy_line hsign
    answer s₁ sh₁ he
  exact absurd (deadline_eq_of_stored setBy_line casBy_line hsign he hc) (by decide)

/-! ## `set` and a later `get` -/

/-- `handle_cmd` handles a request that does not name the key. -/
def PassesBy {ι : Type} (ix : ScanIndex ι) (key : WireKey) (st : Store ι) (answer : Answer) (st' : Store ι) : Prop :=
  ∃ now s headerLen bodyLen valueBuf s' valueBuf',
    ¬Names (s.line headerLen) (s.headBuf.write headerLen [0]) key.toKey ∧
      handleCmd ix now s headerLen bodyLen ⟨st, valueBuf⟩ = .ok (answer, s', ⟨st', valueBuf'⟩)

section Leads

variable {ι : Type} {ix : ScanIndex ι} {V : View ix.toIndex} {st st' : Store ι} {key : WireKey} {r : Record}
  {now flag expire : Int} {body : Body} {s s' : Scratch} {headerLen : Nat} {bodyLen : Int} {answer : Answer}

/-- The key leads to the record. -/
def LeadsTo (V : View ix.toIndex) (key : WireKey) (r : Record) (st : Store ι) : Prop :=
  ∃ m, V.Rep st.index m ∧ m key.toKey ≠ 0 ∧ recordAt st.dataFile (m key.toKey) = some r

/-- A request that does not name the key leaves it where it leads. -/
theorem LeadsTo.passesBy (hw : ix.Works V) (h : LeadsTo V key r st) (hs : PassesBy ix key st answer st') :
    LeadsTo V key r st' := by
  obtain ⟨m, hr, hne, hrec⟩ := h
  obtain ⟨now, s, headerLen, bodyLen, vb, s', vb', hno, he⟩ := hs
  have hsh : V.Rep (Shared.mk st vb).store.index m := hr
  obtain ⟨m', hr', ⟨bs, hd⟩, -, hkeep⟩ := (handleCmd_framed hw hsh s headerLen bodyLen).ok he
  have hk := hkeep key.toKey hno
  refine ⟨m', hr', hk ▸ hne, ?_⟩
  rw [hk]
  exact hd ▸ recordAt_append bs hrec

theorem LeadsTo.run (hw : ix.Works V) (h : LeadsTo V key r st) {answers : List Answer}
    (hrun : Run (PassesBy ix key) st answers st') : LeadsTo V key r st' :=
  Run.preserves (I := LeadsTo V key r) (fun _ _ _ h hs => h.passesBy hw hs) hrun h

/-- After a `set` the key leads to what was set. -/
theorem SetBy.leadsTo {sh sh₁ : Shared ι} (h : SetBy s headerLen bodyLen key flag expire body) {m : Key → Nat}
    (hr : V.Rep sh.store.index m) (hd : sh.store.dataFile ≠ [])
    (he : handleCmd ix now s headerLen bodyLen sh = .ok (answer, s', sh₁)) :
    LeadsTo V key ⟨flag, deadline now expire, body.bytes⟩ sh₁.store := by
  obtain ⟨chunks, st, hs, rfl⟩ := h.stored he
  have hst := storeAnswer_ok hs
  have hflag : wrap32 flag = flag :=
    scan_int (show Arg.int flag ∈ sscanf (s.line headerLen) "%s %s %d %d %d" by rw [h.scan]; simp)
  have hsmall : body.bytes.length < 2147483648 := lt_of_le_of_lt body.framed (by decide)
  refine ⟨_, V.put hr hst.index, ?_, ?_⟩
  · rw [Function.update_self]
    exact Nat.pos_iff_ne_zero.mp (List.length_pos_iff.mpr hd)
  · rw [Function.update_self, hst.data, recordAt_recordBytes _ _ _ hsmall, hflag, wrap32_deadline h.expire_int]

/-- The answer of a `get` to where the key leads. -/
theorem LeadsTo.get_ends (hw : ix.Works V) {sh : Shared ι} (h : LeadsTo V key r sh.store)
    (hb : r.body.length ≤ VALUE_LIMIT) (hask : (Command.get key).AskedBy s headerLen bodyLen) :
    Ends (fun _ => ¬sh.store.Roomy)
      (fun x => x.1 = .sent [(if r.expired now then [] else valueText false key.bytes 0 r) ++ ascii "END\r\n"])
      (handleCmd ix now s headerLen bodyLen sh) := by
  obtain ⟨m, hr, hne, hrec⟩ := h
  obtain ⟨hlen, hm, hwords, rfl⟩ := hask
  have hof : recordOf m sh.store.dataFile key.bytes = some (m key.toKey, r) := by
    rw [recordOf, offsetOf_key, if_neg hne, hrec]
    rfl
  have hblock : valueBlock m sh.store.dataFile now false key.bytes =
      if r.expired now then [] else valueText false key.bytes 0 r := by
    rw [valueBlock, hof]
    rfl
  have hfit : Fitting m sh.store.dataFile now false 0 [key.bytes] := by
    refine ⟨List.forall_mem_singleton.mpr key.short, ?_⟩
    rw [List.flatMap_singleton, hblock]
    split_ifs
    · exact show 0 + ([] : List UInt8).length + 5 ≤ VALUE_BUF_SIZE by decide
    · simpa using length_valueText key.short (wrap32_of_recordAt hrec).1 hb 0
  have hc : CompleteAt m sh.store.dataFile key.bytes := fun _ => by
    rw [offsetOf_key, hrec]
    rfl
  rw [handleCmd_eq ix now s sh hlen (by decide), runCmd, hm]
  refine Ends.map (Q := fun x => x.1 = .sent [(if r.expired now then [] else valueText false key.bytes 0 r) ++
    ascii "END\r\n"]) (Ends.map (Ends.excuse (cmdDoGet_word_ends hw hr hwords hc sh.valueBuf)
      fun e he hroom => he ⟨hroom.log, hfit⟩) ?_) fun x hx => hx
  rintro ⟨chunks, st', vb⟩ ⟨hchunks, -, -⟩
  simp only at hchunks
  simp only [hchunks, getReply, List.flatMap_singleton, hblock]

end Leads

/-- A sum of two positive `int`s as a deadline: what does not fit an `int` never comes,
and no time that an `int` can tell comes after it. -/
theorem deadline_expired_iff {T expire t : Int} (hT : 0 < T ∧ T < 2147483648)
    (hexpire : 0 < expire ∧ expire < 2147483648) (ht : 0 ≤ t ∧ t < 2147483648) :
    (0 < deadline T expire ∧ deadline T expire ≤ wrap32 t) ↔ T + expire ≤ t := by
  rw [wrap32_of_range (by omega) ht.2, deadline, if_pos hexpire.1]
  rcases Int.lt_or_le (expire + T) 2147483648 with hlt | hge
  · rw [wrap32_of_range (by omega) hlt]
    omega
  · have hwrap : wrap32 (expire + T) = expire + T - 4294967296 := by
      unfold wrap32
      omega
    rw [hwrap]
    omega

/-- What was set at `T` for `expire` seconds is returned at `t` exactly while
`t < T + expire`, unless the key was named in between. -/
theorem set_expires_exactly {key : WireKey} {flag expire T t : Int} {body : Body} (hT : 0 < T ∧ T < 2147483648)
    (hexpire : 0 < expire ∧ expire < 2147483648) (ht : T ≤ t ∧ t < 2147483648) {start st₁ st : Store KeyMap}
    (hdata : start.dataFile ≠ []) {s s₁ : Scratch} {headerLen : Nat} {bodyLen : Int} {valueBuf valueBuf₁ : Buf}
    {answer : Answer} (hset : SetBy s headerLen bodyLen key flag expire body)
    (he : handleCmd ScanIndex.map T s headerLen bodyLen ⟨start, valueBuf⟩ = .ok (answer, s₁, ⟨st₁, valueBuf₁⟩))
    {answers : List Answer} (hrun : Run (PassesBy ScanIndex.map key) st₁ answers st) {s₂ : Scratch} {headerLen₂ : Nat}
    {bodyLen₂ : Int} (hget : (Command.get key).AskedBy s₂ headerLen₂ bodyLen₂) (hroom : st.Roomy) (valueBuf₂ : Buf) :
    ∃ s₃ sh₃, handleCmd ScanIndex.map t s₂ headerLen₂ bodyLen₂ ⟨st, valueBuf₂⟩ =
      .ok (.sent [(if t < T + expire then
        valueLine key.bytes flag body.bytes.length none ++ body.bytes ++ ascii "\r\n" else []) ++ ascii "END\r\n"],
        s₃, sh₃) := by
  have hrep : View.map.Rep (Shared.mk start valueBuf).store.index fun k => start.index.get k.bytes := fun _ => rfl
  have hleads : @LeadsTo _ ScanIndex.map View.map key ⟨flag, deadline T expire, body.bytes⟩ (Shared.mk st valueBuf₂).store :=
    (hset.leadsTo hrep hdata he).run ScanIndex.map_works hrun
  obtain ⟨⟨answer', s₃, sh₃⟩, heq, hanswer⟩ :=
    (Ends.excuse (hleads.get_ends ScanIndex.map_works body.framed hget) fun e hno => hno hroom).returns
  have hiff : (⟨flag, deadline T expire, body.bytes⟩ : Record).expired t ↔ ¬t < T + expire :=
    (deadline_expired_iff hT hexpire ⟨by omega, ht.2⟩).trans Int.not_lt.symm
  refine ⟨s₃, sh₃, ?_⟩
  rw [heq, show answer' = _ from hanswer]
  rcases Classical.em (t < T + expire) with hlt | hge
  · rw [if_pos hlt, if_neg (fun hx => hiff.mp hx hlt)]
    rfl
  · rw [if_neg hge, if_pos (hiff.mpr hge)]

theorem set_expires_exactly_soon : ∃ s₁ st s₃ sh₃,
    handleCmd ScanIndex.map 1000 (Scratch.ofLine (ascii "set k 0 5 1")) 11 1 ⟨.fresh, fun _ => 0⟩
        = .ok (.sent [ascii "STORED\r\n"], s₁, ⟨st, fun _ => 0⟩) ∧
      handleCmd ScanIndex.map 1004 (Scratch.ofLine (ascii "get k")) 5 0 ⟨st, fun _ => 0⟩ =
        .ok (.sent [(if (1004 : Int) < 1000 + 5 then valueLine [107] 0 1 none ++ [0] ++ ascii "\r\n" else []) ++
          ascii "END\r\n"], s₃, sh₃) := by
  obtain ⟨s₁, st, he⟩ : ∃ s₁ st, handleCmd ScanIndex.map 1000 (Scratch.ofLine (ascii "set k 0 5 1")) 11 1
      ⟨.fresh, fun _ => 0⟩ = .ok (.sent [ascii "STORED\r\n"], s₁, ⟨st, fun _ => 0⟩) := ⟨_, _, rfl⟩
  have hask : (Command.get (.letter 107 (by decide))).AskedBy (Scratch.ofLine (ascii "get k")) 5 0 :=
    ⟨by decide, by decide +kernel, by decide +kernel, rfl⟩
  have hroom : st.Roomy := by
    obtain ⟨chunks, st', hs, hst⟩ := setBy_line.stored he
    obtain rfl : st = st' := congrArg Shared.store hst
    have hstored := storeAnswer_ok hs
    constructor
    · rw [hstored.data]
      decide +kernel
    · rw [hstored.log]
      decide +kernel
  obtain ⟨s₃, sh₃, hg⟩ := set_expires_exactly ⟨by decide, by decide⟩ ⟨by decide, by decide⟩
    (show (1000 : Int) ≤ 1004 ∧ (1004 : Int) < 2147483648 by decide) (by decide) setBy_line he (.nil st) hask hroom
    fun _ => 0
  exact ⟨s₁, st, s₃, sh₃, he, hg⟩

end Tstdb
