/-
# `Tstdb.Server.Sections` — the five sections of the writer lock

`cmd_do_set`, `cmd_do_cas`, `cmd_do_delete`, `incr_or_decr` and
`delete_expire_value` each do their work between one lock and one unlock of
`g_writer_lock`.  A plan is what the section reads and decides, and the actions it
is going to take; running it executes them.  For each section one lemma says all a
run can have done, and the rest of the development uses these and the two effects
`Stored` and `Removed` only.
-/
import Mathlib
import Tstdb.Lib.CText
import Tstdb.Lib.Bytes
import Tstdb.Tst.Arena
import Tstdb.Tst.Runs
import Tstdb.Server.Index
import Tstdb.Server.Store

namespace Tstdb

open CText Bytes

inductive Reply where
  | stored
  | exists
  | deleted
  | notFound
  | number (n : Int)
  /-- A value, with its offset as the sign. -/
  | value (sign : Nat)
  | silent
deriving DecidableEq, Repr

/-- The replies to a store. -/
def Reply.stores : Reply → Bool
  | .stored | .number _ => true
  | _ => false

section Sections

variable {ι : Type} (ix : Index ι) (now : Int) (st : Store ι)

/-- `cmd_do_set` -/
def setPlan (key : List UInt8) (bodyLen flag expire : Int) (body : List UInt8) : List Act :=
  storeActs st.dataFile.length key bodyLen flag (if 0 < expire then wrap32 (expire + now) else expire) body

/-- `cmd_do_cas` -/
def casPlan (key : List UInt8) (bodyLen flag expire : Int) (body : List UInt8) (sign : Nat) :
    Except Fault (Reply × List Act) := do
  let valueOffset ← returns (ix.get st.index key)
  if valueOffset ≠ sign then return (.exists, [])
  return (.stored, storeActs st.dataFile.length key bodyLen flag expire body)

/-- `cmd_do_delete` -/
def deletePlan (key : List UInt8) : Except Fault (Reply × List Act) := do
  let valueOffset ← returns (ix.get st.index key)
  if valueOffset = 0 then return (.notFound, [])
  return (.deleted, deleteActs key)

/-- `incr_or_decr` -/
def incrOrDecrPlan (key : List UInt8) (delta : Int) (isDecr : Bool) : Except Fault (Reply × List Act) := do
  let valueOffset ← returns (ix.get st.index key)
  if valueOffset = 0 then return (.notFound, [])
  let (bodyLen, flag, expire) ← readTmp st.dataFile valueOffset
  -- `str_number` starts as zeros, so the text ends inside it
  if bodyLen < 0 ∨ (HEADER_BUF_SIZE : Int) ≤ bodyLen then throw (.overrun .strNumber)
  let strNumber := slice st.dataFile (valueOffset + 12) bodyLen.toNat
  let number := atoi (cstr strNumber)
  let number := wrap32 (if isDecr then number - delta else number + delta)
  let text := decimal number
  return (.number number, storeActs st.dataFile.length key text.length flag expire text)

end Sections

/-- One section of the writer lock. -/
inductive Section where
  | set (key : WireKey) (flag expire : Int) (body : Body)
  | cas (key : WireKey) (flag expire : Int) (body : Body) (sign : Nat)
  | incrOrDecr (key : WireKey) (delta : Int) (isDecr : Bool)
  | delete (key : WireKey)
  /-- The section of `delete_expire_value`. -/
  | deleteExpireValue (key : WireKey)

def Section.key : Section → WireKey
  | .set key .. | .cas key .. | .incrOrDecr key .. | .delete key | .deleteExpireValue key => key

/-- The sections that end in `tst_delete`. -/
def Section.removes : Section → Bool
  | .delete _ | .deleteExpireValue _ => true
  | _ => false

section Run

variable {ι : Type} (ix : Index ι)

def Section.plan (now : Int) (st : Store ι) : Section → Except Fault (Reply × List Act)
  | .set key flag expire body =>
      .ok (.stored, setPlan now st key.bytes body.bytes.length flag expire body.bytes)
  | .cas key flag expire body sign => casPlan ix st key.bytes body.bytes.length flag expire body.bytes sign
  | .incrOrDecr key delta isDecr => incrOrDecrPlan ix st key.bytes delta isDecr
  | .delete key => deletePlan ix st key.bytes
  | .deleteExpireValue key => .ok (.silent, deleteActs key.bytes)

def Section.run (now : Int) (st : Store ι) (s : Section) : Except Fault (Reply × Store ι) := do
  let (reply, acts) ← s.plan ix now st
  let st ← Act.execAll ix st acts
  return (reply, st)

end Run

section Spec

variable {ι : Type} {ix : Index ι} {now : Int} {st st' : Store ι} {reply : Reply}

theorem Section.run_cases {s : Section} (h : s.run ix now st = .ok (reply, st')) :
    ∃ acts, s.plan ix now st = .ok (reply, acts) ∧ Act.execAll ix st acts = .ok st' := by
  unfold Section.run at h
  cases hp : s.plan ix now st with
  | error e => rw [hp] at h; cases h
  | ok p =>
      obtain ⟨r, acts⟩ := p
      rw [hp] at h
      cases he : Act.execAll ix st acts with
      | error e => simp only [bind, Except.bind, he] at h; cases h
      | ok st₁ =>
          simp only [bind, Except.bind, he, pure, Except.pure, Except.ok.injEq, Prod.mk.injEq] at h
          obtain ⟨rfl, rfl⟩ := h
          exact ⟨acts, rfl, he⟩

theorem returns_bind {α β : Type} {o : Option α} {f : α → Except Fault β} {b : β}
    (h : (returns o >>= f) = .ok b) : ∃ a, o = some a ∧ f a = .ok b := by
  cases o with
  | none => cases h
  | some a => exact ⟨a, rfl, h⟩

/-- A set always stores; a positive expiry counts from now. -/
theorem Section.run_set {key : WireKey} {flag expire : Int} {body : Body}
    (h : (Section.set key flag expire body).run ix now st = .ok (reply, st')) :
    reply = .stored ∧ Stored ix st st' key.bytes flag
      (if 0 < expire then wrap32 (expire + now) else expire) body.bytes := by
  obtain ⟨acts, hp, he⟩ := Section.run_cases h
  obtain ⟨rfl, rfl⟩ : Reply.stored = reply ∧ _ = acts := by simpa [Section.plan] using hp
  exact ⟨rfl, execAll_storeActs he⟩

/-- A cas stores exactly when the key still has the offset it carries. -/
theorem Section.run_cas {key : WireKey} {flag expire : Int} {body : Body} {sign : Nat}
    (h : (Section.cas key flag expire body sign).run ix now st = .ok (reply, st')) :
    ∃ v, ix.get st.index key.bytes = some v ∧
      (v ≠ sign ∧ reply = .exists ∧ st' = st ∨
        v = sign ∧ reply = .stored ∧ Stored ix st st' key.bytes flag expire body.bytes) := by
  obtain ⟨acts, hp, he⟩ := Section.run_cases h
  obtain ⟨v, hv, hp⟩ := returns_bind (show (returns (ix.get st.index key.bytes) >>= _) = _ from hp)
  refine ⟨v, hv, ?_⟩
  by_cases hs : v = sign
  · rw [if_neg (not_not.mpr hs)] at hp
    obtain ⟨rfl, rfl⟩ := Prod.mk.inj (Except.ok.inj hp)
    exact Or.inr ⟨hs, rfl, execAll_storeActs he⟩
  · rw [if_pos hs] at hp
    obtain ⟨rfl, rfl⟩ := Prod.mk.inj (Except.ok.inj hp)
    exact Or.inl ⟨hs, rfl, (Except.ok.inj he).symm⟩

theorem Section.run_delete {key : WireKey} (h : (Section.delete key).run ix now st = .ok (reply, st')) :
    ∃ v, ix.get st.index key.bytes = some v ∧
      (v = 0 ∧ reply = .notFound ∧ st' = st ∨ v ≠ 0 ∧ reply = .deleted ∧ Removed ix st st' key.bytes) := by
  obtain ⟨acts, hp, he⟩ := Section.run_cases h
  obtain ⟨v, hv, hp⟩ := returns_bind (show (returns (ix.get st.index key.bytes) >>= _) = _ from hp)
  refine ⟨v, hv, ?_⟩
  by_cases hs : v = 0
  · rw [if_pos hs] at hp
    obtain ⟨rfl, rfl⟩ := Prod.mk.inj (Except.ok.inj hp)
    exact Or.inl ⟨hs, rfl, (Except.ok.inj he).symm⟩
  · rw [if_neg hs] at hp
    obtain ⟨rfl, rfl⟩ := Prod.mk.inj (Except.ok.inj hp)
    exact Or.inr ⟨hs, rfl, execAll_deleteActs he⟩

/-- The expiry section removes, whatever the key maps to by now. -/
theorem Section.run_deleteExpireValue {key : WireKey}
    (h : (Section.deleteExpireValue key).run ix now st = .ok (reply, st')) :
    reply = .silent ∧ Removed ix st st' key.bytes := by
  obtain ⟨acts, hp, he⟩ := Section.run_cases h
  obtain ⟨rfl, rfl⟩ : Reply.silent = reply ∧ _ = acts := by simpa [Section.plan] using hp
  exact ⟨rfl, execAll_deleteActs he⟩

/-- The number an incr or decr makes of a body. -/
def steppedNumber (strNumber : List UInt8) (delta : Int) (isDecr : Bool) : Int :=
  wrap32 (if isDecr then atoi (cstr strNumber) - delta else atoi (cstr strNumber) + delta)

theorem Section.run_incrOrDecr {key : WireKey} {delta : Int} {isDecr : Bool}
    (h : (Section.incrOrDecr key delta isDecr).run ix now st = .ok (reply, st')) :
    ∃ v, ix.get st.index key.bytes = some v ∧
      (v = 0 ∧ reply = .notFound ∧ st' = st ∨
        v ≠ 0 ∧ ∃ bodyLen flag expire, readTmp st.dataFile v = .ok (bodyLen, flag, expire) ∧
          0 ≤ bodyLen ∧ bodyLen < HEADER_BUF_SIZE ∧
          reply = .number (steppedNumber (slice st.dataFile (v + 12) bodyLen.toNat) delta isDecr) ∧
          Stored ix st st' key.bytes flag expire
            (decimal (steppedNumber (slice st.dataFile (v + 12) bodyLen.toNat) delta isDecr))) := by
  obtain ⟨acts, hp, he⟩ := Section.run_cases h
  obtain ⟨v, hv, hp⟩ := returns_bind (show (returns (ix.get st.index key.bytes) >>= _) = _ from hp)
  refine ⟨v, hv, ?_⟩
  by_cases hs : v = 0
  · rw [if_pos hs] at hp
    obtain ⟨rfl, rfl⟩ := Prod.mk.inj (Except.ok.inj hp)
    exact Or.inl ⟨hs, rfl, (Except.ok.inj he).symm⟩
  · rw [if_neg hs] at hp
    cases ht : readTmp st.dataFile v with
    | error e => rw [ht] at hp; cases hp
    | ok t =>
        obtain ⟨bodyLen, flag, expire⟩ := t
        rw [ht] at hp
        by_cases hb : bodyLen < 0 ∨ (HEADER_BUF_SIZE : Int) ≤ bodyLen
        · simp only [bind, Except.bind, pure, Except.pure, if_pos hb] at hp
          cases hp
        · simp only [bind, Except.bind, pure, Except.pure, if_neg hb] at hp
          obtain ⟨rfl, rfl⟩ := Prod.mk.inj (Except.ok.inj hp)
          rw [not_or, not_lt, not_le] at hb
          exact Or.inr ⟨hs, bodyLen, flag, expire, rfl, hb.1, hb.2, rfl, execAll_storeActs he⟩

theorem length_decimal_wrap32 (n : Int) : (decimal (wrap32 n)).length ≤ 11 := by
  obtain ⟨h1, h2⟩ := wrap32_range n
  have hlt : (wrap32 n).natAbs < 10 ^ 10 := by
    have : (10 : Nat) ^ 10 = 10000000000 := by norm_num
    omega
  have hd := Nat.toDigits_length 10 (wrap32 n).natAbs 10 (by norm_num) hlt
  unfold decimal decimalNat
  split_ifs <;> simp only [List.length_cons, List.length_map] <;> omega

/-- What any section can do: nothing, store under its key, or remove its key. -/
theorem Section.run_effect {s : Section} (h : s.run ix now st = .ok (reply, st')) :
    st' = st ∨
      (∃ flag expire body, body.length < 2147483648 ∧ Stored ix st st' s.key.bytes flag expire body) ∨
      Removed ix st st' s.key.bytes := by
  cases s with
  | set key flag expire body =>
      have hb : body.bytes.length < 2147483648 := lt_of_le_of_lt body.framed (by decide)
      exact Or.inr (Or.inl ⟨_, _, _, hb, (Section.run_set h).2⟩)
  | cas key flag expire body sign =>
      have hb : body.bytes.length < 2147483648 := lt_of_le_of_lt body.framed (by decide)
      obtain ⟨v, -, ⟨-, -, h'⟩ | ⟨-, -, h'⟩⟩ := Section.run_cas h
      · exact Or.inl h'
      · exact Or.inr (Or.inl ⟨_, _, _, hb, h'⟩)
  | incrOrDecr key delta isDecr =>
      obtain ⟨v, -, ⟨-, -, h'⟩ | ⟨-, len, flag, expire, -, -, -, -, h'⟩⟩ := Section.run_incrOrDecr h
      · exact Or.inl h'
      · exact Or.inr (Or.inl ⟨_, _, _, lt_of_le_of_lt (length_decimal_wrap32 _) (by decide), h'⟩)
  | delete key =>
      obtain ⟨v, -, ⟨-, -, h'⟩ | ⟨-, -, h'⟩⟩ := Section.run_delete h
      · exact Or.inl h'
      · exact Or.inr (Or.inr h')
  | deleteExpireValue key => exact Or.inr (Or.inr (Section.run_deleteExpireValue h).2)

/-- A refusal changes nothing. -/
theorem Section.run_refused {s : Section} (h : s.run ix now st = .ok (reply, st'))
    (hr : reply = .exists ∨ reply = .notFound) : st' = st := by
  cases s with
  | set key flag expire body => rcases hr with rfl | rfl <;> exact absurd (Section.run_set h).1 (by simp)
  | cas key flag expire body sign =>
      obtain ⟨v, -, ⟨-, -, h'⟩ | ⟨-, e, -⟩⟩ := Section.run_cas h
      · exact h'
      · rcases hr with rfl | rfl <;> cases e
  | incrOrDecr key delta isDecr =>
      obtain ⟨v, -, ⟨-, -, h'⟩ | ⟨-, len, flag, expire, -, -, -, e, -⟩⟩ := Section.run_incrOrDecr h
      · exact h'
      · rcases hr with rfl | rfl <;> cases e
  | delete key =>
      obtain ⟨v, -, ⟨-, -, h'⟩ | ⟨-, e, -⟩⟩ := Section.run_delete h
      · exact h'
      · rcases hr with rfl | rfl <;> cases e
  | deleteExpireValue key =>
      rcases hr with rfl | rfl <;> exact absurd (Section.run_deleteExpireValue h).1 (by simp)

/-- A reply to a store comes with one. -/
theorem Section.run_stores {s : Section} (h : s.run ix now st = .ok (reply, st')) (hr : reply.stores = true) :
    ∃ flag expire body, Stored ix st st' s.key.bytes flag expire body := by
  cases s with
  | set key flag expire body => exact ⟨_, _, _, (Section.run_set h).2⟩
  | cas key flag expire body sign =>
      obtain ⟨v, -, ⟨-, rfl, -⟩ | ⟨-, -, h'⟩⟩ := Section.run_cas h
      · cases hr
      · exact ⟨_, _, _, h'⟩
  | incrOrDecr key delta isDecr =>
      obtain ⟨v, -, ⟨-, rfl, -⟩ | ⟨-, len, flag, expire, -, -, -, -, h'⟩⟩ := Section.run_incrOrDecr h
      · cases hr
      · exact ⟨_, _, _, h'⟩
  | delete key =>
      obtain ⟨v, -, ⟨-, rfl, -⟩ | ⟨-, rfl, -⟩⟩ := Section.run_delete h <;> cases hr
  | deleteExpireValue key =>
      obtain ⟨rfl, -⟩ := Section.run_deleteExpireValue h
      cases hr

/-- Soundness is kept by every section. -/
theorem Section.run_sound {s : Section} (h : s.run ix now st = .ok (reply, st')) (hs : st.Sound ix) :
    st'.Sound ix := by
  rcases Section.run_effect h with rfl | ⟨flag, expire, body, hb, h'⟩ | h'
  · exact hs
  · exact h'.sound hb hs
  · exact h'.sound hs

end Spec

end Tstdb
