/-
# `Tstdb.Server.Atomic` — the server is an atomic store of values

What the clients of all workers are promised does not mention files, offsets into them or
an index.  There is a dictionary of values, every store gives its value a sign that no
value has had before, a command changes the dictionary at one moment, and a `get` takes
its value at one moment too: when it looks its key up (`AtomicStep`).

The server reads the record of a `get` later, without a lock, when the key may long have
been stored anew or deleted.  That is not seen from outside because records are never
written over.  Every run of the workers is a run of the atomic store, with the same
replies and the same values in them (`arena_run_is_atomic`).  What does show is that an
expired value is removed by the name of its key (`AtomicStep.remove`).
-/
import Mathlib
import Tstdb.Lib.Fuel
import Tstdb.Lib.Runs
import Tstdb.Lib.CText
import Tstdb.Lib.Bytes
import Tstdb.Tst.Arena
import Tstdb.Tst.Shape
import Tstdb.Tst.Runs
import Tstdb.Server.Index
import Tstdb.Server.Store
import Tstdb.Server.Sections
import Tstdb.Server.View
import Tstdb.Server.Workers
import Tstdb.Server.Values
import Tstdb.Server.History

namespace Tstdb

open Fuel CText Bytes Runs

/-! ## The atomic store -/

/-- A value in the store and the sign it was given. -/
structure Signed where
  sign : Nat
  record : Record
deriving DecidableEq, Repr

abbrev Dict := Key → Option Signed

/-- The sign of a key's value, `0` without one. -/
def Dict.sign (d : Dict) (key : Key) : Nat := ((d key).map Signed.sign).getD 0

/-- What a section does to the dictionary, and the bound on the signs given so far. -/
inductive Dict.Applies (now : Int) (bound : Nat) (d : Dict) : Section → Reply → Dict → Nat → Prop
  | set {key : WireKey} {flag expire : Int} {body : Body} {sign : Nat} (hs : bound ≤ sign) :
      Applies now bound d (.set key flag expire body) .stored (Function.update d key.toKey (some ⟨sign,
        ⟨wrap32 flag, wrap32 (if 0 < expire then wrap32 (expire + now) else expire), body.bytes⟩⟩)) (sign + 1)
  | cas {key : WireKey} {flag expire : Int} {body : Body} {sign : Nat} (hs : bound ≤ sign) :
      Applies now bound d (.cas key flag expire body (d.sign key.toKey)) .stored (Function.update d key.toKey
        (some ⟨sign, ⟨wrap32 flag, wrap32 expire, body.bytes⟩⟩)) (sign + 1)
  | exists {key : WireKey} {flag expire : Int} {body : Body} {sign : Nat} (hne : d.sign key.toKey ≠ sign) :
      Applies now bound d (.cas key flag expire body sign) .exists d bound
  | incrOrDecr {key : WireKey} {delta : Int} {isDecr : Bool} {v : Signed} {sign : Nat} (hv : d key.toKey = some v)
      (hshort : v.record.body.length < HEADER_BUF_SIZE) (hs : bound ≤ sign) :
      Applies now bound d (.incrOrDecr key delta isDecr) (.number (steppedNumber v.record.body delta isDecr))
        (Function.update d key.toKey (some ⟨sign,
          { v.record with body := decimal (steppedNumber v.record.body delta isDecr) }⟩)) (sign + 1)
  | incrOrDecrNone {key : WireKey} {delta : Int} {isDecr : Bool} (hv : d key.toKey = none) :
      Applies now bound d (.incrOrDecr key delta isDecr) .notFound d bound
  | delete {key : WireKey} (hv : d key.toKey ≠ none) :
      Applies now bound d (.delete key) .deleted (Function.update d key.toKey none) bound
  | deleteNone {key : WireKey} (hv : d key.toKey = none) : Applies now bound d (.delete key) .notFound d bound

/-- What a client's `get` is at. -/
inductive Holding where
  | idle
  | got (key : WireKey) (v : Signed)
  | expired (key : WireKey)

structure Atomic (W : Type) where
  dict : Dict
  now : Int
  holding : W → Holding
  /-- No sign so far has reached it. -/
  bound : Nat

/-- An event, its reply, and the record that goes out with a value. -/
abbrev Label (W : Type) := Event W × Reply × Option Record

inductive AtomicStep {W : Type} [DecidableEq W] : Atomic W → Label W → Atomic W → Prop
  | tick {a : Atomic W} (seconds : Nat) : AtomicStep a (.tick seconds, .silent, none) { a with now := a.now + seconds }
  | command {a : Atomic W} {w : W} {s : Section} {reply : Reply} {d : Dict} {bound : Nat} (hw : a.holding w = .idle)
      (hs : s.isCommand = true) (h : a.dict.Applies a.now a.bound s reply d bound) :
      AtomicStep a (.command w s, reply, none) { a with dict := d, bound := bound }
  | miss {a : Atomic W} {w : W} {key : WireKey} (hw : a.holding w = .idle) (hv : a.dict key.toKey = none) :
      AtomicStep a (.lookup w key, .silent, none) a
  | hit {a : Atomic W} {w : W} {key : WireKey} {v : Signed} (hw : a.holding w = .idle) (hv : a.dict key.toKey = some v) :
      AtomicStep a (.lookup w key, .silent, none) { a with holding := Function.update a.holding w (.got key v) }
  | value {a : Atomic W} {w : W} {key : WireKey} {v : Signed} (hw : a.holding w = .got key v)
      (he : ¬v.record.expired a.now) : AtomicStep a (.check w, .value v.sign, some v.record)
        { a with holding := Function.update a.holding w .idle }
  | expired {a : Atomic W} {w : W} {key : WireKey} {v : Signed} (hw : a.holding w = .got key v)
      (he : v.record.expired a.now) : AtomicStep a (.check w, .silent, none)
        { a with holding := Function.update a.holding w (.expired key) }
  /-- The key is removed, with whatever value it has by now. -/
  | remove {a : Atomic W} {w : W} {key : WireKey} (hw : a.holding w = .expired key) :
      AtomicStep a (.remove w, .silent, none)
        { a with dict := Function.update a.dict key.toKey none, holding := Function.update a.holding w .idle }

/-! ## The files show a dictionary -/

/-- The record that is read for a reply, when it is read. -/
def System.seen {ι W : Type} (sys : System ι W) : Reply → Option Record
  | .value valueOffset => recordAt sys.store.dataFile valueOffset
  | _ => none

/-- The value lies in the file. -/
def Signed.In (data : List UInt8) (v : Signed) : Prop := v.sign ≠ 0 ∧ recordAt data v.sign = some v.record

/-- The offsets lead to the records of the dictionary. -/
structure Shows (m : Key → Nat) (data : List UInt8) (d : Dict) : Prop where
  sign : ∀ key, d.sign key = m key
  held : ∀ key v, d key = some v → v.In data

/-- The reader holds the record that its offset leads to. -/
inductive ShowsReading (data : List UInt8) : Reading → Holding → Prop
  | idle : ShowsReading data .idle .idle
  | got {key : WireKey} {v : Signed} (h : v.In data) : ShowsReading data (.looked key v.sign) (.got key v)
  | expired {key : WireKey} : ShowsReading data (.expired key) (.expired key)

structure Simulates {ι W : Type} {ix : Index ι} (V : View ix) (sys : System ι W) (a : Atomic W) : Prop where
  dict : ∃ m, V.Rep sys.store.index m ∧ Shows m sys.store.dataFile a.dict
  now : a.now = sys.now
  reading : ∀ w, ShowsReading sys.store.dataFile (sys.reading w) (a.holding w)
  bound : a.bound ≤ sys.store.dataFile.length
  pos : sys.store.dataFile.length ≠ 0

section Shows

variable {m : Key → Nat} {data : List UInt8} {d : Dict} {key : Key} {v : Signed}

theorem Signed.In.append (h : v.In data) (bs : List UInt8) : v.In (data ++ bs) := ⟨h.1, recordAt_append bs h.2⟩

theorem ShowsReading.append {r : Reading} {x : Holding} (h : ShowsReading data r x) (bs : List UInt8) :
    ShowsReading (data ++ bs) r x := by
  cases h with
  | idle => exact .idle
  | got h => exact .got (h.append bs)
  | expired => exact .expired

theorem Shows.eq_none (h : Shows m data d) : d key = none ↔ m key = 0 := by
  rw [← h.sign key, Dict.sign]
  cases hv : d key with
  | none => exact iff_of_true rfl rfl
  | some v => exact iff_of_false (by simp) (h.held key v hv).1

theorem Shows.of_ne_zero (h : Shows m data d) (hne : m key ≠ 0) :
    ∃ v, d key = some v ∧ v.sign = m key ∧ v.In data := by
  cases hv : d key with
  | none => exact absurd (h.eq_none.mp hv) hne
  | some v => exact ⟨v, rfl, by rw [← h.sign key, Dict.sign, hv]; rfl, h.held key v hv⟩

/-- A removal. -/
theorem Shows.remove (h : Shows m data d) (key : Key) :
    Shows (Function.update m key 0) data (Function.update d key none) := by
  refine ⟨fun k => ?_, fun k v hv => ?_⟩
  · rcases Classical.em (k = key) with rfl | hk
    · rw [Dict.sign, Function.update_self, Function.update_self]
      rfl
    · rw [Dict.sign, Function.update_of_ne hk, Function.update_of_ne hk, ← h.sign k]
      rfl
  · rcases Classical.em (k = key) with rfl | hk
    · rw [Function.update_self] at hv
      cases hv
    · rw [Function.update_of_ne hk] at hv
      exact h.held k v hv

/-- A new record behind the others. -/
theorem Shows.put (h : Shows m data d) (key : Key) {bs : List UInt8} (hv : v.In (data ++ bs)) :
    Shows (Function.update m key v.sign) (data ++ bs) (Function.update d key (some v)) := by
  refine ⟨fun k => ?_, fun k v' hv' => ?_⟩
  · rcases Classical.em (k = key) with rfl | hk
    · rw [Dict.sign, Function.update_self, Function.update_self]
      rfl
    · rw [Dict.sign, Function.update_of_ne hk, Function.update_of_ne hk, ← h.sign k]
      rfl
  · rcases Classical.em (k = key) with rfl | hk
    · rw [Function.update_self] at hv'
      obtain rfl := Option.some.inj hv'
      exact hv
    · rw [Function.update_of_ne hk] at hv'
      exact (h.held k v' hv').append bs

end Shows

/-! ## One step -/

section Step

variable {ι W : Type} [DecidableEq W] {ix : Index ι} {V : View ix} {sys sys' : System ι W} {a : Atomic W} {e : Event W}
  {reply : Reply} {m : Key → Nat} {d : Dict} {now : Int} {st st' : Store ι}

omit [DecidableEq W] in
/-- A store gives its key the end of the data file as a sign. -/
theorem Shows.stored (hr : V.Rep st.index m) (h : Shows m st.dataFile d) (hpos : st.dataFile.length ≠ 0) {key : WireKey}
    {flag expire : Int} {body : List UInt8} (hb : body.length < 2147483648) (hst : Stored ix st st' key.bytes flag expire body) :
    ∃ m', V.Rep st'.index m' ∧ Shows m' st'.dataFile (Function.update d key.toKey
      (some ⟨st.dataFile.length, ⟨wrap32 flag, wrap32 expire, body⟩⟩)) := by
  refine ⟨_, V.put hr hst.index, ?_⟩
  rw [hst.data]
  exact h.put key.toKey (show Signed.In _ ⟨st.dataFile.length, _⟩ from ⟨hpos, recordAt_recordBytes _ _ _ hb⟩)

/-- A command does to the files what it does to the dictionary. -/
theorem Dict.applies_of_run (hr : V.Rep st.index m) (h : Shows m st.dataFile d) (hpos : st.dataFile.length ≠ 0)
    {bound : Nat} (hbound : bound ≤ st.dataFile.length) {s : Section} (hc : s.isCommand = true)
    (hrun : s.run ix now st = .ok (reply, st')) (hok : s.removes = true → V.Ok st.index s.key.toKey) :
    ∃ d' bound', d.Applies now bound s reply d' bound' ∧ (∃ m', V.Rep st'.index m' ∧ Shows m' st'.dataFile d') ∧
      bound' ≤ st'.dataFile.length := by
  have hgrows : ∀ {key : List UInt8} {flag expire : Int} {body : List UInt8}, Stored ix st st' key flag expire body →
      st.dataFile.length + 1 ≤ st'.dataFile.length := by
    intro key flag expire body hst
    rw [hst.data, List.length_append]
    simp only [recordBytes, List.length_append, length_int32LE]
    omega
  cases s with
  | set key flag expire body =>
      obtain ⟨rfl, hst⟩ := Section.run_set hrun
      exact ⟨_, _, .set hbound, h.stored hr hpos (lt_of_le_of_lt body.framed (by decide)) hst, hgrows hst⟩
  | cas key flag expire body sign =>
      obtain ⟨v, hv, ⟨hne, rfl, rfl⟩ | ⟨heq, rfl, hst⟩⟩ := Section.run_cas hrun
      · exact ⟨d, bound, .exists (by rw [h.sign, ← V.get hr hv]; exact hne), ⟨m, hr, h⟩, hbound⟩
      · obtain rfl : d.sign key.toKey = sign := by rw [h.sign, ← V.get hr hv, heq]
        exact ⟨_, _, .cas hbound, h.stored hr hpos (lt_of_le_of_lt body.framed (by decide)) hst, hgrows hst⟩
  | incrOrDecr key delta isDecr =>
      obtain ⟨v, hv, ⟨rfl, rfl, rfl⟩ | ⟨hne, bodyLen, flag, expire, htmp, h0, hshort, rfl, hst⟩⟩ :=
        Section.run_incrOrDecr hrun
      · exact ⟨d, bound, .incrOrDecrNone (h.eq_none.mpr (V.get hr hv).symm), ⟨m, hr, h⟩, hbound⟩
      · obtain ⟨held, hd, hsign, hin⟩ := h.of_ne_zero fun e : m key.toKey = 0 => hne ((V.get hr hv).trans e)
        rw [V.get hr hv, ← hsign] at htmp hst
        obtain ⟨htmp', hbody, -⟩ := readTmp_of_recordAt hin.2
        obtain ⟨rfl, hrest⟩ := Prod.mk.inj (Except.ok.inj (htmp'.symm.trans htmp))
        obtain ⟨rfl, rfl⟩ := Prod.mk.inj hrest
        obtain ⟨hflag, hexpire⟩ := wrap32_of_recordAt hin.2
        rw [Int.toNat_natCast, hbody] at hst
        have hshow := h.stored hr hpos (lt_of_le_of_lt (length_decimal_wrap32 _) (by decide)) hst
        rw [hflag, hexpire] at hshow
        rw [V.get hr hv, ← hsign, Int.toNat_natCast, hbody]
        exact ⟨_, _, .incrOrDecr hd (by omega) hbound, hshow, hgrows hst⟩
  | delete key =>
      obtain ⟨v, hv, ⟨rfl, rfl, rfl⟩ | ⟨hne, rfl, hrm⟩⟩ := Section.run_delete hrun
      · exact ⟨d, bound, .deleteNone (h.eq_none.mpr (V.get hr hv).symm), ⟨m, hr, h⟩, hbound⟩
      · refine ⟨_, bound, .delete fun e => hne ((V.get hr hv).trans (h.eq_none.mp e)),
          ⟨_, V.delete hr (hok rfl) hrm.index, ?_⟩, by rw [hrm.data]; exact hbound⟩
        rw [hrm.data]
        exact h.remove key.toKey
  | deleteExpireValue key => cases hc

/-- One reader moves on, the others hold what they held. -/
theorem Simulates.setReading (h : Simulates V sys a) {w : W} {r : Reading} {x : Holding}
    (hx : ShowsReading sys.store.dataFile r x) :
    Simulates V (sys.setReading w r) { a with holding := Function.update a.holding w x } := by
  refine ⟨h.dict, h.now, fun w' => ?_, h.bound, h.pos⟩
  rcases Classical.em (w' = w) with rfl | hw
  · simp only [System.setReading, Function.update_self]
    exact hx
  · simp only [System.setReading, Function.update_of_ne hw]
    exact h.reading w'

omit [DecidableEq W] in
/-- Behind a longer data file the readers hold what they held. -/
theorem Simulates.reading_append (h : Simulates V sys a) {bs : List UInt8} (hd : st'.dataFile = sys.store.dataFile ++ bs)
    (w : W) : ShowsReading st'.dataFile (sys.reading w) (a.holding w) := by
  rw [hd]
  exact (h.reading w).append bs

theorem ShowsReading.idle_of {data : List UInt8} {x : Holding} (h : ShowsReading data .idle x) : x = .idle := by
  cases h
  rfl

theorem ShowsReading.expired_of {data : List UInt8} {key : WireKey} {x : Holding}
    (h : ShowsReading data (.expired key) x) : x = .expired key := by
  cases h
  rfl

/-- Every step of the server is a step of the atomic store. -/
theorem Simulates.step (h : Simulates V sys a) (hs : sys.exec ix e = some (reply, sys'))
    (hok : ∀ s, sys.sectionOf e = some s → s.removes = true → V.Ok sys.store.index s.key.toKey) :
    ∃ a', AtomicStep a (e, reply, sys.seen reply) a' ∧ Simulates V sys' a' := by
  obtain ⟨m, hr, hshow⟩ := h.dict
  cases e with
  | tick seconds =>
      obtain ⟨rfl, rfl⟩ := Prod.mk.inj (Option.some.inj hs)
      exact ⟨_, .tick seconds, ⟨m, hr, hshow⟩, by rw [h.now], h.reading, h.bound, h.pos⟩
  | command w s =>
      have hreading := h.reading w
      simp only [System.exec] at hs
      cases hw : sys.reading w with
      | looked key v => rw [hw] at hs; cases hs
      | expired key => rw [hw] at hs; cases hs
      | idle =>
          rw [hw] at hs hreading
          simp only at hs
          split_ifs at hs with hc
          obtain ⟨st, hrun, rfl⟩ := System.runSection_eq hs
          obtain ⟨d', bound', happ, hdict, hb⟩ := Dict.applies_of_run hr hshow h.pos h.bound hc hrun (hok s rfl)
          obtain ⟨bs, hbs⟩ := Section.run_dataFile hrun
          have hnone : sys.seen reply = none := by
            cases happ <;> rfl
          rw [hnone]
          refine ⟨_, .command hreading.idle_of hc (h.now ▸ happ), hdict, h.now, h.reading_append hbs, hb, ?_⟩
          rw [show ({ sys with store := st } : System ι W).store = st from rfl, hbs, List.length_append]
          have := h.pos
          omega
  | lookup w key =>
      have hreading := h.reading w
      simp only [System.exec] at hs
      cases hw : sys.reading w with
      | looked key v => rw [hw] at hs; cases hs
      | expired key => rw [hw] at hs; cases hs
      | idle =>
          rw [hw] at hs hreading
          obtain ⟨v, hv, he⟩ := Option.map_eq_some_iff.mp hs
          obtain ⟨rfl, rfl⟩ := Prod.mk.inj he
          have hvm := V.get hr hv
          rcases Nat.eq_zero_or_pos v with rfl | hpos
          · exact ⟨a, .miss hreading.idle_of (hshow.eq_none.mpr hvm.symm), h⟩
          · obtain ⟨held, hd, hsign, hin⟩ := hshow.of_ne_zero (show m key.toKey ≠ 0 by omega)
            rw [if_pos hpos, hvm, ← hsign]
            exact ⟨_, .hit hreading.idle_of hd, h.setReading (.got hin)⟩
  | check w =>
      have hreading := h.reading w
      simp only [System.exec] at hs
      cases hw : sys.reading w with
      | idle => rw [hw] at hs; cases hs
      | expired key => rw [hw] at hs; cases hs
      | looked key v =>
          rw [hw] at hs hreading
          obtain ⟨x, hx⟩ : ∃ x, a.holding w = x := ⟨_, rfl⟩
          rw [hx] at hreading
          cases hreading with
          | @got _ held hin =>
              obtain ⟨htmp, -, -⟩ := readTmp_of_recordAt hin.2
              simp only [htmp, Except.toOption, Option.map_some, Option.some.injEq] at hs
              rcases Classical.em (held.record.expired sys.now) with hexp | hexp
              · rw [if_pos (show 0 < held.record.expire ∧ held.record.expire ≤ wrap32 sys.now from hexp)] at hs
                obtain ⟨rfl, rfl⟩ := Prod.mk.inj hs
                exact ⟨_, .expired hx (by rw [h.now]; exact hexp), h.setReading .expired⟩
              · rw [if_neg (show ¬(0 < held.record.expire ∧ held.record.expire ≤ wrap32 sys.now) from hexp)] at hs
                obtain ⟨rfl, rfl⟩ := Prod.mk.inj hs
                rw [show sys.seen (.value held.sign) = some held.record from hin.2]
                exact ⟨_, .value hx (by rw [h.now]; exact hexp), h.setReading .idle⟩
  | remove w =>
      have hreading := h.reading w
      simp only [System.exec] at hs
      cases hw : sys.reading w with
      | idle => rw [hw] at hs; cases hs
      | looked key v => rw [hw] at hs; cases hs
      | expired key =>
          rw [hw] at hs hreading
          obtain ⟨⟨r, sys₁⟩, h₁, he⟩ := Option.map_eq_some_iff.mp hs
          obtain ⟨rfl, rfl⟩ := Prod.mk.inj he
          obtain ⟨st, hrun, rfl⟩ := System.runSection_eq h₁
          obtain ⟨-, hrm⟩ := Section.run_deleteExpireValue hrun
          have hx := hreading.expired_of
          have hok' := hok (.deleteExpireValue key) (by rw [System.sectionOf, hw]) rfl
          have hremoved : Simulates V ({ sys with store := st } : System ι W)
              { a with dict := Function.update a.dict key.toKey none } := by
            refine ⟨⟨_, V.delete hr hok' hrm.index, ?_⟩, h.now, ?_, ?_, ?_⟩
            · rw [show ({ sys with store := st } : System ι W).store.dataFile = _ from hrm.data]
              exact hshow.remove key.toKey
            · exact h.reading_append (show st.dataFile = _ ++ [] by rw [hrm.data, List.append_nil])
            · exact h.bound.trans_eq (congrArg List.length hrm.data).symm
            · exact fun e => h.pos ((congrArg List.length hrm.data).symm.trans e)
          exact ⟨_, .remove hx, hremoved.setReading .idle⟩

end Step

/-! ## Runs on the arena -/

section Arena

variable {W : Type} [DecidableEq W]

/-- A step of the server on the arena, and what is seen of it. -/
def System.SeenStep (sys : System TstDb W) (l : Label W) (sys' : System TstDb W) : Prop :=
  sys.ArenaStep (l.1, l.2.1) sys' ∧ l.2.2 = sys.seen l.2.1

/-- A section that removes finds right parent fields on its key's path. -/
def System.LinkedRemoval (sys : System TstDb W) (l : Label W) : Prop :=
  ∀ s, sys.sectionOf l.1 = some s → s.removes = true → (TstOp.delete s.key.toKey).Linked sys.store.index

/-- The values of the index `m`, as far as the data file has their records. -/
def Dict.of (m : Key → Nat) (data : List UInt8) : Dict := fun key =>
  if m key = 0 then none else (recordAt data (m key)).map (Signed.mk (m key))

/-- The atomic store that a server with no reader at work starts as. -/
def System.atomic (sys : System TstDb W) (m : Key → Nat) : Atomic W :=
  ⟨Dict.of m sys.store.dataFile, sys.now, fun _ => .idle, sys.store.dataFile.length⟩

theorem Shows.of {m : Key → Nat} {data : List UInt8} (h : Complete m data) : Shows m data (Dict.of m data) := by
  have hof : ∀ key, m key ≠ 0 → ∃ r, recordAt data (m key) = some r ∧ Dict.of m data key = some ⟨m key, r⟩ := by
    intro key hne
    obtain ⟨r, hr⟩ := Option.isSome_iff_exists.mp (h key hne)
    exact ⟨r, hr, by rw [Dict.of, if_neg hne, hr]; rfl⟩
  refine ⟨fun key => ?_, fun key v hv => ?_⟩
  · rcases Classical.em (m key = 0) with h0 | hne
    · rw [Dict.sign, Dict.of, if_pos h0, h0]
      rfl
    · obtain ⟨r, -, hd⟩ := hof key hne
      rw [Dict.sign, hd]
      rfl
  · rcases Classical.em (m key = 0) with h0 | hne
    · rw [Dict.of, if_pos h0] at hv
      cases hv
    · obtain ⟨r, hr, hd⟩ := hof key hne
      obtain rfl := Option.some.inj (hd.symm.trans hv)
      exact ⟨hne, hr⟩

omit [DecidableEq W] in
theorem System.simulates_atomic {sys : System TstDb W} {m : Key → Nat} (hrep : Represents sys.store.index m)
    (hcomplete : Complete m sys.store.dataFile) (hpos : sys.store.dataFile ≠ []) (hidle : ∀ w, sys.reading w = .idle) :
    Simulates (View.arena 0) sys (sys.atomic m) := by
  refine ⟨⟨m, hrep, .of hcomplete⟩, rfl, fun w => ?_, le_rfl, fun e => hpos (List.length_eq_zero_iff.mp e)⟩
  rw [hidle w]
  exact .idle

/-- Every run of the workers is a run of the atomic store with the same replies and
values, and ends with the dictionary that the index and the data file then hold. -/
theorem arena_run_is_atomic {sys sys' : System TstDb W} {m : Key → Nat} {ls : List (Label W)}
    (hrep : Represents sys.store.index m) (hcomplete : Complete m sys.store.dataFile) (hpos : sys.store.dataFile ≠ [])
    (hidle : ∀ w, sys.reading w = .idle) (hrun : Run (Guarded System.SeenStep System.LinkedRemoval) sys ls sys') :
    ∃ a, Run AtomicStep (sys.atomic m) ls a ∧ ∃ m', Represents sys'.store.index m' ∧
      Complete m' sys'.store.dataFile ∧ a.dict = Dict.of m' sys'.store.dataFile := by
  have hstep : ∀ (s : System TstDb W) (t : Atomic W) l s', Simulates (View.arena 0) s t →
      Guarded System.SeenStep System.LinkedRemoval s l s' → ∃ t', AtomicStep t l t' ∧ Simulates (View.arena 0) s' t' := by
    rintro s t ⟨e, reply, record⟩ s' hR ⟨hlinked, ⟨n, hexec⟩, hrecord⟩
    have hR' : Simulates (View.arena n) s t := ⟨hR.dict, hR.now, hR.reading, hR.bound, hR.pos⟩
    obtain ⟨t', ht, h⟩ := hR'.step hexec hlinked
    rw [← show record = s.seen reply from hrecord] at ht
    exact ⟨t', ht, h.dict, h.now, h.reading, h.bound, h.pos⟩
  obtain ⟨a, hatomic, hsim⟩ := Run.refines hstep hrun _ (System.simulates_atomic hrep hcomplete hpos hidle)
  obtain ⟨m', hrep', hshow⟩ := hsim.dict
  have hread : ∀ key, m' key ≠ 0 → ∃ r, recordAt sys'.store.dataFile (m' key) = some r ∧ a.dict key = some ⟨m' key, r⟩ := by
    intro key hne
    obtain ⟨v, hv, hsign, hin⟩ := hshow.of_ne_zero hne
    rw [← hsign]
    exact ⟨v.record, hin.2, hv⟩
  refine ⟨a, hatomic, m', hrep', fun key hne => ?_, funext fun key => ?_⟩
  · obtain ⟨r, hr, -⟩ := hread key hne
    rw [hr]
    rfl
  · rcases Classical.em (m' key = 0) with h0 | hne
    · rw [Dict.of, if_pos h0, hshow.eq_none.mpr h0]
    · obtain ⟨r, hr, hd⟩ := hread key hne
      rw [Dict.of, if_neg hne, hd, hr]
      rfl

/-- Take the step if it answers with the reply and the record. -/
def System.followSeen (fuel : Nat) (sys : System TstDb W) (l : Label W) : Option (System TstDb W) :=
  if l.2.2 = sys.seen l.2.1 then sys.follow fuel (l.1, l.2.1) else none

theorem System.seenStep_of_follow {fuel : Nat} {sys sys' : System TstDb W} {l : Label W}
    (h : sys.followSeen fuel l = some sys') : sys.SeenStep l sys' := by
  rw [System.followSeen] at h
  split_ifs at h with hl
  exact ⟨System.arenaStep_of_follow h, hl⟩

end Arena

/-- Worker 1 looks `a` up; before it reads the record, `a` is stored anew and deleted. -/
def overtaken : List (Label Nat) :=
  [(.command 0 (.set wireA 0 0 ⟨[120], letter_x_framed⟩), .stored, none), (.lookup 1 wireA, .silent, none),
    (.command 0 (.set wireA 0 0 ⟨[121], letter_y_framed⟩), .stored, none), (.command 0 (.delete wireA), .deleted, none),
    (.check 1, .value 6, some ⟨0, 0, [120]⟩)]

theorem arena_run_is_atomic_overtaken : ∃ (sys : System TstDb Nat) (a : Atomic Nat),
    Represents freshSystem.store.index (fun _ => 0) ∧ Complete (fun _ => 0) freshSystem.store.dataFile ∧
    freshSystem.store.dataFile ≠ [] ∧ (∀ w, freshSystem.reading w = .idle) ∧
    Run (Guarded System.SeenStep System.LinkedRemoval) freshSystem overtaken sys ∧
    Run AtomicStep (freshSystem.atomic fun _ => 0) overtaken a := by
  obtain ⟨sys, h, -⟩ : ∃ sys, runChecked (System.followSeen 8) (fun s l => s.carefulCheck 8 (l.1, l.2.1)) freshSystem
      overtaken = some sys ∧ some () = some () :=
    Option.bind_eq_some_iff.mp (show (runChecked (System.followSeen 8) (fun s l => s.carefulCheck 8 (l.1, l.2.1))
      freshSystem overtaken).bind (fun _ => some ()) = some () by decide +kernel)
  have hrun : Run (Guarded System.SeenStep System.LinkedRemoval) freshSystem overtaken sys :=
    runChecked_spec (fun _ _ _ => System.seenStep_of_follow) (fun _ _ hc => (System.careful_of_check hc).linked) h
  have hrep : Represents freshSystem.store.index fun _ => 0 := Represents.create (fun _ => TstNode.zero) rfl
  have hcomplete : Complete (fun _ => 0) freshSystem.store.dataFile := fun _ hne => absurd rfl hne
  have hpos : freshSystem.store.dataFile ≠ [] := by decide
  obtain ⟨a, ha, -⟩ := arena_run_is_atomic hrep hcomplete hpos (fun _ => rfl) hrun
  exact ⟨sys, a, hrep, hcomplete, hpos, fun _ => rfl, hrun, ha⟩

end Tstdb
