/-
# `Tstdb.Server.Values` — what `get` answers

`cmd_do_get` walks the words of its line, looks each of them up, and puts a reply
together in an array.  On a store whose index represents a map the reply is a
function of the map, the data file and the time (`getReply`): one value for each
word whose record has not expired, in the order of the line.  The loop builds it in
`g_value_buf` exactly when it fits there (`cmdDoGet_ends`), and what has expired is
gone from the index afterwards.
-/
import Mathlib
import Tstdb.Lib.Fuel
import Tstdb.Lib.CText
import Tstdb.Lib.Bytes
import Tstdb.Lib.Outcome
import Tstdb.Lib.TernaryTree
import Tstdb.Lib.TernaryWords
import Tstdb.Tst.Arena
import Tstdb.Tst.Shape
import Tstdb.Tst.Runs
import Tstdb.Tst.Calls
import Tstdb.Tst.Scan
import Tstdb.Tst.Walks
import Tstdb.Tst.Ranges
import Tstdb.Server.Index
import Tstdb.Server.Store
import Tstdb.Server.Sections
import Tstdb.Server.View
import Tstdb.Server.Pool
import Tstdb.Server.Commands

namespace Tstdb

open Fuel CText Bytes Outcome

/-! ## An index that works -/

/-- Every call returns on the states that represent maps. -/
structure ScanIndex.Works {ι : Type} (ix : ScanIndex ι) (V : View ix.toIndex) : Prop where
  get : ∀ {i m} (key : Key), V.Rep i m → ∃ v, ix.get i key.bytes = some v
  put : ∀ {i m} (key : Key) (v : Nat), V.Rep i m → ∃ i', ix.put i key.bytes v = some i'
  delete : ∀ {i m} (key : Key), V.Rep i m → V.Ok i key ∧ ∃ i', ix.delete i key.bytes = some i'
  /-- The empty string is no key. -/
  get_nil : ∀ {i m}, V.Rep i m → ix.get i [] = some 0
  list : ∀ {i m} (call : ListCall), V.Rep i m → ∃ r, ix.list i call = some r

def ListCall.limit : ListCall → Int
  | .below _ limit _ | .less _ limit | .greater _ limit => limit

/-- The part of the keys a call lists, in its order: those with the prefix, or those on
one side of the bound where its terminator counts. -/
def ListCall.part (ks : List (List UInt8)) : ListCall → List (List UInt8)
  | .below pre _ sortingOrder => sortingOrder.list (ks.filter fun k => pre <+: k)
  | .less key _ => (ks.filter fun k => letters k < letters key ++ [0]).reverse
  | .greater key _ => ks.filter fun k => TTree.From 0 (letters key) (letters k)

/-- The calls list their part of the keys of the map, up to the limit. -/
def ScanIndex.Lists {ι : Type} (ix : ScanIndex ι) (V : View ix.toIndex) : Prop :=
  ∀ {i m ks}, V.Rep i m → Listing m ks → ∀ call : ListCall, ix.list i call = some (cut call.limit (call.part ks))

/-- The arena lists likewise, unless a prefix has a value itself and is to come last. -/
theorem Scannable.lists {db : TstDb} {t : Tree} (h : Scannable db t) (bound : Key) (limit : Int) :
    Settles (fun n => (ScanIndex.arena n).list db (.less bound.bytes limit))
        (cut limit ((ListCall.less bound.bytes limit).part (keysIn t))) ∧
      Settles (fun n => (ScanIndex.arena n).list db (.greater bound.bytes limit))
        (cut limit ((ListCall.greater bound.bytes limit).part (keysIn t))) ∧
      ∀ order, order = .asc ∨ t.lookup (letters bound.bytes) = 0 →
        Settles (fun n => (ScanIndex.arena n).list db (.below bound.bytes limit order))
          (cut limit ((ListCall.below bound.bytes limit order).part (keysIn t))) := by
  refine ⟨h.less bound limit, h.greater bound limit, fun order ho => ?_⟩
  obtain ⟨out, hout, hiff⟩ := h.prefix_iff bound limit order
  rw [← show out = cut limit ((ListCall.below bound.bytes limit order).part (keysIn t)) from
    hiff.mpr (ho.imp_right Or.inl)]
  exact hout

/-- The keys of a map in order, if it has finitely many. -/
noncomputable def KeyMap.keys (m : KeyMap) : List (List UInt8) :=
  open Classical in if h : ∃ ks, Listing (fun key => m.get key.bytes) ks then h.choose else []

/-- The map with its enumerations. -/
noncomputable def ScanIndex.map : ScanIndex KeyMap where
  toIndex := Index.map
  list m call := some (cut call.limit (call.part m.keys))

theorem ScanIndex.map_works : ScanIndex.map.Works View.map where
  get _ _ := ⟨_, rfl⟩
  put _ _ _ := ⟨_, rfl⟩
  delete _ _ := ⟨trivial, _, rfl⟩
  get_nil _ := rfl
  list _ _ := ⟨_, rfl⟩

theorem ScanIndex.map_lists : ScanIndex.map.Lists View.map := by
  intro i m ks hr hks call
  obtain rfl : m = fun key : Key => i.get key.bytes := funext hr
  have hex : ∃ ks, Listing (fun key : Key => i.get key.bytes) ks := ⟨ks, hks⟩
  have hkeys : i.keys = ks := by
    rw [KeyMap.keys, dif_pos hex]
    exact hex.choose_spec.unique hks
  rw [← hkeys]
  rfl

/-- The offset of a word. -/
def offsetOf (m : Key → Nat) (w : List UInt8) : Nat := if h : w ≠ [] ∧ 0 ∉ w then m ⟨w, h.1, h.2⟩ else 0

theorem offsetOf_key (m : Key → Nat) (key : Key) : offsetOf m key.bytes = m key := dif_pos ⟨key.ne, key.nul⟩

/-- A word that has an offset is a key. -/
theorem exists_key_of_offsetOf {m : Key → Nat} {w : List UInt8} (h : offsetOf m w ≠ 0) :
    ∃ key : Key, key.bytes = w := by
  unfold offsetOf at h
  split_ifs at h with hw
  · exact ⟨⟨w, hw.1, hw.2⟩, rfl⟩
  · exact absurd rfl h

/-- The values of the index are offsets of complete records. -/
def Complete (m : Key → Nat) (data : List UInt8) : Prop := ∀ key, m key ≠ 0 → (recordAt data (m key)).isSome

/-- So it is for the word, if it has an offset. -/
def CompleteAt (m : Key → Nat) (data w : List UInt8) : Prop :=
  offsetOf m w ≠ 0 → (recordAt data (offsetOf m w)).isSome

theorem Complete.word {m : Key → Nat} {data : List UInt8} (h : Complete m data) (w : List UInt8) :
    CompleteAt m data w := by
  intro hne
  obtain ⟨key, rfl⟩ := exists_key_of_offsetOf hne
  rw [offsetOf_key] at hne ⊢
  exact h key hne

section Works

variable {ι : Type} {ix : ScanIndex ι} {V : View ix.toIndex} {m : Key → Nat} {i : ι}

theorem ScanIndex.Works.get_word (hw : ix.Works V) (hr : V.Rep i m) {w : List UInt8} (h0 : 0 ∉ w) :
    ix.get i w = some (offsetOf m w) := by
  rcases Classical.em (w = []) with rfl | hne
  · exact hw.get_nil hr
  · obtain ⟨v, hv⟩ := hw.get ⟨w, hne, h0⟩ hr
    have hm := V.get hr hv
    rw [show offsetOf m w = m ⟨w, hne, h0⟩ from dif_pos ⟨hne, h0⟩, ← hm]
    exact hv

/-- A sound store is complete. -/
theorem ScanIndex.Works.complete (hw : ix.Works V) {st : Store ι} (hr : V.Rep st.index m)
    (hs : st.Sound ix.toIndex) : Complete m st.dataFile := by
  intro key hne
  obtain ⟨v, hv⟩ := hw.get key hr
  obtain rfl := V.get hr hv
  exact hs _ (ix.get_holds hv hne)

end Works

/-! ## The reply -/

/-- The offset and the record a word leads to. -/
def recordOf (m : Key → Nat) (data : List UInt8) (w : List UInt8) : Option (Nat × Record) :=
  if offsetOf m w = 0 then none else (recordAt data (offsetOf m w)).map fun r => (offsetOf m w, r)

/-- One value of a reply; with `gets` the offset goes along. -/
def valueText (rSign : Bool) (w : List UInt8) (offset : Nat) (r : Record) : List UInt8 :=
  valueLine w r.flag r.body.length (if rSign then some offset else none) ++ r.body ++ ascii "\r\n"

/-- What a word contributes to the reply. -/
def valueBlock (m : Key → Nat) (data : List UInt8) (now : Int) (rSign : Bool) (w : List UInt8) : List UInt8 :=
  match recordOf m data w with
  | none => []
  | some (offset, r) => if r.expired now then [] else valueText rSign w offset r

def getReply (m : Key → Nat) (data : List UInt8) (now : Int) (rSign : Bool) (ws : List (List UInt8)) :
    List UInt8 :=
  ws.flatMap (valueBlock m data now rSign) ++ ascii "END\r\n"

/-- The map without the word, if its record has expired. -/
def forget (data : List UInt8) (now : Int) (m : Key → Nat) (w : List UInt8) : Key → Nat :=
  match recordOf m data w with
  | none => m
  | some (_, r) => if r.expired now then fun key => if key.bytes = w then 0 else m key else m

section Forget

variable {m : Key → Nat} {data : List UInt8} {now : Int} {w : List UInt8}

theorem recordOf_of_offset (h : offsetOf m w ≠ 0) (hc : CompleteAt m data w) :
    ∃ r, recordAt data (offsetOf m w) = some r ∧ recordOf m data w = some (offsetOf m w, r) := by
  obtain ⟨r, hr⟩ := Option.isSome_iff_exists.mp (hc h)
  exact ⟨r, hr, by rw [recordOf, if_neg h, hr]; rfl⟩

theorem recordOf_zero (h : offsetOf m w = 0) : recordOf m data w = none := if_pos h

/-- Forgetting takes away at most the word itself, and that only when it has expired. -/
theorem forget_apply (key : Key) : forget data now m w key = m key ∨
    key.bytes = w ∧ forget data now m w key = 0 ∧ ∃ off r, recordOf m data w = some (off, r) ∧ r.expired now := by
  unfold forget
  cases hr : recordOf m data w with
  | none => exact Or.inl rfl
  | some p =>
      obtain ⟨off, r⟩ := p
      rcases Classical.em (r.expired now) with hx | hx
      · simp only [hx, if_true]
        rcases Classical.em (key.bytes = w) with hk | hk
        · exact Or.inr ⟨hk, if_pos hk, off, r, rfl, hx⟩
        · exact Or.inl (if_neg hk)
      · exact Or.inl (by simp only [hx, if_false])

theorem Complete.forget (h : Complete m data) : Complete (forget data now m w) data := by
  intro key hne
  rcases @forget_apply m data now w key with e | ⟨-, e, -⟩
  · rw [e] at hne ⊢
    exact h key hne
  · exact absurd e hne

/-- What has expired adds nothing to the reply, so forgetting it changes nothing. -/
theorem valueBlock_forget (rSign : Bool) :
    valueBlock (forget data now m w) data now rSign = valueBlock m data now rSign := by
  funext w'
  rcases Classical.em (∃ key : Key, key.bytes = w') with ⟨key, rfl⟩ | hno
  · have hoff : ∀ m : Key → Nat, recordOf m data key.bytes
        = if m key = 0 then none else (recordAt data (m key)).map fun r => (m key, r) := fun m => by
      rw [recordOf, offsetOf_key]
    rcases @forget_apply m data now w key with e | ⟨rfl, e, off, r, hr, hx⟩
    · simp only [valueBlock, hoff, e]
    · have h₁ : recordOf (Tstdb.forget data now m key.bytes) data key.bytes = none := by rw [hoff, e, if_pos rfl]
      simp only [valueBlock, h₁, hr, if_pos hx]
  · have hz : ∀ m : Key → Nat, offsetOf m w' = 0 := fun m => by
      by_contra h
      exact hno (exists_key_of_offsetOf h)
    simp only [valueBlock, recordOf_zero (hz _)]

end Forget

/-! ## The words of a line -/

/-- The words from a position of the header array on: each ends at a space, the last
one at the terminator; `none` where the array ends first. -/
def wordsFrom (header : Buf) : Nat → Nat → Option (List (List UInt8))
  | 0, _ => none
  | fuel + 1, i =>
      (Buf.span (fun b => b = 32 || b = 0) (MAX_BODY_SIZE - i) header i).bind fun n =>
        if header (i + n) = 0 then some [header.read i n]
        else (wordsFrom header fuel (i + n + 1)).map (header.read i n :: ·)

/-- The words `cmd_do_get` looks up: those behind the first space. -/
def getWords (header : Buf) : Option (List (List UInt8)) :=
  (Buf.span (fun b => b = 32 || b = 0) MAX_BODY_SIZE header 0).bind fun n => wordsFrom header MAX_BODY_SIZE (n + 1)

/-- A word holds neither a space nor a terminator. -/
theorem notMem_word {header : Buf} {fuel i n : Nat} (h : Buf.span (fun b => b = 32 || b = 0) fuel header i = some n) :
    0 ∉ header.read i n ∧ 32 ∉ header.read i n := by
  obtain ⟨-, -, hbefore⟩ := Buf.span_spec.mp h
  constructor <;> intro hm <;> obtain ⟨j, hj, hb⟩ := List.mem_map.mp hm <;>
    have := hbefore j (List.mem_range.mp hj) <;> rw [hb] at this <;> simp at this

theorem notMem_wordsFrom {header : Buf} : ∀ {fuel i : Nat} {ws : List (List UInt8)},
    wordsFrom header fuel i = some ws → ∀ w ∈ ws, 0 ∉ w ∧ 32 ∉ w := by
  intro fuel
  induction fuel with
  | zero => intro i ws h; cases h
  | succ fuel ih =>
      intro i ws h
      obtain ⟨n, hs, h⟩ := Option.bind_eq_some_iff.mp h
      split_ifs at h
      · obtain rfl := Option.some.inj h
        exact List.forall_mem_singleton.mpr (notMem_word hs)
      · obtain ⟨ws', hws', rfl⟩ := Option.map_eq_some_iff.mp h
        exact List.forall_mem_cons.mpr ⟨notMem_word hs, ih hws'⟩

theorem notMem_getWords {header : Buf} {ws : List (List UInt8)} (h : getWords header = some ws) :
    ∀ w ∈ ws, 0 ∉ w ∧ 32 ∉ w := by
  obtain ⟨n, -, h⟩ := Option.bind_eq_some_iff.mp h
  exact notMem_wordsFrom h

/-! ## The loop -/

section Loop

variable {ι : Type} {ix : ScanIndex ι} {V : View ix.toIndex} {m m' m'' : Key → Nat} {now : Int} {rSign : Bool}
  {g g' g'' : Getting ι} {text text' : List UInt8} {words words' : Nat}

/-- From `g` to `g'` a text was added, the map became `m'`, and the binlog grew by at
most one record for each word. -/
structure Got (V : View ix.toIndex) (m' : Key → Nat) (text : List UInt8) (words : Nat) (g g' : Getting ι) :
    Prop where
  rep : V.Rep g'.store.index m'
  data : g'.store.dataFile = g.store.dataFile
  log : g'.store.binlog.length ≤ g.store.binlog.length + words * (12 + MAX_KEY_SIZE)
  total : g'.total = g.total + text.length
  text : g'.valueBuf.read 0 g'.total = g.valueBuf.read 0 g.total ++ text

theorem Got.refl (hr : V.Rep g.store.index m) (words : Nat) : Got V m [] words g g :=
  ⟨hr, rfl, Nat.le_add_right _ _, rfl, (List.append_nil _).symm⟩

theorem Got.trans (h : Got V m' text words g g') (h' : Got V m'' text' words' g' g'') :
    Got V m'' (text ++ text') (words + words') g g'' where
  rep := h'.rep
  data := h'.data.trans h.data
  log := by
    have := h.log
    have := h'.log
    rw [Nat.add_mul]
    omega
  total := by rw [h'.total, h.total, List.length_append, Nat.add_assoc]
  text := by rw [h'.text, h.text, List.append_assoc]

/-- Why a text is not put together: it does not fit, or there is no room for what has
expired; with room the fault says so. -/
def Misfit (able fits : Prop) (e : Fault) : Prop := ¬fits ∧ (able → e = .overrun .gValueBuf)

theorem Misfit.imp {able able' fits fits' : Prop} {e : Fault} (h : Misfit able fits e) (ha : able' → able)
    (hf : fits' → fits) : Misfit able' fits' e := ⟨fun h' => h.1 (hf h'), fun h' => h.2 (ha h')⟩

/-- One value: its block is added unless it does not fit. -/
theorem getValue_ends (hw : ix.Works V) (hr : V.Rep g.store.index m) {w : List UInt8}
    (hc : CompleteAt m g.store.dataFile w) (hoff : offsetOf m w ≠ 0) (hlen : w.length < MAX_KEY_SIZE) :
    Ends (Misfit (g.store.binlog.length + (12 + MAX_KEY_SIZE) < FILE_LIMIT)
        (g.store.binlog.length + (12 + MAX_KEY_SIZE) < FILE_LIMIT ∧
          g.total + (valueBlock m g.store.dataFile now rSign w).length ≤ VALUE_BUF_SIZE))
      (Got V (forget g.store.dataFile now m w) (valueBlock m g.store.dataFile now rSign w) 1 g)
      (getValue ix now rSign w (offsetOf m w) g) := by
  obtain ⟨r, hrec, hof⟩ := recordOf_of_offset hoff hc
  obtain ⟨htmp, hbody, -⟩ := readTmp_of_recordAt hrec
  rw [getValue, htmp]
  simp only [bind, Except.bind, valueBlock, forget, hof]
  rcases Classical.em (r.expired now) with hx | hx
  · obtain ⟨key, rfl⟩ := exists_key_of_offsetOf hoff
    obtain ⟨hok, i', hi'⟩ := hw.delete key hr
    have hmap : (fun k : Key => if k.bytes = key.bytes then 0 else m k) = Function.update m key 0 := by
      funext k
      rcases Classical.em (k = key) with rfl | hne
      · rw [if_pos rfl, Function.update_self]
      · rw [if_neg fun e => hne (Key.ext e), Function.update_of_ne hne]
    simp only [hx, if_true, if_pos (show 0 < r.expire ∧ r.expire ≤ wrap32 now from hx)]
    cases he : Act.execAll ix.toIndex g.store (deleteActs key.bytes) with
    | error e =>
        have hno : ¬g.store.binlog.length + (12 + MAX_KEY_SIZE) < FILE_LIMIT := fun hlog => by
          rw [execAll_deleteActs_eq (by omega) hi'] at he
          cases he
        exact ⟨fun h => hno h.1, fun hlog => absurd hlog hno⟩
    | ok st' =>
        have hrm := execAll_deleteActs he
        refine ⟨hmap ▸ V.delete hr hok hrm.index, hrm.data, ?_, rfl, (List.append_nil _).symm⟩
        rw [hrm.log]
        simp [binlogRecord]
        omega
  · simp only [hx, if_false, if_neg (show ¬(0 < r.expire ∧ r.expire ≤ wrap32 now) from hx),
      if_neg (show ¬(r.body.length : Int) < 0 by omega), Int.toNat_natCast, hbody, valueText]
    generalize valueLine w r.flag r.body.length (if rSign then some (offsetOf m w) else none) = line
    have hsize : (line ++ r.body ++ ascii "\r\n").length = line.length + r.body.length + 2 := by
      simp [ascii, Nat.add_assoc]
    rcases Nat.lt_or_ge VALUE_BUF_SIZE (g.total + line.length + r.body.length + 2) with hfit | hfit
    · rw [if_pos hfit, ends_throw, hsize]
      exact ⟨fun h => absurd h.2 (by omega), fun _ => rfl⟩
    · rw [if_neg (Nat.not_lt.mpr hfit), ends_pure]
      refine ⟨hr, rfl, Nat.le_add_right _ _, ?_, ?_⟩
      · show g.total + line.length + r.body.length + 2 = _
        omega
      · show Buf.read _ 0 (g.total + line.length + r.body.length + (ascii "\r\n").length) = _
        rw [Buf.read_write_append, Buf.read_write_append, ← Buf.write_write, Buf.read_write_before,
          Buf.read_write_append]
        simp only [List.append_assoc]

/-- What the loop makes of the words `ws` while it fits. -/
def Fitting (m : Key → Nat) (data : List UInt8) (now : Int) (rSign : Bool) (total : Nat)
    (ws : List (List UInt8)) : Prop :=
  (∀ w ∈ ws, w.length < MAX_KEY_SIZE) ∧
    total + (ws.flatMap (valueBlock m data now rSign)).length + 5 ≤ VALUE_BUF_SIZE

/-- The buffer with a terminator behind the text. -/
def Getting.terminated (g : Getting ι) : Getting ι := { g with valueBuf := g.valueBuf.write g.total [0] }

theorem Got.terminated (hr : V.Rep g.store.index m) : Got V m [] 0 g g.terminated :=
  ⟨hr, rfl, Nat.le_add_right _ _, rfl, by
    rw [List.append_nil]
    exact Buf.read_write_before _ _ _⟩

/-- One word: its block is added, unless the word or the block does not fit. -/
theorem getWord_ends (hw : ix.Works V) (hr : V.Rep g.store.index m) {w : List UInt8}
    (hc : CompleteAt m g.store.dataFile w) (hlen : w.length < MAX_KEY_SIZE) :
    Ends (Misfit (g.store.binlog.length + (12 + MAX_KEY_SIZE) < FILE_LIMIT)
        (g.store.binlog.length + (12 + MAX_KEY_SIZE) < FILE_LIMIT ∧
          g.total + (valueBlock m g.store.dataFile now rSign w).length ≤ VALUE_BUF_SIZE))
      (Got V (forget g.store.dataFile now m w) (valueBlock m g.store.dataFile now rSign w) 1 g)
      (if 0 < offsetOf m w then getValue ix now rSign w (offsetOf m w) g.terminated else pure g.terminated) := by
  have hstart : Got V m [] 0 g g.terminated := Got.terminated hr
  rcases Nat.eq_zero_or_pos (offsetOf m w) with hz | hpos
  · rw [if_neg (by omega), valueBlock, forget, recordOf_zero hz]
    exact hstart.trans (Got.refl hstart.rep 1)
  · rw [if_pos hpos]
    exact Ends.imp (@getValue_ends _ ix V m now rSign g.terminated hw hr w hc (by omega) hlen)
      fun g' hg' => hstart.trans hg'

theorem Fitting.total {total : Nat} {data : List UInt8} {ws : List (List UInt8)}
    (h : Fitting m data now rSign total ws) : total + 5 ≤ VALUE_BUF_SIZE := by
  have := h.2
  omega

theorem fitting_nil {total : Nat} {data : List UInt8} :
    Fitting m data now rSign total [] ↔ total + 5 ≤ VALUE_BUF_SIZE := by
  simp [Fitting]

theorem fitting_cons {total : Nat} {data w : List UInt8} {ws : List (List UInt8)} :
    Fitting m data now rSign total (w :: ws) ↔ w.length < MAX_KEY_SIZE ∧
      Fitting (forget data now m w) data now rSign (total + (valueBlock m data now rSign w).length) ws := by
  simp only [Fitting, List.forall_mem_cons, List.flatMap_cons, List.length_append, valueBlock_forget,
    Nat.add_assoc, and_assoc]

theorem wordsFrom_succ {header : Buf} {fuel i n : Nat}
    (hs : Buf.span (fun b => b = 32 || b = 0) (MAX_BODY_SIZE - i) header i = some n) :
    wordsFrom header (fuel + 1) i = if header (i + n) = 0 then some [header.read i n]
      else (wordsFrom header fuel (i + n + 1)).map (header.read i n :: ·) := by
  rw [wordsFrom, hs]
  rfl

/-- The words behind a first one. -/
theorem exists_of_wordsFrom_succ {header : Buf} {fuel i n : Nat} {ws : List (List UInt8)}
    (hs : Buf.span (fun b => b = 32 || b = 0) (MAX_BODY_SIZE - i) header i = some n)
    (h : wordsFrom header (fuel + 1) i = some ws) : ∃ ws', ws = header.read i n :: ws' := by
  rw [wordsFrom_succ hs] at h
  split_ifs at h
  · exact ⟨[], (Option.some.inj h).symm⟩
  · obtain ⟨ws', -, rfl⟩ := Option.map_eq_some_iff.mp h
    exact ⟨ws', rfl⟩

/-- One turn of the loop: the terminator, the word's block, and the words behind it. -/
theorem getLoop_succ {header : Buf} {fuel i n off : Nat}
    (hs : Buf.span (fun b => b = 32 || b = 0) (MAX_BODY_SIZE - i) header i = some n) (hlt : n < MAX_KEY_SIZE)
    (hget : ix.get g.store.index (header.read i n) = some off) (hroom : g.total < VALUE_BUF_SIZE) :
    getLoop ix now rSign header (fuel + 1) i g
      = (if 0 < off then getValue ix now rSign (header.read i n) off g.terminated else pure g.terminated)
        >>= fun g => if header (i + n) = 0 then pure g else getLoop ix now rSign header fuel (i + n + 1) g := by
  rw [getLoop, wordLen, hs]
  simp only [bind, Except.bind, if_neg (Nat.not_le.mpr hlt), hget, returns, Option.elim_some,
    if_neg (Nat.not_le.mpr hroom)]
  split_ifs <;> rfl

/-- The loop adds the blocks of its words, in their order, exactly when it has them
all and they fit. -/
theorem getLoop_ends (hw : ix.Works V) {header : Buf} : ∀ {fuel i : Nat} {m : Key → Nat} {g : Getting ι},
    V.Rep g.store.index m → Complete m g.store.dataFile →
    Ends (Misfit
        (g.store.binlog.length + fuel * (12 + MAX_KEY_SIZE) < FILE_LIMIT ∧
          ∃ ws, wordsFrom header fuel i = some ws ∧ ∀ w ∈ ws, w.length < MAX_KEY_SIZE)
        (g.store.binlog.length + fuel * (12 + MAX_KEY_SIZE) < FILE_LIMIT ∧
          ∃ ws, wordsFrom header fuel i = some ws ∧ Fitting m g.store.dataFile now rSign g.total ws))
      (fun g' => ∃ ws, wordsFrom header fuel i = some ws ∧ (∀ w ∈ ws, w.length < MAX_KEY_SIZE) ∧
        Got V (ws.foldl (forget g.store.dataFile now) m) (ws.flatMap (valueBlock m g.store.dataFile now rSign))
          ws.length g g')
      (getLoop ix now rSign header fuel i g) := by
  intro fuel
  induction fuel with
  | zero =>
      intro i m g hr hc
      exact ⟨fun ⟨_, ws, hws, _⟩ => (by cases hws), fun ⟨_, ws, hws, _⟩ => (by cases hws)⟩
  | succ fuel ih =>
      intro i m g hr hc
      cases hs : Buf.span (fun b => b = 32 || b = 0) (MAX_BODY_SIZE - i) header i with
      | none =>
          rw [getLoop, wordLen, hs]
          have hno : ∀ ws, wordsFrom header (fuel + 1) i ≠ some ws := fun ws hws => by
            rw [wordsFrom, hs] at hws
            cases hws
          exact ⟨fun ⟨_, ws, hws, _⟩ => hno ws hws, fun ⟨_, ws, hws, _⟩ => absurd hws (hno ws)⟩
      | some n =>
          have h0 := (notMem_word hs).1
          have hroom : g.store.binlog.length + (fuel + 1) * (12 + MAX_KEY_SIZE) < FILE_LIMIT →
              g.store.binlog.length + (12 + MAX_KEY_SIZE) + fuel * (12 + MAX_KEY_SIZE) < FILE_LIMIT := fun hlog => by
            rw [Nat.add_mul] at hlog
            omega
          rcases Nat.lt_or_ge n MAX_KEY_SIZE with hlt | hge
          · rcases Nat.lt_or_ge g.total VALUE_BUF_SIZE with hspace | hfull
            · rw [getLoop_succ hs hlt (hw.get_word hr h0) hspace]
              refine Ends.bind (Ends.excuse (getWord_ends hw hr (hc.word _) (by rwa [Buf.length_read]))
                fun e he => he.imp ?_ ?_) fun g' hgot => ?_
              · rintro ⟨hlog, -⟩
                have hlog' := hroom hlog
                omega
              · rintro ⟨hlog, ws, hws, hfit⟩
                obtain ⟨ws', rfl⟩ := exists_of_wordsFrom_succ hs hws
                have hlog' := hroom hlog
                have hfit' := (fitting_cons.mp hfit).2.total
                exact ⟨by omega, by omega⟩
              · rw [wordsFrom_succ hs]
                split_ifs with hend
                · refine ⟨_, rfl, List.forall_mem_singleton.mpr (by rwa [Buf.length_read]), ?_⟩
                  simpa using hgot
                · refine Ends.imp (Ends.excuse (ih hgot.rep ?_) fun e he => he.imp ?_ ?_) ?_
                  · rw [hgot.data]
                    exact hc.forget
                  · rintro ⟨hlog, ws, hws, hshort⟩
                    obtain ⟨ws', hws', rfl⟩ := Option.map_eq_some_iff.mp hws
                    have hlog' := hroom hlog
                    have hgrown := hgot.log
                    exact ⟨by omega, ws', hws', (List.forall_mem_cons.mp hshort).2⟩
                  · rintro ⟨hlog, ws, hws, hfit⟩
                    obtain ⟨ws', hws', rfl⟩ := Option.map_eq_some_iff.mp hws
                    rw [hgot.data, hgot.total]
                    have hlog' := hroom hlog
                    have hgrown := hgot.log
                    exact ⟨by omega, ws', hws', (fitting_cons.mp hfit).2⟩
                  · rintro g'' ⟨ws, hws, hshort, hrest⟩
                    rw [hgot.data, valueBlock_forget] at hrest
                    refine ⟨_, by rw [hws]; rfl, List.forall_mem_cons.mpr ⟨by rwa [Buf.length_read], hshort⟩, ?_⟩
                    rw [List.foldl_cons, List.flatMap_cons, List.length_cons, Nat.add_comm]
                    exact hgot.trans hrest
            · rw [getLoop, wordLen, hs]
              simp only [bind, Except.bind, if_neg (Nat.not_le.mpr hlt), hw.get_word hr h0, returns,
                Option.elim_some, if_pos hfull]
              refine ⟨fun ⟨_, ws, _, hfit⟩ => ?_, fun _ => rfl⟩
              have hle := hfit.total
              omega
          · rw [getLoop, wordLen, hs]
            simp only [bind, Except.bind, if_pos hge]
            have hlong : ∀ ws, wordsFrom header (fuel + 1) i = some ws → ¬∀ w ∈ ws, w.length < MAX_KEY_SIZE := by
              intro ws hws hshort
              obtain ⟨ws', rfl⟩ := exists_of_wordsFrom_succ hs hws
              have hlt := (List.forall_mem_cons.mp hshort).1
              rw [Buf.length_read] at hlt
              omega
            exact ⟨fun ⟨_, ws, hws, hfit⟩ => hlong ws hws hfit.1, fun ⟨_, ws, hws, hshort⟩ => absurd hshort (hlong ws hws)⟩

/-- What the loop has got is the answer, if `END` fits. -/
theorem cmdDoGet_of_loop {header valueBuf : Buf} {st : Store ι} {n : Nat} {excused : Fault → Prop}
    {Q : Getting ι → List UInt8 → Prop} (hs : Buf.span (fun b => b = 32 || b = 0) MAX_BODY_SIZE header 0 = some n)
    (hloop : Ends excused
      (fun g => ∃ text, g.total = text.length ∧ g.valueBuf.read 0 g.total = text ∧ Q g text)
      (getLoop ix now rSign header MAX_BODY_SIZE (n + 1) ⟨st, valueBuf, 0⟩))
    (hfull : ∀ g text, Q g text → VALUE_BUF_SIZE < text.length + 5 → excused (.overrun .gValueBuf)) :
    Ends excused
      (fun r => ∃ g text, Q g text ∧ text.length + 5 ≤ VALUE_BUF_SIZE ∧ r.1 = [text ++ ascii "END\r\n"] ∧
        r.2.1 = g.store)
      (cmdDoGet ix now rSign header st valueBuf) := by
  rw [cmdDoGet, wordLen, Nat.sub_zero, hs]
  refine Ends.bind (Q := (· = n)) rfl ?_
  rintro _ rfl
  refine Ends.bind hloop ?_
  rintro g ⟨text, htotal, htext, hq⟩
  rcases Nat.lt_or_ge VALUE_BUF_SIZE (g.total + 5) with hover | hroom
  · rw [if_pos hover, ends_throw]
    exact hfull g text hq (htotal ▸ hover)
  · rw [if_neg (Nat.not_lt.mpr hroom), ends_pure]
    refine ⟨g, text, hq, htotal ▸ hroom, ?_, rfl⟩
    show [Buf.read _ 0 (g.total + (ascii "END\r\n").length)] = _
    rw [Buf.read_write_append, htext]

/-- `get` and `gets` answer the words of the line, exactly when it has them all, the
answer fits the value buffer, and the binlog has room for what has expired. -/
theorem cmdDoGet_fits (hw : ix.Works V) {header : Buf} {st : Store ι} (hr : V.Rep st.index m)
    (hc : Complete m st.dataFile) (valueBuf : Buf) :
    Ends (Misfit
        (st.binlog.length + MAX_BODY_SIZE * (12 + MAX_KEY_SIZE) < FILE_LIMIT ∧
          ∃ ws, getWords header = some ws ∧ ∀ w ∈ ws, w.length < MAX_KEY_SIZE)
        (st.binlog.length + MAX_BODY_SIZE * (12 + MAX_KEY_SIZE) < FILE_LIMIT ∧
          ∃ ws, getWords header = some ws ∧ Fitting m st.dataFile now rSign 0 ws))
      (fun r => ∃ ws, getWords header = some ws ∧ Fitting m st.dataFile now rSign 0 ws ∧
        r.1 = [getReply m st.dataFile now rSign ws] ∧ V.Rep r.2.1.index (ws.foldl (forget st.dataFile now) m) ∧
        r.2.1.dataFile = st.dataFile)
      (cmdDoGet ix now rSign header st valueBuf) := by
  unfold getWords
  cases hs : Buf.span (fun b => b = 32 || b = 0) MAX_BODY_SIZE header 0 with
  | none =>
      rw [cmdDoGet, wordLen, Nat.sub_zero, hs]
      exact ⟨fun ⟨_, ws, hws, _⟩ => (by cases hws), fun ⟨_, ws, hws, _⟩ => (by cases hws)⟩
  | some n =>
      simp only [Option.bind_some]
      refine Ends.imp (cmdDoGet_of_loop (Q := fun g text => ∃ ws, wordsFrom header MAX_BODY_SIZE (n + 1) = some ws ∧
        (∀ w ∈ ws, w.length < MAX_KEY_SIZE) ∧ text = ws.flatMap (valueBlock m st.dataFile now rSign) ∧
          Got V (ws.foldl (forget st.dataFile now) m) text ws.length ⟨st, valueBuf, 0⟩ g) hs
        (Ends.imp (getLoop_ends hw hr hc) ?_) ?_) ?_
      · rintro g ⟨ws, hws, hshort, hgot⟩
        refine ⟨_, ?_, ?_, ws, hws, hshort, rfl, hgot⟩
        · rw [hgot.total, Nat.zero_add]
        · rw [hgot.text]
          rfl
      · rintro g text ⟨ws, hws, -, rfl, -⟩ hover
        refine ⟨?_, fun _ => rfl⟩
        rintro ⟨-, ws', hws', -, hfit⟩
        obtain rfl := Option.some.inj (hws.symm.trans hws')
        omega
      · rintro r ⟨g, text, ⟨ws, hws, hshort, rfl, hgot⟩, hfit, hchunks, hst⟩
        refine ⟨ws, hws, ⟨hshort, by omega⟩, hchunks, ?_, ?_⟩
        · rw [hst]
          exact hgot.rep
        · rw [hst]
          exact hgot.data

theorem cmdDoGet_ends (hw : ix.Works V) {header : Buf} {st : Store ι} (hr : V.Rep st.index m)
    (hc : Complete m st.dataFile) (valueBuf : Buf) :
    Ends (fun _ => ¬(st.binlog.length + MAX_BODY_SIZE * (12 + MAX_KEY_SIZE) < FILE_LIMIT ∧
        ∃ ws, getWords header = some ws ∧ Fitting m st.dataFile now rSign 0 ws))
      (fun r => ∃ ws, getWords header = some ws ∧ Fitting m st.dataFile now rSign 0 ws ∧
        r.1 = [getReply m st.dataFile now rSign ws] ∧ V.Rep r.2.1.index (ws.foldl (forget st.dataFile now) m) ∧
        r.2.1.dataFile = st.dataFile)
      (cmdDoGet ix now rSign header st valueBuf) :=
  Ends.excuse (cmdDoGet_fits hw hr hc valueBuf) fun _ he => he.1

/-- A line of one word ends behind it. -/
theorem span_of_wordsFrom {header : Buf} {fuel i : Nat} {w : List UInt8} (h : wordsFrom header (fuel + 1) i = some [w]) :
    ∃ n, Buf.span (fun b => b = 32 || b = 0) (MAX_BODY_SIZE - i) header i = some n ∧ w = header.read i n ∧
      header (i + n) = 0 := by
  cases hs : Buf.span (fun b => b = 32 || b = 0) (MAX_BODY_SIZE - i) header i with
  | none =>
      rw [wordsFrom, hs] at h
      cases h
  | some n =>
      rw [wordsFrom_succ hs] at h
      split_ifs at h with hend
      · exact ⟨n, rfl, (List.singleton_inj.mp (Option.some.inj h)).symm, hend⟩
      · obtain ⟨ws, hws, he⟩ := Option.map_eq_some_iff.mp h
        obtain rfl : ws = [] := (List.cons.inj he).2
        cases fuel with
        | zero => cases hws
        | succ fuel =>
            obtain ⟨n', hs', hws⟩ := Option.bind_eq_some_iff.mp hws
            split_ifs at hws
            · cases hws
            · obtain ⟨ws', -, he'⟩ := Option.map_eq_some_iff.mp hws
              cases he'

/-- The same for a line of one word, whatever the other keys lead to. -/
theorem cmdDoGet_word_ends (hw : ix.Works V) {header : Buf} {st : Store ι} (hr : V.Rep st.index m) {w : List UInt8}
    (hwords : getWords header = some [w]) (hc : CompleteAt m st.dataFile w) (valueBuf : Buf) :
    Ends (fun _ => ¬(st.binlog.length + MAX_BODY_SIZE * (12 + MAX_KEY_SIZE) < FILE_LIMIT ∧
        Fitting m st.dataFile now rSign 0 [w]))
      (fun r => r.1 = [getReply m st.dataFile now rSign [w]] ∧ V.Rep r.2.1.index (forget st.dataFile now m w) ∧
        r.2.1.dataFile = st.dataFile)
      (cmdDoGet ix now rSign header st valueBuf) := by
  obtain ⟨fuel, hfuel⟩ : ∃ fuel, MAX_BODY_SIZE = fuel + 1 := ⟨MAX_BODY_SIZE - 1, by decide⟩
  obtain ⟨n, hs, hwords⟩ := Option.bind_eq_some_iff.mp hwords
  obtain ⟨n', hs', rfl, hend⟩ := span_of_wordsFrom (hfuel ▸ hwords)
  have hlen : (header.read (n + 1) n').length = n' := Buf.length_read _ _ _
  rcases Nat.lt_or_ge n' MAX_KEY_SIZE with hlt | hge
  · have hturn := @getLoop_succ _ ix now rSign ⟨st, valueBuf, 0⟩ header fuel (n + 1) n' _ hs' hlt
      (hw.get_word hr (notMem_word hs').1) (show 0 < VALUE_BUF_SIZE by decide)
    rw [← hfuel] at hturn
    simp only [hend, if_true, bind_pure] at hturn
    have hone := @getWord_ends _ ix V m now rSign ⟨st, valueBuf, 0⟩ hw hr _ hc (by rwa [hlen])
    rw [← hturn] at hone
    simp only at hone
    refine Ends.imp (cmdDoGet_of_loop (Q := fun g text => text = valueBlock m st.dataFile now rSign (header.read (n + 1) n') ∧
      Got V (forget st.dataFile now m (header.read (n + 1) n')) text 1 ⟨st, valueBuf, 0⟩ g) hs
      (Ends.imp (Ends.excuse hone fun e he hf => he.1 ⟨?_, ?_⟩) fun g hgot => ?_) ?_) ?_
    · have hlog := hf.1
      have hle : 1 * (12 + MAX_KEY_SIZE) ≤ MAX_BODY_SIZE * (12 + MAX_KEY_SIZE) := Nat.mul_le_mul_right _ (by decide)
      omega
    · have hfit := hf.2.2
      simp only [List.flatMap_singleton] at hfit
      omega
    · refine ⟨_, ?_, ?_, rfl, hgot⟩
      · rw [hgot.total]
        exact Nat.zero_add _
      · rw [hgot.text]
        rfl
    · rintro g text ⟨rfl, -⟩ hover ⟨-, -, hfit⟩
      simp only [List.flatMap_singleton] at hfit
      omega
    · rintro r ⟨g, text, ⟨rfl, hgot⟩, -, hchunks, hst⟩
      refine ⟨?_, ?_, ?_⟩
      · rw [hchunks, getReply, List.flatMap_singleton]
      · rw [hst]
        exact hgot.rep
      · rw [hst]
        exact hgot.data
  · have hover : getLoop ix now rSign header MAX_BODY_SIZE (n + 1) ⟨st, valueBuf, 0⟩ = .error (.overrun .key) := by
      conv_lhs => rw [hfuel, getLoop, wordLen, hs']
      simp only [bind, Except.bind, if_pos hge]
      rfl
    refine Ends.imp (cmdDoGet_of_loop (Q := fun _ _ => False) hs ?_ fun g text h => h.elim) ?_
    · rw [hover]
      intro hf
      have := hf.2.1 _ (List.mem_singleton_self _)
      omega
    · rintro r ⟨g, text, h, -⟩
      exact h.elim

end Loop

end Tstdb
