/-
# `Tstdb.Server.Limits` — how much the reply buffers hold

`g_value_buf` takes all values of one `get`, and `g_prefix_buf` all keys of one range
command.  Neither is checked while it is filled: what fits is decided by the store and
the line, and both statements say how.

* A `get` stays inside `g_value_buf` exactly if its whole answer does
  (`get_fits_value_buffer`); one key of full size named twice is too much.
* The keys of a range command stay inside `g_prefix_buf` exactly if their text does
  (`range_fits_prefix_buffer`); 10000 keys of full size do not.  `key_buf` is never
  overrun.
-/
import Mathlib
import Tstdb.Lib.Fuel
import Tstdb.Lib.CText
import Tstdb.Lib.Bytes
import Tstdb.Lib.Outcome
import Tstdb.Lib.TernaryTree
import Tstdb.Lib.TernaryWords
import Tstdb.Tst.Arena
import Tstdb.Tst.Shape
import Tstdb.Tst.Put
import Tstdb.Tst.Runs
import Tstdb.Tst.Calls
import Tstdb.Tst.Scan
import Tstdb.Tst.Walks
import Tstdb.Tst.Ranges
import Tstdb.Server.Index
import Tstdb.Server.Store
import Tstdb.Server.Sections
import Tstdb.Server.View
import Tstdb.Server.Boot
import Tstdb.Server.Pool
import Tstdb.Server.Commands
import Tstdb.Server.Values
import Tstdb.Server.Replies
import Tstdb.Server.Frame
import Tstdb.Server.History
import Tstdb.Server.Expiry
import Tstdb.Server.Absent

namespace Tstdb

open Fuel CText Bytes Outcome

/-! ## `g_value_buf` -/

section Values

variable {ι : Type} {ix : ScanIndex ι} {V : View ix.toIndex} {m : Key → Nat} {now : Int} {rSign : Bool} {header : Buf}
  {st : Store ι} {ws : List (List UInt8)}

/-- The size of the answer of a `get` for the words. -/
def answerSize (m : Key → Nat) (data : List UInt8) (now : Int) (rSign : Bool) (ws : List (List UInt8)) : Nat :=
  (ws.map fun w => (valueBlock m data now rSign w).length).sum + (ascii "END\r\n").length

theorem fitting_iff {data : List UInt8} (hshort : ∀ w ∈ ws, w.length < MAX_KEY_SIZE) :
    Fitting m data now rSign 0 ws ↔ answerSize m data now rSign ws ≤ VALUE_BUF_SIZE := by
  have hsum : (ws.flatMap (valueBlock m data now rSign)).length
      = (ws.map fun w => (valueBlock m data now rSign w).length).sum := List.length_flatMap
  unfold Fitting answerSize
  rw [hsum, Nat.zero_add]
  exact and_iff_right hshort

/-- An answer that is too long ends the command. -/
theorem cmdDoGet_overruns (hw : ix.Works V) (hr : V.Rep st.index m) (hc : Complete m st.dataFile) (hroom : st.Roomy)
    (hwords : getWords header = some ws) (hshort : ∀ w ∈ ws, w.length < MAX_KEY_SIZE) (valueBuf : Buf)
    (hbig : VALUE_BUF_SIZE < answerSize m st.dataFile now rSign ws) :
    cmdDoGet ix now rSign header st valueBuf = .error (.overrun .gValueBuf) := by
  have hends : Ends _ _ (cmdDoGet ix now rSign header st valueBuf) := cmdDoGet_fits hw hr hc valueBuf
  cases he : cmdDoGet ix now rSign header st valueBuf with
  | ok r =>
      rw [he] at hends
      obtain ⟨ws', hws', hfit, -⟩ := hends
      obtain rfl := Option.some.inj (hwords.symm.trans hws')
      exact absurd ((fitting_iff hshort).mp hfit) (Nat.not_le.mpr hbig)
  | error e =>
      rw [he] at hends
      exact congrArg Except.error (hends.2 ⟨hroom.log, ws, hwords, hshort⟩)

end Values

/-- A `get` of keys that fit `key` writes past `g_value_buf` exactly if its answer is
longer than that. -/
theorem get_fits_value_buffer {ι : Type} {ix : ScanIndex ι} {V : View ix.toIndex} (hw : ix.Works V) {m : Key → Nat}
    {st : Store ι} (hr : V.Rep st.index m) (hc : Complete m st.dataFile) (hroom : st.Roomy) {header : Buf}
    {ws : List (List UInt8)} (hwords : getWords header = some ws) (hshort : ∀ w ∈ ws, w.length < MAX_KEY_SIZE)
    (now : Int) (rSign : Bool) (valueBuf : Buf) :
    cmdDoGet ix now rSign header st valueBuf ≠ .error (.overrun .gValueBuf) ↔
      answerSize m st.dataFile now rSign ws ≤ VALUE_BUF_SIZE := by
  constructor
  · intro hno
    by_contra hbig
    exact hno (cmdDoGet_overruns hw hr hc hroom hwords hshort valueBuf (Nat.not_le.mp hbig))
  · intro hfit he
    have hends : Ends _ _ (cmdDoGet ix now rSign header st valueBuf) := cmdDoGet_fits hw hr hc valueBuf
    rw [he] at hends
    exact hends.1 ⟨hroom.log, ws, hwords, (fitting_iff hshort).mpr hfit⟩

/-- A store in which `k` has the body. -/
def Store.holding (body : Body) : Store KeyMap :=
  ⟨KeyMap.empty.put [107] 6, dataFileHead ++ recordBytes body.bytes.length 0 0 body.bytes, []⟩

section Holding

variable {body : Body}

theorem Store.holding_record : recordAt (Store.holding body).dataFile 6 = some ⟨0, 0, body.bytes⟩ := by
  have hlt : VALUE_LIMIT < 2147483648 := by decide
  exact recordAt_recordBytes dataFileHead 0 0 (lt_of_le_of_lt body.framed hlt)

theorem Store.holding_offsets {key : Key} (h : (Store.holding body).index.offsets key ≠ 0) :
    key.bytes = [107] ∧ (Store.holding body).index.offsets key = 6 := by
  rcases Classical.em (key.bytes = [107]) with hk | hk
  · refine ⟨hk, ?_⟩
    rw [KeyMap.offsets, hk]
    rfl
  · refine absurd ?_ h
    rw [KeyMap.offsets, Store.holding, KeyMap.get_put_other _ hk]
    simp [KeyMap.get, KeyMap.empty]

theorem Store.holding_complete : Complete (Store.holding body).index.offsets (Store.holding body).dataFile := by
  intro key hne
  rw [(holding_offsets hne).2, holding_record]
  rfl

theorem Store.holding_roomy : (Store.holding body).Roomy := by
  refine ⟨?_, show 0 + MAX_BODY_SIZE * (12 + MAX_KEY_SIZE) < FILE_LIMIT by decide⟩
  have hb := body.framed
  have hlimit : 6 + (12 + VALUE_LIMIT) + 12 + MAX_BODY_SIZE < FILE_LIMIT := by decide
  have hlen : (Store.holding body).dataFile.length = 6 + (12 + body.bytes.length) := by
    simp [Store.holding, recordBytes, dataFileHead, ascii]
    omega
  omega

theorem Store.holding_block (now : Int) : valueBlock (Store.holding body).index.offsets (Store.holding body).dataFile now
    false [107] = valueText false [107] 6 ⟨0, 0, body.bytes⟩ := by
  have hoff : offsetOf (Store.holding body).index.offsets [107] = 6 := rfl
  rw [valueBlock, recordOf, hoff, if_neg (by decide), holding_record]
  exact if_neg (by simp [Record.expired])

end Holding

theorem getWords_k : getWords (Scratch.ofLine (ascii "get k")).headBuf = some [[107]] := by decide +kernel

theorem get_fits_value_buffer_one :
    cmdDoGet ScanIndex.map 0 false (Scratch.ofLine (ascii "get k")).headBuf (Store.holding .zero) (fun _ => 0)
      ≠ .error (.overrun .gValueBuf) := by
  refine (get_fits_value_buffer ScanIndex.map_works (m := (Store.holding .zero).index.offsets) (fun _ => rfl)
    Store.holding_complete Store.holding_roomy getWords_k (by decide) 0 false (fun _ => 0)).mpr ?_
  decide +kernel

/-- A body as long as they get. -/
def Body.full : Body := ⟨List.replicate VALUE_LIMIT 0, List.length_replicate.le⟩

/-- A body of that length asked for twice. -/
theorem get_overruns_value_buffer : ¬ ∀ (st : Store KeyMap) (header : Buf) (ws : List (List UInt8)) (now : Int)
    (rSign : Bool) (valueBuf : Buf), Complete st.index.offsets st.dataFile → st.Roomy →
      (∀ key r, st.index.offsets key ≠ 0 → recordAt st.dataFile (st.index.offsets key) = some r →
        r.body.length ≤ VALUE_LIMIT) →
      getWords header = some ws → (∀ w ∈ ws, w.length < MAX_KEY_SIZE) →
      cmdDoGet ScanIndex.map now rSign header st valueBuf ≠ .error (.overrun .gValueBuf) := by
  intro H
  have hwords : getWords (Scratch.ofLine (ascii "get k k")).headBuf = some [[107], [107]] := by decide +kernel
  have hbodies : ∀ key r, (Store.holding .full).index.offsets key ≠ 0 →
      recordAt (Store.holding .full).dataFile ((Store.holding .full).index.offsets key) = some r →
      r.body.length ≤ VALUE_LIMIT := by
    intro key r hne hr
    rw [(Store.holding_offsets hne).2, Store.holding_record] at hr
    obtain rfl := Option.some.inj hr
    exact Body.full.framed
  refine H _ _ _ 0 false (fun _ => 0) Store.holding_complete Store.holding_roomy hbodies hwords (by decide)
    (cmdDoGet_overruns ScanIndex.map_works (m := (Store.holding .full).index.offsets) (fun _ => rfl)
      Store.holding_complete Store.holding_roomy hwords (by decide) (fun _ => 0) ?_)
  have hlen : Body.full.bytes.length = VALUE_LIMIT := List.length_replicate
  have hlimits : VALUE_BUF_SIZE = VALUE_LIMIT + VALUE_LIMIT := by decide
  have hend : (ascii "END\r\n").length = 5 := by decide
  rw [answerSize, List.map_cons, List.map_singleton, List.sum_cons, List.sum_singleton, Store.holding_block, valueText]
  simp only [List.length_append, hlen, hend]
  omega

/-! ## `g_prefix_buf` -/

/-- The size of the keys as a range command puts them together. -/
def keysSize (ks : List (List UInt8)) : Nat := (ks.map fun k => k.length + 2).sum

theorem length_resultText (ks : List (List UInt8)) : (resultText ks).length = keysSize ks := by
  rw [resultText, List.length_flatMap, keysSize]
  refine congrArg List.sum (List.map_congr_left fun k _ => ?_)
  rw [List.length_append]
  rfl

def ListCall.bound : ListCall → List UInt8
  | .below pre _ _ => pre
  | .less key _ | .greater key _ => key

/-- The keys that a call puts out: those it lists, with `w` where `DESC` comes to the
prefix itself. -/
def ListCall.output (ks : List (List UInt8)) (w : List UInt8) (call : ListCall) : List (List UInt8) :=
  match call with
  | .below pre limit .desc =>
      ((ks.filter fun k => pre <+: k ∧ k ≠ pre).reverse ++ if pre ∈ ks then [w] else []).take limit.toNat
  | call => call.listed ks

section Scans

variable {db : TstDb} {t : Tree}

theorem Scannable.mem_keysIn (h : Scannable db t) (key : Key) :
    key.bytes ∈ keysIn t ↔ t.lookup (letters key.bytes) ≠ 0 := by
  rw [h.listing.mem]
  constructor
  · rintro ⟨key', hk, hne⟩
    obtain rfl := Key.ext hk
    exact hne
  · exact fun hne => ⟨key, rfl, hne⟩

/-- Every range call returns its output. -/
theorem Scannable.output (h : Scannable db t) (call : ListCall) {bound : Key} (hb : call.bound = bound.bytes) :
    ∃ w, w.length < MAX_KEY_SIZE ∧ Settles (fun n => (ScanIndex.arena n).list db call)
      (call.output (keysIn t) w, ((call.output (keysIn t) w).length : Int)) := by
  obtain ⟨hless, hgreater, hbelow⟩ := h.lists bound call.limit
  cases call with
  | less key limit =>
      obtain rfl : key = bound.bytes := hb
      exact ⟨[], by decide, hless⟩
  | greater key limit =>
      obtain rfl : key = bound.bytes := hb
      exact ⟨[], by decide, hgreater⟩
  | below pre limit order =>
      obtain rfl : pre = bound.bytes := hb
      cases order with
      | asc => exact ⟨[], by decide, hbelow .asc (Or.inl rfl)⟩
      | desc =>
          rcases Classical.em (t.lookup (letters bound.bytes) = 0) with hz | hne
          · have hno : bound.bytes ∉ keysIn t := fun hin => (h.mem_keysIn bound).mp hin hz
            have hsame : ((keysIn t).filter fun k => bound.bytes <+: k ∧ k ≠ bound.bytes)
                = (keysIn t).filter fun k => bound.bytes <+: k :=
              List.filter_congr fun k hk => by simp [ne_of_mem_of_not_mem hk hno]
            refine ⟨[], by decide, ?_⟩
            rw [ListCall.output, hsame, if_neg hno, List.append_nil]
            exact hbelow .desc (Or.inr hz)
          · have hlookup := TTree.lookup_of_under (t := t) (k := letters bound.bytes)
            cases hu : t.under (letters bound.bytes) with
            | none => exact absurd (hlookup.trans (by rw [hu]; rfl)) hne
            | some p =>
                obtain ⟨v, m⟩ := p
                have hv : v ≠ 0 := fun h0 => hne (hlookup.trans (by rw [hu, h0]; rfl))
                obtain ⟨w, hs, hw, -⟩ := h.prefix_found bound limit .desc hu
                refine ⟨w, hw, ?_⟩
                rw [ListCall.output, h.filter_proper bound hu, if_pos ((h.mem_keysIn bound).mpr hne)]
                simp only [if_neg hv] at hs
                exact hs

/-- The keys are sent unless their text overruns the buffer. -/
theorem sendKeys_overruns_iff {ι : Type} {ix : ScanIndex ι} {st : Store ι} {call : ListCall} {keys : List (List UInt8)}
    {resultSize : Int} (hl : ix.list st.index call = some (keys, resultSize)) :
    sendKeys ix st (some call) = .error (.overrun .gPrefixBuf) ↔ PREFIX_BUF_SIZE ≤ keysSize keys := by
  simp only [sendKeys, hl, returns, Option.elim_some, bind, Except.bind, length_resultText]
  rcases Nat.lt_or_ge (keysSize keys) PREFIX_BUF_SIZE with hlt | hge
  · rw [if_neg (Nat.not_le.mpr hlt)]
    exact iff_of_false (fun hno => by cases hno) (Nat.not_le.mpr hlt)
  · rw [if_pos hge]
    exact iff_of_true rfl hge

end Scans

/-- A range command on a store whose keys fit `key` stays inside `key_buf`, and it
writes past `g_prefix_buf` exactly if what it puts out is longer than that. -/
theorem range_fits_prefix_buffer {st : Store TstDb} {t : Tree} {F : List Nat} (h : Arena st.index t F) (hk : KeysFit t)
    (m : Key → Nat) (hm : ∀ key : Key, Settles (fun n => tstGet n st.index key.bytes) (m key)) (call : ListCall)
    (bound : Key) (hb : call.bound = bound.bytes) :
    ∃ ks w out, Listing m ks ∧ w.length < MAX_KEY_SIZE ∧
      Settles (fun n => (ScanIndex.arena n).list st.index call) out ∧
      ∀ n, (ScanIndex.arena n).list st.index call = some out →
        (sendKeys (ScanIndex.arena n) st (some call) ≠ .error (.overrun .gPrefixBuf) ↔
          keysSize (call.output ks w) + 1 ≤ PREFIX_BUF_SIZE) := by
  have hs := h.scannable hk
  obtain rfl : m = fun key => t.lookup (letters key.bytes) := funext fun key => (h.get_iff key).mp (hm key)
  obtain ⟨w, hw, hout⟩ := hs.output call hb
  refine ⟨keysIn t, w, _, hs.listing, hw, hout, fun n hn => ?_⟩
  rw [Ne, sendKeys_overruns_iff hn, Nat.not_le]
  exact Iff.rfl

theorem range_fits_prefix_buffer_nested : ∃ (st : Store TstDb) (n : Nat),
    sendKeys (ScanIndex.arena n) st (some (.less [98] 10)) ≠ .error (.overrun .gPrefixBuf) := by
  obtain ⟨db, F, h⟩ := arena_nested
  have hfits : Fits 0 nestedTree := by decide
  have hlisting : Listing (fun key => nestedTree.lookup (letters key.bytes)) [[97], [97, 98]] := by
    have hl := (h.scannable hfits.keysFit).listing
    rwa [show keysIn nestedTree = [[97], [97, 98]] by decide] at hl
  have hempty : Arena (Store.mk db [] []).index nestedTree F := h
  obtain ⟨ks, w, out, hks, -, hout, hiff⟩ := range_fits_prefix_buffer hempty hfits.keysFit _
    (fun key => (h.get_iff key).mpr rfl) (.less [98] 10) (.letter 98 (by decide)) rfl
  obtain ⟨n, hn⟩ := hout.answers
  refine ⟨_, n, (hiff n hn).mpr ?_⟩
  rw [hks.unique hlisting]
  show keysSize ((ListCall.less [98] 10).listed [[97], [97, 98]]) + 1 ≤ PREFIX_BUF_SIZE
  decide

/-! ### Keys of full size -/

/-- One of 10000 keys of 255 bytes. -/
def wideBytes (i j : Nat) : List UInt8 :=
  List.replicate 55 112 ++ ((List.replicate i 98 ++ List.replicate (100 - i) 97) ++
    (List.replicate j 98 ++ List.replicate (100 - j) 97))

theorem length_wideBytes {i j : Nat} (hi : i < 100) (hj : j < 100) : (wideBytes i j).length = 255 := by
  simp only [wideBytes, List.length_append, List.length_replicate]
  omega

theorem wideBytes_injective {i j i' j' : Nat} (hi : i < 100) (hi' : i' < 100)
    (h : wideBytes i j = wideBytes i' j') : i = i' ∧ j = j' := by
  have hcount : ∀ {n n' : Nat}, List.replicate n (98 : UInt8) ++ List.replicate (100 - n) 97 =
      List.replicate n' 98 ++ List.replicate (100 - n') 97 → n = n' := fun {n n'} e => by
    have hc := congrArg (List.count 98) e
    simpa [List.count_append, List.count_replicate] using hc
  obtain ⟨h₁, h₂⟩ := List.append_inj (List.append_cancel_left h)
    (by simp only [List.length_append, List.length_replicate]; omega)
  exact ⟨hcount h₁, hcount h₂⟩

def wideKey (i j : Fin 100) : WireKey where
  bytes := wideBytes i j
  ne := fun h => by simpa [h] using length_wideBytes i.2 j.2
  nul := by simp [wideBytes, List.mem_replicate]
  short := by
    rw [length_wideBytes i.2 j.2]
    decide

def wideKeys : List WireKey := (List.finRange 100 ×ˢ List.finRange 100).map fun p => wideKey p.1 p.2

theorem length_wideKeys : wideKeys.length = 10000 := by
  rw [wideKeys, List.length_map, List.length_product, List.length_finRange]

theorem nodup_wideKeys : (wideKeys.map fun k => k.bytes).Nodup := by
  rw [wideKeys, List.map_map]
  refine List.Nodup.map ?_ ((List.nodup_finRange 100).product (List.nodup_finRange 100))
  rintro ⟨i, j⟩ ⟨i', j'⟩ h
  obtain ⟨h₁, h₂⟩ := wideBytes_injective i.2 i'.2 h
  exact Prod.ext (Fin.ext h₁) (Fin.ext h₂)

/-- There is an arena for any keys that leave room. -/
theorem exists_arena (ks : List WireKey) : ks.length * MAX_KEY_SIZE < UINT32 →
    ∃ db t F, Arena db t F ∧ Fits 0 t ∧ db.size ≤ ks.length * MAX_KEY_SIZE ∧
      ∀ key : Key, t.lookup (letters key.bytes) ≠ 0 ↔ ∃ k ∈ ks, k.toKey = key := by
  induction ks with
  | nil =>
      intro _
      exact ⟨_, _, _, Arena.create (fun _ => TstNode.zero) rfl, trivial, Nat.zero_le _, fun key => by simp⟩
  | cons k ks ih =>
      intro hroom
      rw [List.length_cons, Nat.add_mul, Nat.one_mul] at hroom
      obtain ⟨db, t, F, ha, hfit, hsize, hmem⟩ := ih (by omega)
      have hk := k.short
      obtain ⟨db', -, ha', hsize', -⟩ := ha.put k.ne 1 (Arena.put_room t F (by omega))
      refine ⟨db', _, _, ha', hfit.put ?_ (zero_notMem_letters k.toKey), ?_, fun key => ?_⟩
      · rwa [length_letters, Nat.zero_add]
      · have hle := TTree.missing_le t (letters k.bytes)
        rw [length_letters] at hle
        rw [List.length_cons, Nat.add_mul, Nat.one_mul, hsize']
        omega
      · rw [lookup_put_update t _ (fun _ => rfl) k.toKey 1 (by simp)]
        rcases Classical.em (key = k.toKey) with rfl | hne
        · rw [Function.update_self]
          exact iff_of_true one_ne_zero ⟨k, List.mem_cons_self, rfl⟩
        · rw [Function.update_of_ne hne, hmem]
          refine ⟨fun ⟨k', hk', e⟩ => ⟨k', List.mem_cons_of_mem _ hk', e⟩, fun ⟨k', hk', e⟩ => ?_⟩
          rcases List.mem_cons.mp hk' with rfl | hin
          · exact absurd e.symm hne
          · exact ⟨k', hin, e⟩

theorem keysSize_of_length {ks : List (List UInt8)} {n : Nat} (h : ∀ k ∈ ks, k.length = n) :
    keysSize ks = ks.length * (n + 2) := by
  have hall : ∀ x ∈ ks.map fun k => k.length + 2, x = n + 2 := fun x hx => by
    obtain ⟨k, hk, rfl⟩ := List.mem_map.mp hx
    rw [h k hk]
  rw [keysSize, List.sum_eq_card_nsmul _ _ hall, List.length_map, smul_eq_mul]

/-- `prefix p 10000 asc` on those keys. -/
theorem range_overruns_prefix_buffer : ¬ ∀ (st : Store TstDb) (t : Tree) (F : List Nat), Arena st.index t F → KeysFit t →
    ∀ (call : ListCall) (bound : Key), call.bound = bound.bytes → (∃ limit, call.limit = capLimit limit) →
      ∀ n r, (ScanIndex.arena n).list st.index call = some r →
        sendKeys (ScanIndex.arena n) st (some call) ≠ .error (.overrun .gPrefixBuf) := by
  intro H
  obtain ⟨db, t, F, h, hfit, -, hmem⟩ := exists_arena wideKeys (by rw [length_wideKeys]; decide)
  have hs := h.scannable hfit.keysFit
  have hkeys : ∀ k, k ∈ keysIn t ↔ k ∈ wideKeys.map fun k => k.bytes := fun k => by
    rw [hs.listing.mem, List.mem_map]
    constructor
    · rintro ⟨key, rfl, hne⟩
      obtain ⟨k, hk, rfl⟩ := (hmem key).mp hne
      exact ⟨k, hk, rfl⟩
    · rintro ⟨k, hk, rfl⟩
      exact ⟨k.toKey, rfl, (hmem k.toKey).mpr ⟨k, hk, rfl⟩⟩
  have hwide : ∀ k ∈ keysIn t, k.length = 255 ∧ [112] <+: k := fun k hk => by
    obtain ⟨w, hw, rfl⟩ := List.mem_map.mp ((hkeys k).mp hk)
    obtain ⟨⟨i, j⟩, -, rfl⟩ := List.mem_map.mp hw
    exact ⟨length_wideBytes i.2 j.2, List.replicate 54 112 ++ _, rfl⟩
  have hlen : 10000 ≤ (keysIn t).length := by
    have hsub := List.subperm_of_subset nodup_wideKeys fun k hk => (hkeys k).mpr hk
    simpa [length_wideKeys] using hsub.length_le
  obtain ⟨w, -, hout⟩ := hs.output (.below [112] 10000 .asc)
    (show (ListCall.below [112] 10000 .asc).bound = (Key.letter 112 (by decide)).bytes from rfl)
  have hlisted : (ListCall.below [112] 10000 .asc).output (keysIn t) w = (keysIn t).take 10000 := by
    show ((keysIn t).filter fun k => [112] <+: k).take 10000 = _
    rw [List.filter_eq_self.mpr fun k hk => by simpa using (hwide k hk).2]
  obtain ⟨n, hn⟩ := hout.answers
  refine H ⟨db, [], []⟩ t F h hfit.keysFit _ (.letter 112 (by decide)) rfl ⟨10000, rfl⟩ n _ hn
    ((sendKeys_overruns_iff hn).mpr ?_)
  rw [hlisted, keysSize_of_length fun k hk => (hwide k (List.mem_of_mem_take hk)).1, List.length_take,
    Nat.min_eq_left hlen]
  decide

end Tstdb
