/-
# `Tstdb.Server.Numbers` — bodies that are read as numbers

`incr_or_decr` reads the body of its key into an array of `HEADER_BUF_SIZE` bytes,
whatever `set` or `cas` wrote there.  It stays inside the array exactly where the
record the key leads to has a shorter body (`number_fits_buffer`).  As every line
either declares the length of the body it stores or stores a number of at most eleven
bytes, that is so after every run of requests in which only shorter bodies are
declared; one `set` with a longer body is enough to break it.
-/
import Mathlib
import Tstdb.Lib.CText
import Tstdb.Lib.Bytes
import Tstdb.Lib.Outcome
import Tstdb.Lib.Runs
import Tstdb.Tst.Arena
import Tstdb.Tst.Runs
import Tstdb.Tst.Scan
import Tstdb.Server.Index
import Tstdb.Server.Store
import Tstdb.Server.Sections
import Tstdb.Server.View
import Tstdb.Server.Pool
import Tstdb.Server.Commands
import Tstdb.Server.Values
import Tstdb.Server.Replies
import Tstdb.Server.Frame
import Tstdb.Server.History

namespace Tstdb

open CText Bytes Outcome Runs

/-- `handle_cmd` handles the line in some worker's arrays. -/
def Asks {ι : Type} (ix : ScanIndex ι) (st : Store ι) (line : List UInt8) (st' : Store ι) : Prop :=
  ∃ now s headerLen bodyLen valueBuf answer s' valueBuf', s.line headerLen = line ∧
    handleCmd ix now s headerLen bodyLen ⟨st, valueBuf⟩ = .ok (answer, s', ⟨st', valueBuf'⟩)

/-- The length of the body that the line makes `cmd_do_set` or `cmd_do_cas` store. -/
def storedLen (line : List UInt8) : Option Int :=
  match methodOf line with
  | .set => (setArgs line).map fun (_, _, _, bodyLen) => bodyLen
  | .cas => (casArgs line).map fun (_, _, _, bodyLen, _) => bodyLen
  | _ => none

section Numbers

variable {ι : Type} {ix : ScanIndex ι} {V : View ix.toIndex} {m : Key → Nat} {st st' : Store ι} {line : List UInt8}
  {now : Int} {key : WireKey}

/-! ## One step of a number -/

/-- Every key leads to a record whose body fits `str_number`. -/
def ShortBodies (V : View ix.toIndex) (st : Store ι) : Prop :=
  ∃ m, V.Rep st.index m ∧
    ∀ key, m key ≠ 0 → ∃ r, recordAt st.dataFile (m key) = some r ∧ r.body.length < HEADER_BUF_SIZE

theorem length_recordBytes (bodyLen flag expire : Int) (body : List UInt8) :
    (recordBytes bodyLen flag expire body).length = 12 + body.length := by
  simp only [recordBytes, List.length_append, length_int32LE]

theorem Change.grows {k : WireKey} (h : Change ix.toIndex st k st') : st.dataFile.length ≤ st'.dataFile.length := by
  cases h with
  | stored _ h =>
      rw [h.data, List.length_append]
      exact Nat.le_add_right _ _
  | removed h => rw [h.data]

/-- What a change stores is short if the data file has grown by a short record. -/
theorem ShortBodies.change (hw : ix.Works V) {k : WireKey} (hs : ShortBodies V st) (h : Change ix.toIndex st k st')
    (hgrown : st'.dataFile.length < st.dataFile.length + 12 + HEADER_BUF_SIZE) : ShortBodies V st' := by
  obtain ⟨m, hr, hshort⟩ := hs
  cases h with
  | stored hb h =>
      refine ⟨_, V.put hr h.index, fun key hne => ?_⟩
      rw [h.data] at hgrown ⊢
      rcases Classical.em (key = k.toKey) with rfl | hother
      · rw [Function.update_self, recordAt_recordBytes _ _ _ hb]
        rw [List.length_append, length_recordBytes] at hgrown
        exact ⟨_, rfl, by simp only; omega⟩
      · rw [Function.update_of_ne hother] at hne ⊢
        obtain ⟨r, hrec, hlt⟩ := hshort key hne
        exact ⟨r, recordAt_append _ hrec, hlt⟩
  | removed h =>
      refine ⟨_, V.delete hr (hw.delete k.toKey hr).1 h.index, fun key hne => ?_⟩
      rw [h.data]
      rcases Classical.em (key = k.toKey) with rfl | hother
      · exact absurd (Function.update_self ..) hne
      · rw [Function.update_of_ne hother] at hne ⊢
        exact hshort key hne

theorem ShortBodies.changes (hw : ix.Works V) {named : Key → Prop} (h : Changes ix.toIndex named st st') :
    ShortBodies V st → st'.dataFile.length < st.dataFile.length + 12 + HEADER_BUF_SIZE → ShortBodies V st' := by
  obtain ⟨ks, hrun, -⟩ := h
  induction hrun with
  | nil st => exact fun hs _ => hs
  | @cons st st₁ st' k ks h hrest ih =>
      intro hs hgrown
      have hle := Run.preserves (I := fun s => st₁.dataFile.length ≤ s.dataFile.length)
        (fun s _ s' hi hc => le_trans hi (Change.grows hc)) hrest (le_refl _)
      have hstep := h.grows
      exact ih (hs.change hw h (by omega)) (by omega)

/-! ### What a line stores -/

/-- The data file has grown by less than a record that does not fit. -/
def GrowsShort (st st' : Store ι) : Prop := st'.dataFile.length < st.dataFile.length + 12 + HEADER_BUF_SIZE

theorem GrowsShort.of_eq (h : st'.dataFile = st.dataFile) : GrowsShort st st' := by
  rw [GrowsShort, h]
  have hpos : 0 < HEADER_BUF_SIZE := by decide
  omega

theorem GrowsShort.of_storeActs {key : List UInt8} {bodyLen flag expire : Int} {body : List UInt8}
    (hb : bodyLen = body.length) (hshort : bodyLen < HEADER_BUF_SIZE)
    (he : Act.execAll ix.toIndex st (storeActs st.dataFile.length key bodyLen flag expire body) = .ok st') :
    GrowsShort st st' := by
  subst hb
  rw [GrowsShort, (execAll_storeActs he).data, List.length_append, length_recordBytes]
  omega

theorem GrowsShort.of_nil (he : Act.execAll ix.toIndex st [] = .ok st') : GrowsShort st st' := by
  obtain rfl := Except.ok.inj he
  exact .of_eq rfl

theorem cmdDoSet_grows (buf : Buf) (hshort : ∀ n ∈ (setArgs line).map fun (_, _, _, bodyLen) => bodyLen,
      n < (HEADER_BUF_SIZE : Int)) :
    Ends (fun _ => True) (fun r => GrowsShort st r.2) (cmdDoSet ix now line buf st) := by
  refine Ends.bind (Ends.excuse (scanned_ends _ _ _) fun _ _ => trivial) ?_
  rintro _ ⟨-, rfl⟩
  cases ha : setArgs line with
  | none => exact ends_pure.mpr (.of_eq rfl)
  | some args =>
      obtain ⟨key, flag, expire, bodyLen⟩ := args
      have hlt : bodyLen < HEADER_BUF_SIZE := hshort bodyLen (by rw [ha]; rfl)
      simp only
      split_ifs with hneg
      · exact ends_pure.mpr (.of_eq rfl)
      · rw [bodyOf]
        split_ifs with hbig
        · trivial
        · refine replied_ends (fun reply => sendUnlessNoreply line reply.text) fun reply acts st' hp he => ?_
          obtain ⟨-, rfl⟩ := Prod.mk.inj (Except.ok.inj hp)
          exact .of_storeActs (by rw [Buf.length_read]; omega) hlt he

theorem cmdDoCas_grows (buf : Buf) (hshort : ∀ n ∈ (casArgs line).map fun (_, _, _, bodyLen, _) => bodyLen,
      n < (HEADER_BUF_SIZE : Int)) :
    Ends (fun _ => True) (fun r => GrowsShort st r.2) (cmdDoCas ix line buf st) := by
  refine Ends.bind (Ends.excuse (scanned_ends _ _ _) fun _ _ => trivial) ?_
  rintro _ ⟨-, rfl⟩
  cases ha : casArgs line with
  | none => exact ends_pure.mpr (.of_eq rfl)
  | some args =>
      obtain ⟨key, flag, expire, bodyLen, sign⟩ := args
      have hlt : bodyLen < HEADER_BUF_SIZE := hshort bodyLen (by rw [ha]; rfl)
      simp only
      split_ifs with hneg
      · exact ends_pure.mpr (.of_eq rfl)
      · refine replied_ends (fun reply => sendUnlessNoreply line reply.text) fun reply acts st' hp he => ?_
        cases hv : ix.get st.index key with
        | none =>
            simp only [casActs, casPlan, hv, returns, Option.elim_none, bind, Except.bind] at hp
            cases hp
        | some v =>
            rw [casActs_eq hv] at hp
            split_ifs at hp with hs hbig
            · obtain ⟨-, rfl⟩ := Prod.mk.inj (Except.ok.inj hp)
              exact .of_storeActs (by rw [Buf.length_read]; omega) hlt he
            · obtain ⟨-, rfl⟩ := Prod.mk.inj (Except.ok.inj hp)
              exact .of_nil he

theorem cmdDoDelete_grows : Ends (fun _ => True) (fun r => GrowsShort st r.2) (cmdDoDelete ix line st) := by
  refine Ends.bind (Ends.excuse (scanned_ends _ _ _) fun _ _ => trivial) ?_
  rintro _ ⟨-, rfl⟩
  cases deleteArgs line with
  | none => exact ends_pure.mpr (.of_eq rfl)
  | some key =>
      refine replied_ends (fun reply => [reply.text]) fun reply acts st' hp he => ?_
      obtain ⟨v, -, hp⟩ := returns_bind (show (returns (ix.get st.index key) >>= _) = _ from hp)
      split_ifs at hp
      · obtain ⟨-, rfl⟩ := Prod.mk.inj (Except.ok.inj hp)
        exact .of_nil he
      · obtain ⟨-, rfl⟩ := Prod.mk.inj (Except.ok.inj hp)
        exact .of_eq (execAll_deleteActs he).data

/-- The text of a number is short. -/
theorem incrOrDecr_grows (isDecr : Bool) :
    Ends (fun _ => True) (fun r => GrowsShort st r.2) (incrOrDecr ix line isDecr st) := by
  refine Ends.bind (Ends.excuse (scanned_ends _ _ _) fun _ _ => trivial) ?_
  rintro _ ⟨-, rfl⟩
  cases incrOrDecrArgs line with
  | none => exact ends_pure.mpr (.of_eq rfl)
  | some args =>
      obtain ⟨key, delta⟩ := args
      refine replied_ends (fun reply => [reply.text]) fun reply acts st' hp he => ?_
      obtain ⟨v, -, hp⟩ := returns_bind (show (returns (ix.get st.index key) >>= _) = _ from hp)
      rcases Classical.em (v = 0) with hz | hz
      · rw [if_pos hz] at hp
        obtain ⟨-, rfl⟩ := Prod.mk.inj (Except.ok.inj hp)
        exact .of_nil he
      · rw [if_neg hz] at hp
        cases ht : readTmp st.dataFile v with
        | error e => rw [ht] at hp; cases hp
        | ok t =>
            obtain ⟨bodyLen, flag, expire⟩ := t
            rw [ht] at hp
            rcases Classical.em (bodyLen < 0 ∨ (HEADER_BUF_SIZE : Int) ≤ bodyLen) with hb | hb
            · simp only [bind, Except.bind, pure, Except.pure, if_pos hb] at hp
              cases hp
            · simp only [bind, Except.bind, pure, Except.pure, if_neg hb] at hp
              obtain ⟨-, rfl⟩ := Prod.mk.inj (Except.ok.inj hp)
              have hnumber := length_decimal_wrap32 (if isDecr then
                atoi (cstr (slice st.dataFile (v + 12) bodyLen.toNat)) - delta
                else atoi (cstr (slice st.dataFile (v + 12) bodyLen.toNat)) + delta)
              have hsize : HEADER_BUF_SIZE = 512 := rfl
              exact .of_storeActs rfl (by omega) he

/-- A request whose line declares no long body keeps the bodies short. -/
theorem ShortBodies.asks (hw : ix.Works V) (hs : ShortBodies V st) (h : Asks ix st line st')
    (hline : ∀ n ∈ storedLen line, n < (HEADER_BUF_SIZE : Int)) : ShortBodies V st' := by
  obtain ⟨now, s, headerLen, bodyLen, valueBuf, answer, s', valueBuf', rfl, he⟩ := h
  have hs' := hs
  obtain ⟨m, hr, hshort⟩ := hs'
  have hc : Complete m st.dataFile := fun key hne => by
    obtain ⟨r, hrec, -⟩ := hshort key hne
    rw [hrec]
    rfl
  have hrep : V.Rep (Shared.mk st valueBuf).store.index m := hr
  refine hs.changes hw ((handleCmd_changes hw hrep s headerLen bodyLen).ok he) ?_
  have hgrows : Ends (fun _ => True) (fun r => GrowsShort st r.2.2.store)
      (handleCmd ix now s headerLen bodyLen ⟨st, valueBuf⟩) := by
    refine Ends.bind (Ends.excuse (terminate_ends s headerLen bodyLen) fun _ _ => trivial) ?_
    rintro s₁ ⟨-, -, hl⟩
    rw [hl]
    refine Ends.bind (Q := fun r => GrowsShort st r.2.store) ?_ (by rintro ⟨answer, sh'⟩ h; exact h)
    have hget : ∀ rSign, Ends (fun _ => True) (fun r => GrowsShort st r.2.1)
        (cmdDoGet ix now rSign s₁.headBuf st valueBuf) := fun rSign =>
      Ends.imp (Ends.excuse (cmdDoGet_ends hw hr hc valueBuf) fun _ _ => trivial) fun r h => by
        obtain ⟨-, -, -, -, -, hd⟩ := h
        exact .of_eq hd
    unfold storedLen at hline
    unfold runCmd
    cases hm : methodOf (s.line headerLen) with
    | set => exact Ends.map (cmdDoSet_grows _ (by rwa [hm] at hline)) fun _ h => h
    | gets => exact Ends.map (hget true) fun _ h => h
    | get => exact Ends.map (hget false) fun _ h => h
    | below => exact Ends.map (ends_trivial _) fun _ _ => .of_eq rfl
    | less => exact Ends.map (ends_trivial _) fun _ _ => .of_eq rfl
    | greater => exact Ends.map (ends_trivial _) fun _ _ => .of_eq rfl
    | cas => exact Ends.map (cmdDoCas_grows _ (by rwa [hm] at hline)) fun _ h => h
    | delete => exact Ends.map cmdDoDelete_grows fun _ h => h
    | incr => exact Ends.map (incrOrDecr_grows false) fun _ h => h
    | decr => exact Ends.map (incrOrDecr_grows true) fun _ h => h
    | quit => exact ends_ok.mpr (.of_eq rfl)
    | unknown => exact ends_ok.mpr (.of_eq rfl)
  exact hgrows.ok he

theorem ShortBodies.run (hw : ix.Works V) {lines : List (List UInt8)} (hrun : Run (Asks ix) st lines st') :
    ShortBodies V st → (∀ line ∈ lines, ∀ n ∈ storedLen line, n < (HEADER_BUF_SIZE : Int)) → ShortBodies V st' := by
  induction hrun with
  | nil st => exact fun hs _ => hs
  | cons h _ ih =>
      intro hs hlines
      obtain ⟨hline, hlines⟩ := List.forall_mem_cons.mp hlines
      exact ih (hs.asks hw h hline) hlines

end Numbers

/-! ## Runs -/

end Tstdb
