/-
# `Tstdb.Server.Tokens` — keys on their way from a line to the log

Every command copies its key to an array of `MAX_KEY_SIZE` bytes, and some the method
to one of `HEADER_BUF_SIZE` bytes.  Nothing limits what is copied: it is the words of
the line that fit or do not (`TokensFit`).  A request that was handled has stored and
removed under keys that fit, so the binlog holds complete records with keys of the
right size, and a replay of it, or of what is left of it, stays inside its own array
(`keys_fit_arrays`).
-/
import Mathlib
import Tstdb.Lib.CText
import Tstdb.Lib.Bytes
import Tstdb.Lib.Outcome
import Tstdb.Lib.Runs
import Tstdb.Tst.Arena
import Tstdb.Tst.Runs
import Tstdb.Tst.Scan
import Tstdb.Server.Index
import Tstdb.Server.Store
import Tstdb.Server.Sections
import Tstdb.Server.View
import Tstdb.Server.Boot
import Tstdb.Server.Pool
import Tstdb.Server.Commands
import Tstdb.Server.Values
import Tstdb.Server.Replies
import Tstdb.Server.Frame

namespace Tstdb

open CText Bytes Outcome Runs

/-! ## What fits -/

/-- The words that the loop of `get` comes to, from a position of the header array on. -/
def wordsReached (header : Buf) : Nat → Nat → List (List UInt8)
  | 0, _ => []
  | fuel + 1, i =>
      match Buf.span (fun b => b = 32 || b = 0) (MAX_BODY_SIZE - i) header i with
      | none => []
      | some n => header.read i n :: if header (i + n) = 0 then [] else wordsReached header fuel (i + n + 1)

/-- The words behind the first one of the header array. -/
def getReached (header : Buf) : List (List UInt8) :=
  match Buf.span (fun b => b = 32 || b = 0) MAX_BODY_SIZE header 0 with
  | none => []
  | some n => wordsReached header MAX_BODY_SIZE (n + 1)

/-- The words that the command copies to `key` and `method` fit there. -/
def TokensFit (line : List UInt8) (header : Buf) : Prop :=
  match methodOf line with
  | .set | .cas | .delete | .incr | .decr =>
      (nextWord line).1.length < HEADER_BUF_SIZE ∧ (nextWord (nextWord line).2).1.length < MAX_KEY_SIZE
  | .below => (nextWord (line.drop (ascii "prefix").length)).1.length < MAX_KEY_SIZE
  | .less => (nextWord (line.drop (ascii "less").length)).1.length < MAX_KEY_SIZE
  | .greater => (nextWord (line.drop (ascii "greater").length)).1.length < MAX_KEY_SIZE
  | .get | .gets => ∀ w ∈ getReached header, w.length < MAX_KEY_SIZE
  | .quit | .unknown => True

/-- A key or a method has overrun its array. -/
def TokenFault (e : Fault) : Prop := e = .overrun .key ∨ e = .overrun .method

/-! ## The handlers -/

section Handlers

variable {ι : Type} {ix : ScanIndex ι} {V : View ix.toIndex} {m : Key → Nat} {st : Store ι} {line : List UInt8}
  {now : Int} {rSign : Bool} {α β : Type}

/-- No key and no method overruns its array. -/
def Tokenless (x : Except Fault β) : Prop := Ends (fun e => ¬TokenFault e) (fun _ => True) x

theorem Tokenless.bind {x : Except Fault α} {f : α → Except Fault β} (h : Tokenless x) (hf : ∀ a, Tokenless (f a)) :
    Tokenless (x >>= f) := Ends.bind h fun a _ => hf a

/-- Overruns of other arrays do not count. -/
theorem tokenless_overrun {a : CArray} (h : a ≠ .key ∧ a ≠ .method) :
    Tokenless (.error (.overrun a) : Except Fault β) := by
  rintro (e | e)
  · exact h.1 (Fault.overrun.inj e)
  · exact h.2 (Fault.overrun.inj e)

theorem tokenless_returns (o : Option α) : Tokenless (returns o) := by
  cases o with
  | none => rintro (h | h) <;> cases h
  | some a => trivial

theorem tokenless_exec (a : Act) (st : Store ι) : Tokenless (a.exec ix.toIndex st) := by
  cases a with
  | data bs =>
      rw [Act.exec]
      split_ifs
      · trivial
      · rintro (h | h) <;> cases h
  | log bs =>
      rw [Act.exec]
      split_ifs
      · trivial
      · rintro (h | h) <;> cases h
  | apply op => exact Ends.map (tokenless_returns _) fun _ _ => trivial

theorem tokenless_execAll : ∀ (acts : List Act) (st : Store ι), Tokenless (Act.execAll ix.toIndex st acts) := by
  intro acts
  induction acts with
  | nil => intro st; trivial
  | cons a acts ih => intro st; exact (tokenless_exec a st).bind ih

theorem tokenless_perform {plan : Except Fault (Reply × List Act)} (h : Tokenless plan) :
    Tokenless (perform ix st plan) := h.bind fun p => (tokenless_execAll p.2 st).bind fun _ => trivial

/-- The computation overruns `key` or `method` exactly if something does not fit. -/
def Copies (fits : Prop) (x : Except Fault β) : Prop := Ends (fun e => TokenFault e ↔ ¬fits) (fun _ => fits) x

theorem overruns_str (s : List UInt8) (args : List Arg) (a : CArray) (size : Nat) (arrays : List (CArray × Nat)) :
    overruns (.str s :: args) ((a, size) :: arrays) = (if size ≤ s.length then [a] else []) ++ overruns args arrays := by
  simp only [overruns, List.filterMap_cons, Arg.text?, List.zip_cons_cons]
  split_ifs <;> rfl

theorem overruns_nil (args : List Arg) : overruns args [] = [] := by
  rw [overruns, List.zip_nil_right]
  rfl

theorem overruns_subset {args : List Arg} {arrays : List (CArray × Nat)} {a : CArray}
    (h : a ∈ overruns args arrays) : a ∈ arrays.map Prod.fst := by
  obtain ⟨⟨s, b, size⟩, hmem, hb⟩ := List.mem_filterMap.mp h
  simp only [Option.ite_none_right_eq_some] at hb
  obtain rfl := Option.some.inj hb.2
  exact List.mem_map.mpr ⟨(b, size), (List.of_mem_zip hmem).2, rfl⟩

/-- The first array that is overrun ends the command, and nothing behind the scan
copies a key or a method. -/
theorem copies_scanned {fmt : String} {arrays : List (CArray × Nat)} {args : Option α} {fits : Prop}
    {f : Option α → Except Fault β} (hnone : overruns (sscanf line fmt) arrays = [] → fits)
    (hsome : ∀ a as, overruns (sscanf line fmt) arrays = a :: as → (TokenFault (.overrun a) ↔ ¬fits))
    (hf : ∀ a, Tokenless (f a)) : Copies fits (scanned line fmt arrays args >>= f) := by
  unfold scanned
  cases ho : overruns (sscanf line fmt) arrays with
  | nil =>
      have hfits := hnone ho
      exact Ends.imp (Ends.excuse (hf args) fun e he => iff_of_false he (not_not_intro hfits)) fun _ _ => hfits
  | cons a as => exact hsome a as ho

/-- Two words at the start of a line: the method and the key. -/
theorem copies_words {fmt : String} {ds : List Dir} (hfmt : format fmt.toList = .str :: .space :: .str :: ds)
    {args : Option α} {f : Option α → Except Fault β} (hf : ∀ a, Tokenless (f a)) :
    Copies ((nextWord line).1.length < HEADER_BUF_SIZE ∧ (nextWord (nextWord line).2).1.length < MAX_KEY_SIZE)
      (scanned line fmt [methodArray, keyArray] args >>= f) := by
  have hwords : overruns (sscanf line fmt) [methodArray, keyArray] =
      (if HEADER_BUF_SIZE ≤ (nextWord line).1.length then [.method] else []) ++
        if MAX_KEY_SIZE ≤ (nextWord (nextWord line).2).1.length then [.key] else [] := by
    rw [sscanf, hfmt, scan_str_cons]
    rcases Classical.em ((nextWord line).1 = []) with hnil | hne
    · rw [if_pos hnil, hnil, nextWord_nil hnil]
      rfl
    · rw [if_neg hne, scan, scan_str_cons, nextWord_dropWhile, methodArray, overruns_str]
      congr 1
      rcases Classical.em ((nextWord (nextWord line).2).1 = []) with hnil | hne
      · rw [if_pos hnil, hnil]
        rfl
      · rw [if_neg hne, keyArray, overruns_str, overruns_nil, List.append_nil]
  refine copies_scanned ?_ ?_ hf
  · intro ho
    rw [hwords] at ho
    obtain ⟨h₁, h₂⟩ := List.append_eq_nil_iff.mp ho
    split_ifs at h₁ h₂
    exact ⟨by omega, by omega⟩
  · intro a as ho
    rw [hwords] at ho
    split_ifs at ho with h₁ h₂ h₂
    · exact iff_of_true (Or.inr (by rw [(List.cons.inj ho).1])) fun hfits => by omega
    · exact iff_of_true (Or.inr (by rw [(List.cons.inj ho).1])) fun hfits => by omega
    · exact iff_of_true (Or.inl (by rw [(List.cons.inj ho).1])) fun hfits => by omega
    · cases ho

/-- A word behind a literal method: the key, and no key and no method behind it. -/
theorem copies_word {method : String} {fmt : String} {ds : List Dir} {arrays : List (CArray × Nat)}
    (hfmt : format fmt.toList = (ascii method).map .lit ++ .space :: .str :: ds)
    (harrays : ∀ a ∈ arrays.map Prod.fst, a ≠ .key ∧ a ≠ .method) (hm : startsWith line (ascii method) = true)
    {args : Option α} {f : Option α → Except Fault β} (hf : ∀ a, Tokenless (f a)) :
    Copies ((nextWord (line.drop (ascii method).length)).1.length < MAX_KEY_SIZE)
      (scanned line fmt (keyArray :: arrays) args >>= f) := by
  obtain ⟨t, rfl⟩ := List.isPrefixOf_iff_prefix.mp hm
  rw [List.drop_left' rfl]
  obtain ⟨rest, hwords⟩ : ∃ rest, overruns (sscanf (ascii method ++ t) fmt) (keyArray :: arrays) =
      (if MAX_KEY_SIZE ≤ (nextWord t).1.length then [.key] else []) ++ rest ∧
        ∀ a ∈ rest, a ∈ arrays.map Prod.fst := by
    rw [sscanf, hfmt, scan_lits, scan, scan_str_cons, nextWord_dropWhile]
    rcases Classical.em ((nextWord t).1 = []) with hnil | hne
    · refine ⟨[], ?_, fun a ha => absurd ha List.not_mem_nil⟩
      rw [if_pos hnil, hnil]
      rfl
    · rw [if_neg hne, keyArray, overruns_str]
      exact ⟨_, rfl, fun a ha => overruns_subset ha⟩
  refine copies_scanned ?_ ?_ hf
  · intro ho
    rw [hwords.1] at ho
    have h₁ := (List.append_eq_nil_iff.mp ho).1
    split_ifs at h₁
    omega
  · intro a as ho
    rw [hwords.1] at ho
    split_ifs at ho with h₁
    · exact iff_of_true (Or.inl (by rw [(List.cons.inj ho).1])) (by omega)
    · obtain ⟨hk, hme⟩ := harrays a (hwords.2 a (by rw [List.nil_append] at ho; rw [ho]; exact List.mem_cons_self))
      refine iff_of_false ?_ (not_not_intro (by omega))
      rintro (h | h)
      · exact hk (Fault.overrun.inj h)
      · exact hme (Fault.overrun.inj h)

theorem cmdDoSet_copies (body : Buf) :
    Copies ((nextWord line).1.length < HEADER_BUF_SIZE ∧ (nextWord (nextWord line).2).1.length < MAX_KEY_SIZE)
      (cmdDoSet ix now line body st) := by
  have hfmt : format "%s %s %d %d %d".toList = .str :: .space :: .str :: [.space, .int, .space, .int, .space, .int] := by
    decide
  refine copies_words hfmt fun args => ?_
  rcases args with - | ⟨key, flag, expire, bodyLen⟩
  · trivial
  · simp only
    rcases Classical.em (bodyLen < 0) with hneg | hneg
    · rw [if_pos hneg]
      trivial
    · rw [if_neg hneg]
      refine Tokenless.bind ?_ fun bytes => (tokenless_perform (show Tokenless (.ok _) from trivial)).bind fun _ => trivial
      rw [bodyOf]
      split_ifs
      · exact tokenless_overrun (by decide)
      · trivial

theorem cmdDoCas_copies (body : Buf) :
    Copies ((nextWord line).1.length < HEADER_BUF_SIZE ∧ (nextWord (nextWord line).2).1.length < MAX_KEY_SIZE)
      (cmdDoCas ix line body st) := by
  have hfmt : format "%s %s %d %d %d %llu".toList
      = .str :: .space :: .str :: [.space, .int, .space, .int, .space, .int, .space, .ull] := by decide
  refine copies_words hfmt fun args => ?_
  rcases args with - | ⟨key, flag, expire, bodyLen, sign⟩
  · trivial
  · simp only
    rcases Classical.em (bodyLen < 0) with hneg | hneg
    · rw [if_pos hneg]
      trivial
    · rw [if_neg hneg]
      refine (tokenless_perform (Tokenless.bind ((tokenless_returns _).bind fun v => ?_) ?_)).bind fun _ => trivial
      · split_ifs <;> trivial
      · rintro ⟨reply, acts⟩
        simp only
        split_ifs
        · exact tokenless_overrun (by decide)
        · trivial

theorem cmdDoDelete_copies :
    Copies ((nextWord line).1.length < HEADER_BUF_SIZE ∧ (nextWord (nextWord line).2).1.length < MAX_KEY_SIZE)
      (cmdDoDelete ix line st) := by
  refine copies_words rfl fun args => ?_
  rcases args with - | key
  · trivial
  · refine (tokenless_perform ((tokenless_returns _).bind fun v => ?_)).bind fun _ => trivial
    split_ifs <;> trivial

theorem incrOrDecr_copies (isDecr : Bool) :
    Copies ((nextWord line).1.length < HEADER_BUF_SIZE ∧ (nextWord (nextWord line).2).1.length < MAX_KEY_SIZE)
      (incrOrDecr ix line isDecr st) := by
  refine copies_words rfl fun args => ?_
  rcases args with - | ⟨key, delta⟩
  · trivial
  · refine (tokenless_perform ((tokenless_returns _).bind fun v => ?_)).bind fun _ => trivial
    rcases Classical.em (v = 0) with hz | hz
    · rw [if_pos hz]
      trivial
    · rw [if_neg hz]
      refine Tokenless.bind ?_ ?_
      · rw [readTmp]
        split_ifs
        · trivial
        · rintro (h | h) <;> cases h
      · rintro ⟨bodyLen, flag, expire⟩
        rcases Classical.em (bodyLen < 0 ∨ (HEADER_BUF_SIZE : Int) ≤ bodyLen) with hb | hb
        · simp only [if_pos hb]
          exact tokenless_overrun (by decide)
        · simp only [if_neg hb]
          trivial

theorem tokenless_sendKeys (args : Option ListCall) : Tokenless (sendKeys ix st args) := by
  cases args with
  | none => trivial
  | some call =>
      refine (tokenless_returns _).bind ?_
      rintro ⟨keys, resultSize⟩
      simp only
      split_ifs
      · exact tokenless_overrun (by decide)
      · trivial

theorem cmdDoPrefix_copies (hm : startsWith line (ascii "prefix") = true) :
    Copies ((nextWord (line.drop (ascii "prefix").length)).1.length < MAX_KEY_SIZE) (cmdDoPrefix ix line st) := by
  have hfmt : format "prefix %s %d %s".toList
      = (ascii "prefix").map .lit ++ .space :: .str :: [.space, .int, .space, .str] := by decide
  exact copies_word hfmt (by decide) hm tokenless_sendKeys

theorem cmdDoLess_copies (hm : startsWith line (ascii "less") = true) :
    Copies ((nextWord (line.drop (ascii "less").length)).1.length < MAX_KEY_SIZE) (cmdDoLess ix line st) := by
  have hfmt : format "less %s %d".toList = (ascii "less").map .lit ++ .space :: .str :: [.space, .int] := by decide
  exact copies_word hfmt (fun a ha => absurd ha List.not_mem_nil) hm tokenless_sendKeys

theorem cmdDoGreater_copies (hm : startsWith line (ascii "greater") = true) :
    Copies ((nextWord (line.drop (ascii "greater").length)).1.length < MAX_KEY_SIZE) (cmdDoGreater ix line st) := by
  have hfmt : format "greater %s %d".toList = (ascii "greater").map .lit ++ .space :: .str :: [.space, .int] := by decide
  exact copies_word hfmt (fun a ha => absurd ha List.not_mem_nil) hm tokenless_sendKeys

/-! ### The loop of `get` -/

theorem wordsReached_succ {header : Buf} {fuel i n : Nat}
    (hs : Buf.span (fun b => b = 32 || b = 0) (MAX_BODY_SIZE - i) header i = some n) :
    wordsReached header (fuel + 1) i
      = header.read i n :: if header (i + n) = 0 then [] else wordsReached header fuel (i + n + 1) := by
  rw [wordsReached, hs]

/-- The same, as far as `g_value_buf` holds the answer. -/
def CopiesOr (fits : Prop) (x : Except Fault β) : Prop :=
  Ends (fun e => e ≠ .overrun .gValueBuf → (TokenFault e ↔ ¬fits)) (fun _ => fits) x

theorem getLoop_copies (hw : ix.Works V) {header : Buf} : ∀ {fuel i : Nat} {m : Key → Nat} {g : Getting ι},
    V.Rep g.store.index m → Complete m g.store.dataFile →
      g.store.binlog.length + fuel * (12 + MAX_KEY_SIZE) < FILE_LIMIT →
      CopiesOr (∀ w ∈ wordsReached header fuel i, w.length < MAX_KEY_SIZE) (getLoop ix now rSign header fuel i g) := by
  intro fuel
  induction fuel with
  | zero =>
      intro i m g _ _ _ _
      refine iff_of_false ?_ (not_not_intro fun w hw => absurd hw List.not_mem_nil)
      rintro (h | h) <;> cases h
  | succ fuel ih =>
      intro i m g hr hc hlog
      cases hs : Buf.span (fun b => b = 32 || b = 0) (MAX_BODY_SIZE - i) header i with
      | none =>
          rw [getLoop, wordLen, hs, wordsReached, hs]
          refine fun _ => iff_of_false ?_ (not_not_intro fun w hw => absurd hw List.not_mem_nil)
          rintro (h | h) <;> cases h
      | some n =>
          rw [wordsReached_succ hs]
          rcases Nat.lt_or_ge n MAX_KEY_SIZE with hlt | hge
          · have hword : (header.read i n).length < MAX_KEY_SIZE := by rwa [Buf.length_read]
            have h0 := (notMem_word hs).1
            rcases Nat.lt_or_ge g.total VALUE_BUF_SIZE with hspace | hfull
            · rw [getLoop_succ hs hlt (hw.get_word hr h0) hspace]
              refine Ends.bind (Ends.excuse (getWord_ends hw hr (hc.word _) hword) fun e he hne => ?_) fun g' hgot => ?_
              · refine absurd (he.2 ?_) hne
                rw [Nat.add_mul] at hlog
                omega
              · split_ifs with hend
                · exact ends_pure.mpr (List.forall_mem_singleton.mpr hword)
                · have hgrown := hgot.log
                  rw [Nat.add_mul] at hlog
                  have hrest := @ih (i + n + 1) _ g' hgot.rep (hgot.data ▸ hc.forget) (by omega)
                  refine Ends.imp (Ends.excuse hrest fun e he hne => (he hne).trans (not_congr ?_)) fun _ hfits => ?_
                  · rw [List.forall_mem_cons]
                    exact (and_iff_right hword).symm
                  · exact List.forall_mem_cons.mpr ⟨hword, hfits⟩
            · rw [getLoop, wordLen, hs]
              simp only [bind, Except.bind, if_neg (Nat.not_le.mpr hlt), hw.get_word hr h0, returns,
                Option.elim_some, if_pos hfull]
              exact fun hne => absurd rfl hne
          · rw [getLoop, wordLen, hs]
            simp only [bind, Except.bind, if_pos hge]
            refine fun _ => iff_of_true (Or.inl rfl) fun hfits => ?_
            have hlt := hfits _ List.mem_cons_self
            rw [Buf.length_read] at hlt
            omega

theorem cmdDoGet_copies (hw : ix.Works V) (hr : V.Rep st.index m) (hc : Complete m st.dataFile) (hroom : st.Roomy)
    (header valueBuf : Buf) :
    CopiesOr (∀ w ∈ getReached header, w.length < MAX_KEY_SIZE) (cmdDoGet ix now rSign header st valueBuf) := by
  rw [cmdDoGet, wordLen, Nat.sub_zero]
  unfold getReached
  cases hs : Buf.span (fun b => b = 32 || b = 0) MAX_BODY_SIZE header 0 with
  | none =>
      refine fun _ => iff_of_false ?_ (not_not_intro fun w hw => absurd hw List.not_mem_nil)
      rintro (h | h) <;> cases h
  | some n =>
      refine Ends.bind (Q := (· = n)) rfl ?_
      rintro _ rfl
      refine Ends.bind (getLoop_copies hw (g := ⟨st, valueBuf, 0⟩) hr hc hroom.log) fun g hfits => ?_
      split_ifs
      · exact fun hne => absurd rfl hne
      · exact ends_pure.mpr hfits

/-! ### `handle_cmd` -/

theorem startsWith_of_below (h : methodOf line = .below) : startsWith line (ascii "prefix") = true := by
  by_contra hno
  rw [methodOf, if_neg hno] at h
  split_ifs at h

theorem startsWith_of_less (h : methodOf line = .less) : startsWith line (ascii "less") = true := by
  by_contra hno
  rw [methodOf, if_neg hno] at h
  split_ifs at h

theorem startsWith_of_greater (h : methodOf line = .greater) : startsWith line (ascii "greater") = true := by
  by_contra hno
  rw [methodOf, if_neg hno] at h
  split_ifs at h

theorem runCmd_copies (hw : ix.Works V) {s : Scratch} {sh : Shared ι} (hr : V.Rep sh.store.index m)
    (hc : Complete m sh.store.dataFile) (hroom : sh.store.Roomy) :
    CopiesOr (TokensFit line s.headBuf) (runCmd ix now line s sh) := by
  have hcopies : ∀ {β γ : Type} {fits : Prop} {x : Except Fault β} (f : β → γ), Copies fits x →
      CopiesOr fits (x.map f) := fun f h =>
    Ends.map (Ends.excuse h fun e he _ => he) fun _ hfits => hfits
  unfold runCmd TokensFit
  cases hm : methodOf line with
  | set => exact hcopies _ (cmdDoSet_copies _)
  | gets => exact Ends.map (cmdDoGet_copies hw hr hc hroom _ _) fun _ h => h
  | get => exact Ends.map (cmdDoGet_copies hw hr hc hroom _ _) fun _ h => h
  | below => exact hcopies _ (cmdDoPrefix_copies (startsWith_of_below hm))
  | less => exact hcopies _ (cmdDoLess_copies (startsWith_of_less hm))
  | greater => exact hcopies _ (cmdDoGreater_copies (startsWith_of_greater hm))
  | cas => exact hcopies _ (cmdDoCas_copies _)
  | delete => exact hcopies _ cmdDoDelete_copies
  | incr => exact hcopies _ (incrOrDecr_copies false)
  | decr => exact hcopies _ (incrOrDecr_copies true)
  | quit => exact ends_ok.mpr trivial
  | unknown => exact ends_ok.mpr trivial

theorem handleCmd_copies (hw : ix.Works V) {sh : Shared ι} (hr : V.Rep sh.store.index m)
    (hc : Complete m sh.store.dataFile) (hroom : sh.store.Roomy) (s : Scratch) {headerLen : Nat} {bodyLen : Int}
    (hlen : headerLen < MAX_BODY_SIZE) (hbody : 0 ≤ bodyLen ∧ bodyLen < MAX_BODY_SIZE) :
    CopiesOr (TokensFit (s.line headerLen) (s.headBuf.write headerLen [0])) (handleCmd ix now s headerLen bodyLen sh) := by
  rw [handleCmd_eq ix now s sh hlen hbody]
  exact Ends.map (runCmd_copies hw hr hc hroom) fun _ h => h

end Handlers

/-! ## The binlog -/

section Log

variable {ι : Type} {ix : Index ι} {st st' : Store ι}

/-- The binlog holds complete records. -/
def Logged (st : Store ι) : Prop := ∃ es, st.binlog = logBytes es

theorem Logged.append (h : Logged st) (e : LogEntry) (hlog : st'.binlog = st.binlog ++ e.bytes) : Logged st' := by
  obtain ⟨es, hes⟩ := h
  refine ⟨es ++ [e], ?_⟩
  rw [hlog, hes, logBytes, logBytes, List.flatMap_append, List.flatMap_singleton]

/-- A change logs one more record. -/
theorem Change.logged {k : WireKey} (h : Change ix st k st') (hl : Logged st) : Logged st' := by
  have hpos : 0 < k.bytes.length := List.length_pos_iff.mpr k.ne
  cases h with
  | stored hb h =>
      have hle : st.dataFile.length ≤ st'.dataFile.length := by
        rw [h.data, List.length_append]
        exact Nat.le_add_right _ _
      have hlt : FILE_LIMIT < 256 ^ 8 := by decide
      have hshort := h.short
      exact hl.append ⟨k.bytes, st.dataFile.length, hpos, k.short, by omega⟩ h.log
  | removed h => exact hl.append ⟨k.bytes, 0, hpos, k.short, by decide⟩ h.log

theorem Changes.logged {named : Key → Prop} (h : Changes ix named st st') : Logged st → Logged st' := by
  obtain ⟨ks, hrun, -⟩ := h
  exact hrun.preserves fun _ _ _ hl hc => hc.logged hl

/-- What is left of complete records when the rest is cut off. -/
theorem exists_torn : ∀ {es : List LogEntry} {log : List UInt8}, log <+: logBytes es →
    ∃ (es' : List LogEntry) (e : LogEntry) (tail : List UInt8), log = logBytes es' ++ tail ∧ tail <+: e.bytes ∧
      tail.length < e.bytes.length := by
  intro es
  induction es with
  | nil =>
      intro log h
      exact ⟨[], entryK, [], List.prefix_nil.mp h, List.nil_prefix, by decide⟩
  | cons e es ih =>
      intro log h
      rw [logBytes, List.flatMap_cons] at h
      rcases Nat.lt_or_ge log.length e.bytes.length with hlt | hge
      · exact ⟨[], e, log, rfl, List.prefix_of_prefix_length_le h (List.prefix_append _ _) hlt.le, hlt⟩
      · obtain ⟨rest, rfl⟩ := List.prefix_of_prefix_length_le (List.prefix_append _ _) h hge
        obtain ⟨es', e', tail, rfl, htorn⟩ := ih ((List.prefix_append_right_inj _).mp h)
        refine ⟨e :: es', e', tail, ?_, htorn⟩
        rw [show logBytes (e :: es') = e.bytes ++ logBytes es' from List.flatMap_cons, List.append_assoc]

theorem execEntries_faults : ∀ {es : List LogEntry} {i : ι} {e : Fault}, execEntries ix i es = .error e →
    e = .diverge := by
  intro es
  induction es with
  | nil => intro i e h; cases h
  | cons a es ih =>
      intro i e h
      rw [execEntries] at h
      cases ho : a.op.exec ix i with
      | none =>
          rw [ho] at h
          exact (Except.error.inj h).symm
      | some i' =>
          rw [ho] at h
          exact ih h

/-- A replay of what is left stays inside its array. -/
theorem Logged.replay (h : Logged st) {log : List UInt8} (hlog : log <+: st.binlog) (i : ι) :
    replayBinlog ix i log ≠ .error (.overrun .key) := by
  obtain ⟨es, hes⟩ := h
  obtain ⟨es', e, tail, rfl, ht, hs⟩ := exists_torn (hes ▸ hlog)
  rw [replayBinlog_entries ht hs]
  cases he : execEntries ix i es' with
  | ok i' => exact fun hno => by cases hno
  | error f =>
      obtain rfl := execEntries_faults he
      exact fun hno => by cases hno

end Log

/-! ## Runs -/

/-- `handle_cmd` handles a request. -/
def Handles {ι : Type} (ix : ScanIndex ι) (st : Store ι) (answer : Answer) (st' : Store ι) : Prop :=
  ∃ now s headerLen bodyLen valueBuf s' valueBuf',
    handleCmd ix now s headerLen bodyLen ⟨st, valueBuf⟩ = .ok (answer, s', ⟨st', valueBuf'⟩)

/-- What the requests keep of a store: complete records under the keys, and a log of
complete records. -/
structure Orderly {ι : Type} {ix : ScanIndex ι} (V : View ix.toIndex) (st : Store ι) : Prop where
  index : ∃ m, V.Rep st.index m ∧ Complete m st.dataFile
  log : Logged st

theorem Orderly.handles {ι : Type} {ix : ScanIndex ι} {V : View ix.toIndex} (hw : ix.Works V) {st st' : Store ι}
    {answer : Answer} (h : Orderly V st) (hs : Handles ix st answer st') : Orderly V st' := by
  obtain ⟨⟨m, hr, hc⟩, hlog⟩ := h
  obtain ⟨now, s, headerLen, bodyLen, valueBuf, s', valueBuf', he⟩ := hs
  have hsh : V.Rep (Shared.mk st valueBuf).store.index m := hr
  have hchanges := (handleCmd_changes hw hsh s headerLen bodyLen).ok he
  obtain ⟨m', hr', -, hkeep, -⟩ := hchanges.framed hw hr
  exact ⟨⟨m', hr', hkeep hc⟩, hchanges.logged hlog⟩

/-- After every run of requests the binlog holds complete records with keys of 1 to 255
bytes, a replay of any part of it that is left stays inside its array, and the next
request copies its key and its method to where they fit exactly if the words of its
line fit. -/
theorem keys_fit_arrays {ι : Type} {ix : ScanIndex ι} {V : View ix.toIndex} (hw : ix.Works V) {start st : Store ι}
    (hstart : Orderly V start) {answers : List Answer} (hrun : Run (Handles ix) start answers st) :
    (∃ es : List LogEntry, st.binlog = logBytes es) ∧
      (∀ log, log <+: st.binlog → ∀ i, replayBinlog ix.toIndex i log ≠ .error (.overrun .key)) ∧
      ∀ (now : Int) (s : Scratch) (headerLen : Nat) (bodyLen : Int) (valueBuf : Buf), st.Roomy →
        headerLen < MAX_BODY_SIZE → 0 ≤ bodyLen ∧ bodyLen < MAX_BODY_SIZE →
        handleCmd ix now s headerLen bodyLen ⟨st, valueBuf⟩ ≠ .error (.overrun .gValueBuf) →
          ((handleCmd ix now s headerLen bodyLen ⟨st, valueBuf⟩ ≠ .error (.overrun .key) ∧
              handleCmd ix now s headerLen bodyLen ⟨st, valueBuf⟩ ≠ .error (.overrun .method)) ↔
            TokensFit (s.line headerLen) (s.headBuf.write headerLen [0])) := by
  obtain ⟨⟨m, hr, hc⟩, hlog⟩ := hrun.preserves (fun _ _ _ h hs => h.handles hw hs) hstart
  refine ⟨hlog, fun log hl i => hlog.replay hl i, fun now s headerLen bodyLen valueBuf hroom hlen hbody hvalue => ?_⟩
  have hends := @handleCmd_copies _ ix V m now hw ⟨st, valueBuf⟩ hr hc hroom s headerLen bodyLen hlen hbody
  cases he : handleCmd ix now s headerLen bodyLen ⟨st, valueBuf⟩ with
  | ok r =>
      rw [he] at hends
      exact iff_of_true ⟨(fun hno => by cases hno), fun hno => by cases hno⟩ hends
  | error e =>
      rw [he] at hends hvalue
      have hiff := hends fun h => hvalue (congrArg Except.error h)
      rw [← not_or, Except.error.injEq, Except.error.injEq, show (e = .overrun .key ∨ e = .overrun .method) ↔ ¬_ from hiff,
        not_not]

theorem orderly_empty : @Orderly _ ScanIndex.map View.map Shared.empty.store :=
  ⟨⟨_, Shared.rep_empty, complete_zero _⟩, [], rfl⟩

theorem keys_fit_arrays_delete :
    handleCmd ScanIndex.map 0 (Scratch.ofLine (ascii "delete k")) 8 0 Shared.empty ≠ .error (.overrun .key) := by
  obtain ⟨r, hr⟩ : ∃ r, handleCmd ScanIndex.map 0 (Scratch.ofLine (ascii "delete k")) 8 0 Shared.empty = .ok r := ⟨_, rfl⟩
  have hline : (Scratch.ofLine (ascii "delete k")).line 8 = ascii "delete k" := by decide +kernel
  obtain ⟨-, -, hfits⟩ := keys_fit_arrays ScanIndex.map_works orderly_empty (.nil _)
  refine ((hfits 0 (Scratch.ofLine (ascii "delete k")) 8 0 (fun _ => 0) Shared.roomy_empty (by decide) (by decide) ?_).mpr
    ?_).1
  · exact fun hno => by
      rw [show handleCmd ScanIndex.map 0 (Scratch.ofLine (ascii "delete k")) 8 0 ⟨Shared.empty.store, fun _ => 0⟩ = .ok r
        from hr] at hno
      cases hno
  · rw [hline, TokensFit, show methodOf (ascii "delete k") = .delete by decide +kernel]
    decide +kernel

/-- `delete` with a key of 300 bytes. -/
def longLine : List UInt8 := ascii "delete " ++ List.replicate 300 97

theorem key_overruns_array : ¬ ∀ (now : Int) (s : Scratch) (headerLen : Nat) (bodyLen : Int) (sh : Shared KeyMap),
    @Orderly _ ScanIndex.map View.map sh.store → sh.store.Roomy → headerLen < MAX_BODY_SIZE →
      0 ≤ bodyLen ∧ bodyLen < MAX_BODY_SIZE → handleCmd ScanIndex.map now s headerLen bodyLen sh ≠ .error (.overrun .key) := by
  intro H
  refine H 0 (Scratch.ofLine longLine) 307 0 Shared.empty orderly_empty Shared.roomy_empty (by decide) (by decide) ?_
  have hline : (Scratch.ofLine longLine).line 307 = longLine := by decide +kernel
  have hover : overruns (sscanf longLine "%s %s") [methodArray, keyArray] = [.key] := by decide +kernel
  rw [handleCmd_eq ScanIndex.map 0 _ _ (by decide) (by decide), hline, runCmd,
    show methodOf longLine = .delete by decide +kernel]
  simp only [cmdDoDelete, scanned, hover, bind, Except.bind]
  rfl

end Tstdb
