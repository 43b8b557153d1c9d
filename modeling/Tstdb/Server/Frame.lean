/-
# `Tstdb.Server.Frame` — what a request leaves alone

A request stores and removes records under keys that its line names and that fit
`key` (`handleCmd_changes`).  So what the index says of any other key, and the record
it leads to, is the same before and after, whatever the request is and however it
ends (`handleCmd_framed`).
-/
import Mathlib
import Tstdb.Lib.CText
import Tstdb.Lib.Bytes
import Tstdb.Lib.Outcome
import Tstdb.Lib.Runs
import Tstdb.Tst.Arena
import Tstdb.Tst.Runs
import Tstdb.Tst.Scan
import Tstdb.Server.Index
import Tstdb.Server.Store
import Tstdb.Server.Sections
import Tstdb.Server.View
import Tstdb.Server.Pool
import Tstdb.Server.Commands
import Tstdb.Server.Values
import Tstdb.Server.Replies

namespace Tstdb

open CText Bytes Outcome Runs

/-- The line names the key: as the key of its command, or among the words of a `get`. -/
def Names (line : List UInt8) (header : Buf) (key : Key) : Prop :=
  match methodOf line with
  | .set => ∃ flag expire bodyLen, setArgs line = some (key.bytes, flag, expire, bodyLen)
  | .cas => ∃ flag expire bodyLen sign, casArgs line = some (key.bytes, flag, expire, bodyLen, sign)
  | .delete => deleteArgs line = some key.bytes
  | .incr | .decr => ∃ delta, incrOrDecrArgs line = some (key.bytes, delta)
  | .get | .gets => ∃ ws, getWords header = some ws ∧ key.bytes ∈ ws
  | _ => False

/-- One record stored or one key removed, and logged. -/
inductive Change {ι : Type} (ix : Index ι) (st : Store ι) (k : WireKey) (st' : Store ι) : Prop
  | stored {flag expire : Int} {body : List UInt8} (hb : body.length < 2147483648)
      (h : Stored ix st st' k.bytes flag expire body)
  | removed (h : Removed ix st st' k.bytes)

/-- Changes of named keys lead from `st` to `st'`. -/
def Changes {ι : Type} (ix : Index ι) (named : Key → Prop) (st st' : Store ι) : Prop :=
  ∃ ks, Run (Change ix) st ks st' ∧ ∀ k ∈ ks, named k.toKey

section Framed

variable {ι : Type} {ix : ScanIndex ι} {V : View ix.toIndex} {m m' : Key → Nat} {st st' st'' : Store ι}
  {named named' : Key → Prop} {line : List UInt8} {now : Int} {rSign : Bool}

/-- From `st` to `st'` only named keys have changed, the data file has at most grown,
and if the offsets led to complete records they still do. -/
def Framed (V : View ix.toIndex) (m : Key → Nat) (named : Key → Prop) (st st' : Store ι) : Prop :=
  ∃ m', V.Rep st'.index m' ∧ (∃ bs, st'.dataFile = st.dataFile ++ bs) ∧
    (Complete m st.dataFile → Complete m' st'.dataFile) ∧ ∀ key, ¬named key → m' key = m key

theorem Framed.refl (hr : V.Rep st.index m) : Framed V m named st st :=
  ⟨m, hr, ⟨[], (List.append_nil _).symm⟩, fun hc => hc, fun _ _ => rfl⟩

theorem Framed.of_stored (hr : V.Rep st.index m) {key : Key} {flag expire : Int} {body : List UInt8}
    (hb : body.length < 2147483648) (h : Stored ix.toIndex st st' key.bytes flag expire body) :
    Framed V m (· = key) st st' := by
  refine ⟨_, V.put hr h.index, ⟨_, h.data⟩, fun hc k hk => ?_, fun _ hne => Function.update_of_ne hne _ _⟩
  rw [h.data]
  rcases Classical.em (k = key) with rfl | hne
  · rw [Function.update_self, recordAt_recordBytes _ _ _ hb]
    rfl
  · rw [Function.update_of_ne hne] at hk ⊢
    exact isSome_recordAt_append _ (hc k hk)

theorem Framed.of_removed (hr : V.Rep st.index m) {key : Key} (hok : V.Ok st.index key)
    (h : Removed ix.toIndex st st' key.bytes) : Framed V m (· = key) st st' := by
  refine ⟨_, V.delete hr hok h.index, ⟨[], by rw [h.data, List.append_nil]⟩, fun hc k hk => ?_,
    fun _ hne => Function.update_of_ne hne _ _⟩
  rcases Classical.em (k = key) with rfl | hne
  · exact absurd (Function.update_self ..) hk
  · rw [Function.update_of_ne hne] at hk ⊢
    rw [h.data]
    exact hc k hk

theorem Framed.imp (h : Framed V m named st st') (hn : ∀ key, named key → named' key) :
    Framed V m named' st st' := by
  obtain ⟨m', hr, hd, hc, hk⟩ := h
  exact ⟨m', hr, hd, hc, fun key hno => hk key fun hyes => hno (hn key hyes)⟩

theorem Framed.trans (h : Framed V m named st st')
    (h' : ∀ m', V.Rep st'.index m' → Framed V m' named st' st'') : Framed V m named st st'' := by
  obtain ⟨m', hr, ⟨bs, hd⟩, hc, hk⟩ := h
  obtain ⟨m'', hr', ⟨bs', hd'⟩, hc', hk'⟩ := h' m' hr
  exact ⟨m'', hr', ⟨bs ++ bs', by rw [hd', hd, List.append_assoc]⟩, fun h => hc' (hc h),
    fun key hno => (hk' key hno).trans (hk key hno)⟩

theorem Changes.refl (st : Store ι) : Changes ix.toIndex named st st :=
  ⟨[], .nil st, fun _ h => absurd h List.not_mem_nil⟩

theorem Changes.one {k : WireKey} (hk : named k.toKey) (h : Change ix.toIndex st k st') :
    Changes ix.toIndex named st st' := ⟨[k], .cons h (.nil st'), List.forall_mem_singleton.mpr hk⟩

theorem Changes.trans (h : Changes ix.toIndex named st st') (h' : Changes ix.toIndex named st' st'') :
    Changes ix.toIndex named st st'' := by
  obtain ⟨ks, hrun, hks⟩ := h
  obtain ⟨ks', hrun', hks'⟩ := h'
  exact ⟨ks ++ ks', hrun.append hrun', List.forall_mem_append.mpr ⟨hks, hks'⟩⟩

theorem Changes.imp (h : Changes ix.toIndex named st st') (hn : ∀ key, named key → named' key) :
    Changes ix.toIndex named' st st' := by
  obtain ⟨ks, hrun, hks⟩ := h
  exact ⟨ks, hrun, fun k hk => hn _ (hks k hk)⟩

theorem Change.framed (hw : ix.Works V) (hr : V.Rep st.index m) {k : WireKey} (h : Change ix.toIndex st k st') :
    Framed V m (· = k.toKey) st st' := by
  cases h with
  | stored hb h => exact .of_stored hr hb h
  | removed h => exact .of_removed hr (hw.delete k.toKey hr).1 h

/-- Changes of named keys leave the others alone. -/
theorem Changes.framed (hw : ix.Works V) (hr : V.Rep st.index m) (h : Changes ix.toIndex named st st') :
    Framed V m named st st' := by
  obtain ⟨ks, hrun, hks⟩ := h
  induction hrun generalizing m with
  | nil st => exact .refl hr
  | cons hstep _ ih =>
      obtain ⟨hk, hks⟩ := List.forall_mem_cons.mp hks
      exact ((hstep.framed hw hr).imp fun key e => e ▸ hk).trans fun m' hr' => ih hr' hks

/-- What a command does when its section returns. -/
theorem replied_ends {P : Store ι → Prop} {plan : Except Fault (Reply × List Act)} (f : Reply → List (List UInt8))
    (h : ∀ reply acts st', plan = .ok (reply, acts) → Act.execAll ix.toIndex st acts = .ok st' → P st') :
    Ends (fun _ => True) (fun r => P r.2) (perform ix st plan >>= fun r => pure (f r.1, r.2)) := by
  cases plan with
  | error e => trivial
  | ok p =>
      obtain ⟨reply, acts⟩ := p
      cases he : Act.execAll ix.toIndex st acts with
      | error e =>
          simp only [perform, bind, Except.bind, he]
          trivial
      | ok st' =>
          rw [perform_ok reply he]
          exact h reply acts st' rfl he

/-- A store whose record announces the length of its body. -/
theorem changes_storeActs {k : WireKey} (hk : named k.toKey) {bodyLen flag expire : Int} {body : List UInt8}
    (hb : bodyLen = body.length) (hsmall : body.length < 2147483648)
    (he : Act.execAll ix.toIndex st (storeActs st.dataFile.length k.bytes bodyLen flag expire body) = .ok st') :
    Changes ix.toIndex named st st' := by
  subst hb
  exact .one hk (.stored hsmall (execAll_storeActs he))

theorem changes_nil (he : Act.execAll ix.toIndex st [] = .ok st') : Changes ix.toIndex named st st' := by
  obtain rfl := Except.ok.inj he
  exact .refl st

/-! ## The commands -/

theorem cmdDoSet_changes (h0 : 0 ∉ line) (buf : Buf) :
    Ends (fun _ => True)
      (fun r => Changes ix.toIndex (fun key => ∃ flag expire bodyLen, setArgs line = some (key.bytes, flag, expire, bodyLen))
        st r.2) (cmdDoSet ix now line buf st) := by
  refine Ends.bind (Ends.excuse (scanned_ends _ _ _) fun _ _ => trivial) ?_
  rintro _ ⟨hfits, rfl⟩
  cases ha : setArgs line with
  | none => exact ends_pure.mpr (.refl _)
  | some args =>
      obtain ⟨key, flag, expire, bodyLen⟩ := args
      obtain ⟨method, hscan⟩ := setArgs_eq ha
      obtain ⟨k, rfl⟩ := exists_wireKey h0 hscan hfits
      simp only
      split_ifs with hneg
      · exact ends_pure.mpr (.refl _)
      · rw [bodyOf]
        split_ifs with hbig
        · trivial
        · refine replied_ends (fun reply => sendUnlessNoreply line reply.text) fun reply acts st' hp he => ?_
          obtain ⟨-, rfl⟩ := Prod.mk.inj (Except.ok.inj hp)
          have hle : MAX_BODY_SIZE < 2147483648 := by decide
          exact changes_storeActs (k := k) ⟨flag, expire, bodyLen, rfl⟩ (by rw [Buf.length_read]; omega)
            (by rw [Buf.length_read]; omega) he

theorem cmdDoCas_changes (h0 : 0 ∉ line) (buf : Buf) :
    Ends (fun _ => True)
      (fun r => Changes ix.toIndex
        (fun key => ∃ flag expire bodyLen sign, casArgs line = some (key.bytes, flag, expire, bodyLen, sign))
        st r.2) (cmdDoCas ix line buf st) := by
  refine Ends.bind (Ends.excuse (scanned_ends _ _ _) fun _ _ => trivial) ?_
  rintro _ ⟨hfits, rfl⟩
  cases ha : casArgs line with
  | none => exact ends_pure.mpr (.refl _)
  | some args =>
      obtain ⟨key, flag, expire, bodyLen, sign⟩ := args
      obtain ⟨method, hscan⟩ := casArgs_eq ha
      obtain ⟨k, rfl⟩ := exists_wireKey h0 hscan hfits
      simp only
      split_ifs with hneg
      · exact ends_pure.mpr (.refl _)
      · refine replied_ends (fun reply => sendUnlessNoreply line reply.text) fun reply acts st' hp he => ?_
        cases hv : ix.get st.index k.bytes with
        | none =>
            simp only [casActs, casPlan, hv, returns, Option.elim_none, bind, Except.bind] at hp
            cases hp
        | some v =>
            rw [casActs_eq hv] at hp
            split_ifs at hp with hs hbig
            · obtain ⟨-, rfl⟩ := Prod.mk.inj (Except.ok.inj hp)
              have hle : MAX_BODY_SIZE < 2147483648 := by decide
              exact changes_storeActs (k := k) ⟨flag, expire, bodyLen, sign, rfl⟩ (by rw [Buf.length_read]; omega)
                (by rw [Buf.length_read]; omega) he
            · obtain ⟨-, rfl⟩ := Prod.mk.inj (Except.ok.inj hp)
              exact changes_nil he

theorem cmdDoDelete_changes (h0 : 0 ∉ line) :
    Ends (fun _ => True) (fun r => Changes ix.toIndex (fun key => deleteArgs line = some key.bytes) st r.2)
      (cmdDoDelete ix line st) := by
  refine Ends.bind (Ends.excuse (scanned_ends _ _ _) fun _ _ => trivial) ?_
  rintro _ ⟨hfits, rfl⟩
  cases ha : deleteArgs line with
  | none => exact ends_pure.mpr (.refl _)
  | some key =>
      obtain ⟨method, hscan⟩ := deleteArgs_eq ha
      obtain ⟨k, rfl⟩ := exists_wireKey h0 hscan hfits
      refine replied_ends (fun reply => [reply.text]) fun reply acts st' hp he => ?_
      obtain ⟨v, -, hp⟩ := returns_bind (show (returns (ix.get st.index k.bytes) >>= _) = _ from hp)
      split_ifs at hp
      · obtain ⟨-, rfl⟩ := Prod.mk.inj (Except.ok.inj hp)
        exact changes_nil he
      · obtain ⟨-, rfl⟩ := Prod.mk.inj (Except.ok.inj hp)
        exact .one (k := k) rfl (.removed (execAll_deleteActs he))

theorem incrOrDecr_changes (h0 : 0 ∉ line) (isDecr : Bool) :
    Ends (fun _ => True)
      (fun r => Changes ix.toIndex (fun key => ∃ delta, incrOrDecrArgs line = some (key.bytes, delta)) st r.2)
      (incrOrDecr ix line isDecr st) := by
  refine Ends.bind (Ends.excuse (scanned_ends _ _ _) fun _ _ => trivial) ?_
  rintro _ ⟨hfits, rfl⟩
  cases ha : incrOrDecrArgs line with
  | none => exact ends_pure.mpr (.refl _)
  | some args =>
      obtain ⟨key, delta⟩ := args
      obtain ⟨method, hscan⟩ := incrOrDecrArgs_eq ha
      obtain ⟨k, rfl⟩ := exists_wireKey h0 hscan hfits
      refine replied_ends (fun reply => [reply.text]) fun reply acts st' hp he => ?_
      obtain ⟨v, -, hp⟩ := returns_bind (show (returns (ix.get st.index k.bytes) >>= _) = _ from hp)
      rcases Classical.em (v = 0) with hz | hz
      · rw [if_pos hz] at hp
        obtain ⟨-, rfl⟩ := Prod.mk.inj (Except.ok.inj hp)
        exact changes_nil he
      · rw [if_neg hz] at hp
        cases ht : readTmp st.dataFile v with
        | error e => rw [ht] at hp; cases hp
        | ok t =>
            obtain ⟨bodyLen, flag, expire⟩ := t
            rw [ht] at hp
            rcases Classical.em (bodyLen < 0 ∨ (HEADER_BUF_SIZE : Int) ≤ bodyLen) with hb | hb
            · simp only [bind, Except.bind, pure, Except.pure, if_pos hb] at hp
              cases hp
            · simp only [bind, Except.bind, pure, Except.pure, if_neg hb] at hp
              obtain ⟨-, rfl⟩ := Prod.mk.inj (Except.ok.inj hp)
              exact changes_storeActs (k := k) ⟨delta, rfl⟩ rfl (lt_of_le_of_lt (length_decimal_wrap32 _) (by decide)) he

/-! ## The loop of `get` -/

theorem getValue_changes {g : Getting ι} {w : List UInt8} (hoff : offsetOf m w ≠ 0) (hshort : w.length < MAX_KEY_SIZE) :
    Ends (fun _ => True) (fun g' => Changes ix.toIndex (fun key => key.bytes = w) g.store g'.store)
      (getValue ix now rSign w (offsetOf m w) g) := by
  rw [getValue]
  cases readTmp g.store.dataFile (offsetOf m w) with
  | error e => trivial
  | ok t =>
      obtain ⟨bodyLen, flag, expire⟩ := t
      simp only [bind, Except.bind]
      split_ifs with hx hneg
      · obtain ⟨key, rfl⟩ := exists_key_of_offsetOf hoff
        cases he : Act.execAll ix.toIndex g.store (deleteActs key.bytes) with
        | error e => trivial
        | ok st' =>
            exact ends_pure.mpr (.one (k := ⟨key, hshort⟩) rfl (.removed (execAll_deleteActs he)))
      · exact ends_pure.mpr (.refl _)
      all_goals first | trivial | exact ends_pure.mpr (.refl _)

theorem getLoop_changes (hw : ix.Works V) {header : Buf} : ∀ {fuel i : Nat} {m : Key → Nat} {g : Getting ι},
    V.Rep g.store.index m → Ends (fun _ => True)
      (fun g' => ∃ ws, wordsFrom header fuel i = some ws ∧
        Changes ix.toIndex (fun key => key.bytes ∈ ws) g.store g'.store) (getLoop ix now rSign header fuel i g) := by
  intro fuel
  induction fuel with
  | zero => intro i m g hr; trivial
  | succ fuel ih =>
      intro i m g hr
      cases hs : Buf.span (fun b => b = 32 || b = 0) (MAX_BODY_SIZE - i) header i with
      | none =>
          rw [getLoop, wordLen, hs]
          trivial
      | some n =>
          have h0 := (notMem_word hs).1
          rcases Nat.lt_or_ge n MAX_KEY_SIZE with hlt | hge
          · rcases Nat.lt_or_ge g.total VALUE_BUF_SIZE with hspace | hfull
            · rw [getLoop_succ hs hlt (hw.get_word hr h0) hspace, wordsFrom_succ hs]
              refine Ends.bind (Q := fun g' => Changes ix.toIndex (fun key => key.bytes = header.read i n) g.store
                g'.store) ?_ ?_
              · rcases Nat.eq_zero_or_pos (offsetOf m (header.read i n)) with hz | hpos
                · rw [if_neg (by omega)]
                  exact ends_pure.mpr (.refl _)
                · rw [if_pos hpos]
                  exact getValue_changes (g := g.terminated) (by omega) (by rwa [Buf.length_read])
              · intro g' hg'
                split_ifs
                · exact ⟨_, rfl, hg'.imp fun key hk => List.mem_singleton.mpr hk⟩
                · obtain ⟨m', hr', -⟩ := hg'.framed hw hr
                  refine Ends.imp (ih hr') ?_
                  rintro g'' ⟨ws, hws, hrest⟩
                  exact ⟨_, by rw [hws]; rfl, (hg'.imp fun key hk => List.mem_cons.mpr (Or.inl hk)).trans
                    (hrest.imp fun key hk => List.mem_cons_of_mem _ hk)⟩
            · rw [getLoop, wordLen, hs]
              simp only [bind, Except.bind, if_neg (Nat.not_le.mpr hlt), hw.get_word hr h0, returns,
                Option.elim_some, if_pos hfull]
              trivial
          · rw [getLoop, wordLen, hs]
            simp only [bind, Except.bind, if_pos hge]
            trivial

theorem cmdDoGet_changes (hw : ix.Works V) (hr : V.Rep st.index m) (header valueBuf : Buf) :
    Ends (fun _ => True)
      (fun r => Changes ix.toIndex (fun key => ∃ ws, getWords header = some ws ∧ key.bytes ∈ ws) st r.2.1)
      (cmdDoGet ix now rSign header st valueBuf) := by
  rw [cmdDoGet, wordLen, Nat.sub_zero]
  unfold getWords
  cases hs : Buf.span (fun b => b = 32 || b = 0) MAX_BODY_SIZE header 0 with
  | none => trivial
  | some n =>
      refine Ends.bind (Q := (· = n)) rfl ?_
      rintro _ rfl
      refine Ends.bind (getLoop_changes hw (g := ⟨st, valueBuf, 0⟩) hr) ?_
      rintro g ⟨ws, hws, hchanges⟩
      split_ifs
      · trivial
      · exact ends_pure.mpr (hchanges.imp fun key hk => ⟨ws, hws, hk⟩)

/-! ## `handle_cmd` -/

/-- A request stores and removes records under keys that its line names. -/
theorem handleCmd_changes (hw : ix.Works V) {sh : Shared ι} (hr : V.Rep sh.store.index m) (s : Scratch)
    (headerLen : Nat) (bodyLen : Int) :
    Ends (fun _ => True)
      (fun r => Changes ix.toIndex (Names (s.line headerLen) (s.headBuf.write headerLen [0])) sh.store r.2.2.store)
      (handleCmd ix now s headerLen bodyLen sh) := by
  refine Ends.bind (Ends.excuse (terminate_ends s headerLen bodyLen) fun _ _ => trivial) ?_
  rintro s' ⟨-, hbuf, hline⟩
  rw [hline, ← hbuf]
  refine Ends.bind (Q := fun r => Changes ix.toIndex (Names (s.line headerLen) s'.headBuf) sh.store r.2.store) ?_
    (by rintro ⟨answer, sh'⟩ hchanges; exact hchanges)
  have h0 : 0 ∉ s.line headerLen := notMem_cstr _
  unfold runCmd Names
  cases hm : methodOf (s.line headerLen) with
  | set => exact Ends.map (cmdDoSet_changes h0 _) fun _ h => h
  | gets => exact Ends.map (cmdDoGet_changes hw hr _ _) fun _ h => h
  | get => exact Ends.map (cmdDoGet_changes hw hr _ _) fun _ h => h
  | below => exact Ends.map (ends_trivial _) fun _ _ => Changes.refl _
  | less => exact Ends.map (ends_trivial _) fun _ _ => Changes.refl _
  | greater => exact Ends.map (ends_trivial _) fun _ _ => Changes.refl _
  | cas => exact Ends.map (cmdDoCas_changes h0 _) fun _ h => h
  | delete => exact Ends.map (cmdDoDelete_changes h0) fun _ h => h
  | incr => exact Ends.map (incrOrDecr_changes h0 false) fun _ h => h
  | decr => exact Ends.map (incrOrDecr_changes h0 true) fun _ h => h
  | quit => exact ends_ok.mpr (.refl _)
  | unknown => exact ends_ok.mpr (.refl _)

/-- It changes no other key, and appends to the data file. -/
theorem handleCmd_framed (hw : ix.Works V) {sh : Shared ι} (hr : V.Rep sh.store.index m) (s : Scratch)
    (headerLen : Nat) (bodyLen : Int) :
    Ends (fun _ => True)
      (fun r => Framed V m (Names (s.line headerLen) (s.headBuf.write headerLen [0])) sh.store r.2.2.store)
      (handleCmd ix now s headerLen bodyLen sh) :=
  Ends.imp (handleCmd_changes hw hr s headerLen bodyLen) fun _ h => h.framed hw hr

end Framed

end Tstdb
