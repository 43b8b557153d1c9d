/-
# `Tstdb.Server.Absent` — expired keys and absent keys

An expired record stays where the index leads until a `get` meets it.  For `get` and
`gets` the key is absent all the same: the reply is what it is on the store without
the key.  The other commands do not look at the expiry, so they see the key, and the
replies differ exactly where the key is what they ask about (`expired_is_absent`).
-/
import Mathlib
import Tstdb.Lib.CText
import Tstdb.Lib.Bytes
import Tstdb.Lib.Outcome
import Tstdb.Tst.Arena
import Tstdb.Tst.Runs
import Tstdb.Tst.Scan
import Tstdb.Tst.Ranges
import Tstdb.Server.Index
import Tstdb.Server.Store
import Tstdb.Server.Sections
import Tstdb.Server.View
import Tstdb.Server.Boot
import Tstdb.Server.Pool
import Tstdb.Server.Commands
import Tstdb.Server.Values
import Tstdb.Server.Replies

namespace Tstdb

open CText Bytes Outcome

/-- The store without the key: its data file is the same, and so is its binlog. -/
def Store.without (st : Store KeyMap) (key : Key) : Store KeyMap := { st with index := st.index.delete key.bytes }

/-- The computation returns with the reply. -/
def Says {β : Type} (x : Except Fault (List (List UInt8) × β)) (reply : List UInt8) : Prop :=
  ∃ r, x = .ok r ∧ r.1.flatten = reply

/-- What an index of keys leads to. -/
def KeyMap.offsets (i : KeyMap) (key : Key) : Nat := i.get key.bytes

/-! ## Plans that are the same -/

section Plans

variable {i i' : KeyMap} {data log : List UInt8} {st₁ : Store KeyMap} {reply : Reply}

/-- What can be done with one index can be done with another. -/
theorem execAll_index : ∀ {acts : List Act} {i i' : KeyMap} {data log : List UInt8} {st₁ : Store KeyMap},
    Act.execAll Index.map ⟨i, data, log⟩ acts = .ok st₁ →
      ∃ st₁', Act.execAll Index.map ⟨i', data, log⟩ acts = .ok st₁' := by
  intro acts
  induction acts with
  | nil => exact fun _ => ⟨_, rfl⟩
  | cons a acts ih =>
      intro i i' data log st₁ h
      obtain ⟨s, ha, h⟩ := Act.execAll_cons h
      cases a with
      | data bs =>
          obtain ⟨rfl, hlen⟩ := Act.exec_data ha
          obtain ⟨st₁', h'⟩ := @ih i i' _ _ _ h
          have e : (Act.data bs).exec Index.map ⟨i', data, log⟩ = .ok ⟨i', data ++ bs, log⟩ := Act.exec_data_eq hlen
          exact ⟨st₁', by rw [Act.execAll_cons_eq e]; exact h'⟩
      | log bs =>
          simp only [Act.exec] at ha
          split_ifs at ha with hlen
          obtain rfl := Except.ok.inj ha
          obtain ⟨st₁', h'⟩ := @ih i i' _ _ _ h
          have e : (Act.log bs).exec Index.map ⟨i', data, log⟩ = .ok ⟨i', data, log ++ bs⟩ := Act.exec_log_eq hlen
          exact ⟨st₁', by rw [Act.execAll_cons_eq e]; exact h'⟩
      | apply op =>
          obtain ⟨j, -, rfl⟩ := Act.exec_apply ha
          obtain ⟨j', hj'⟩ : ∃ j', op.exec Index.map i' = some j' := by
            cases op with
            | put key value => exact ⟨_, rfl⟩
            | delete key => exact ⟨_, rfl⟩
          obtain ⟨st₁', h'⟩ := @ih j j' _ _ _ h
          exact ⟨st₁', by rw [Act.execAll_cons_eq (Act.exec_apply_eq op hj')]; exact h'⟩

theorem perform_inv {plan : Except Fault (Reply × List Act)} {st : Store KeyMap}
    (h : perform ScanIndex.map st plan = .ok (reply, st₁)) :
    ∃ acts, plan = .ok (reply, acts) ∧ Act.execAll Index.map st acts = .ok st₁ := by
  cases plan with
  | error e => cases h
  | ok p =>
      obtain ⟨reply', acts⟩ := p
      cases he : Act.execAll Index.map st acts with
      | error e =>
          simp only [perform, bind, Except.bind] at h
          rw [show Act.execAll ScanIndex.map.toIndex st acts = _ from he] at h
          cases h
      | ok st' =>
          rw [perform_ok reply' he] at h
          obtain ⟨rfl, rfl⟩ := Prod.mk.inj (Except.ok.inj h)
          exact ⟨acts, rfl, he⟩

/-- A plan that is the same is answered the same. -/
theorem perform_index {plan : Except Fault (Reply × List Act)}
    (h : perform ScanIndex.map ⟨i, data, log⟩ plan = .ok (reply, st₁)) :
    ∃ st₁', perform ScanIndex.map ⟨i', data, log⟩ plan = .ok (reply, st₁') := by
  obtain ⟨acts, rfl, he⟩ := perform_inv h
  obtain ⟨st₁', he'⟩ := execAll_index he
  exact ⟨st₁', perform_ok reply he'⟩

end Plans

/-! ## The commands on one key -/

section Single

variable {st : Store KeyMap} {key : WireKey} {line : List UInt8} {now : Int} {chunks : List (List UInt8)}
  {st₁ : Store KeyMap}

theorem Store.without_get_same : ScanIndex.map.get (st.without key.toKey).index key.bytes = some 0 :=
  congrArg some (KeyMap.get_delete_same _ _)

theorem Store.without_get_other {k : List UInt8} (h : k ≠ key.bytes) :
    ScanIndex.map.get (st.without key.toKey).index k = ScanIndex.map.get st.index k :=
  congrArg some (KeyMap.get_delete_other _ h)

/-- What was scanned from the line on one store is scanned on the other. -/
theorem scanned_bind {α β : Type} {fmt : String} {arrays : List (CArray × Nat)} {args : Option α}
    {f : Option α → Except Fault β} {b : β} (h : (scanned line fmt arrays args >>= f) = .ok b) :
    overruns (sscanf line fmt) arrays = [] ∧ f args = .ok b ∧ ∀ g : Option α → Except Fault β,
      (scanned line fmt arrays args >>= g) = g args := by
  unfold scanned at h ⊢
  cases ho : overruns (sscanf line fmt) arrays with
  | nil =>
      rw [ho] at h
      exact ⟨rfl, h, fun _ => rfl⟩
  | cons a as =>
      rw [ho] at h
      cases h

/-- A section that replies, and sends what `f` makes of the reply. -/
theorem replied_bind {plan : Except Fault (Reply × List Act)} {st : Store KeyMap} {f : Reply → List (List UInt8)}
    (h : (perform ScanIndex.map st plan >>= fun r => pure (f r.1, r.2)) = .ok (chunks, st₁)) :
    ∃ reply, perform ScanIndex.map st plan = .ok (reply, st₁) ∧ chunks = f reply := by
  cases hp : perform ScanIndex.map st plan with
  | error e =>
      rw [hp] at h
      cases h
  | ok r =>
      rw [hp] at h
      obtain ⟨rfl, rfl⟩ := Prod.mk.inj (Except.ok.inj h)
      exact ⟨r.1, rfl, rfl⟩

/-- With the same plan the reply is the same. -/
theorem says_of_plan {plan : Except Fault (Reply × List Act)} {f : Reply → List (List UInt8)}
    (h : (perform ScanIndex.map (st.without key.toKey) plan >>= fun r => pure (f r.1, r.2)) = .ok (chunks, st₁)) :
    Says (perform ScanIndex.map st plan >>= fun r => pure (f r.1, r.2)) chunks.flatten := by
  obtain ⟨reply, hp, rfl⟩ := replied_bind h
  obtain ⟨st₁', hp'⟩ := perform_index hp
  exact ⟨(f reply, st₁'), by rw [show perform ScanIndex.map st plan = _ from hp']; rfl, rfl⟩

/-- `delete` tells an expired key from an absent one. -/
theorem cmdDoDelete_replies (hkey : st.index.get key.bytes ≠ 0)
    (h : cmdDoDelete ScanIndex.map line (st.without key.toKey) = .ok (chunks, st₁)) :
    Says (cmdDoDelete ScanIndex.map line st) chunks.flatten ↔ deleteArgs line ≠ some key.bytes := by
  obtain ⟨-, hrest, hscan⟩ := scanned_bind h
  rw [show cmdDoDelete ScanIndex.map line st = _ from hscan _]
  cases ha : deleteArgs line with
  | none =>
      rw [ha] at hrest
      obtain ⟨rfl, -⟩ := Prod.mk.inj (Except.ok.inj hrest)
      exact iff_of_true ⟨_, rfl, rfl⟩ (by simp)
  | some k =>
      rw [ha] at hrest
      rcases Classical.em (k = key.bytes) with rfl | hne
      · refine iff_of_false ?_ fun hno => hno rfl
        rintro ⟨⟨chunks', st₁'⟩, hr, hflat⟩
        obtain ⟨reply, hp, rfl⟩ := replied_bind (f := fun reply => [reply.text]) hr
        obtain ⟨reply', hp', rfl⟩ := replied_bind (f := fun reply => [reply.text]) hrest
        obtain ⟨acts, hplan, -⟩ := perform_inv hp
        obtain ⟨acts', hplan', -⟩ := perform_inv hp'
        have hv : ScanIndex.map.get st.index key.bytes = some (st.index.get key.bytes) := rfl
        simp only [deletePlan, hv, Store.without_get_same, returns, Option.elim_some, bind, Except.bind, hkey,
          if_false, if_true, pure, Except.pure] at hplan hplan'
        obtain ⟨rfl, -⟩ := Prod.mk.inj (Except.ok.inj hplan)
        obtain ⟨rfl, -⟩ := Prod.mk.inj (Except.ok.inj hplan')
        exact absurd (show [Reply.deleted.text].flatten = [Reply.notFound.text].flatten from hflat) (by decide)
      · have hplan : deletePlan ScanIndex.map.toIndex (st.without key.toKey) k = deletePlan ScanIndex.map.toIndex st k := by
          rw [deletePlan, Store.without_get_other hne, deletePlan]
        refine iff_of_true ?_ fun he => hne (Option.some.inj he)
        simp only [hplan] at hrest
        exact says_of_plan (f := fun reply => [reply.text]) hrest

theorem decimal_ne_notFound (n : Int) : decimal n ++ ascii "\r\n" ≠ ascii "NOT_FOUND\r\n" := fun he => by
  obtain ⟨b, bs, hb⟩ := List.exists_cons_of_ne_nil (decimal_ne_nil n)
  have hle := (le_of_mem_decimal (n := n) (b := b) (by rw [hb]; exact List.mem_cons_self ..)).2
  rw [hb, show ascii "NOT_FOUND\r\n" = 78 :: ascii "OT_FOUND\r\n" by decide] at he
  obtain rfl : b = 78 := (List.cons.inj he).1
  exact absurd hle (by decide)

/-- So do `incr` and `decr`. -/
theorem incrOrDecr_replies (hkey : st.index.get key.bytes ≠ 0) {isDecr : Bool}
    (h : incrOrDecr ScanIndex.map line isDecr (st.without key.toKey) = .ok (chunks, st₁)) :
    Says (incrOrDecr ScanIndex.map line isDecr st) chunks.flatten ↔
      ∀ delta, incrOrDecrArgs line ≠ some (key.bytes, delta) := by
  obtain ⟨-, hrest, hscan⟩ := scanned_bind h
  rw [show incrOrDecr ScanIndex.map line isDecr st = _ from hscan _]
  cases ha : incrOrDecrArgs line with
  | none =>
      rw [ha] at hrest
      obtain ⟨rfl, -⟩ := Prod.mk.inj (Except.ok.inj hrest)
      exact iff_of_true ⟨_, rfl, rfl⟩ (by simp)
  | some args =>
      obtain ⟨k, delta⟩ := args
      rw [ha] at hrest
      rcases Classical.em (k = key.bytes) with rfl | hne
      · refine iff_of_false ?_ fun hno => hno delta rfl
        rintro ⟨⟨chunks', st₁'⟩, hr, hflat⟩
        obtain ⟨reply, hp, rfl⟩ := replied_bind (f := fun reply => [reply.text]) hr
        obtain ⟨reply', hp', rfl⟩ := replied_bind (f := fun reply => [reply.text]) hrest
        obtain ⟨acts, hplan, -⟩ := perform_inv hp
        obtain ⟨acts', hplan', -⟩ := perform_inv hp'
        have hv : ScanIndex.map.get st.index key.bytes = some (st.index.get key.bytes) := rfl
        simp only [incrOrDecrPlan, hv, Store.without_get_same, returns, Option.elim_some, bind, Except.bind, hkey,
          if_false, if_true, pure, Except.pure] at hplan hplan'
        obtain ⟨rfl, -⟩ := Prod.mk.inj (Except.ok.inj hplan')
        cases ht : readTmp st.dataFile (st.index.get key.bytes) with
        | error e =>
            rw [ht] at hplan
            cases hplan
        | ok t =>
            rw [ht] at hplan
            rcases Classical.em (t.1 < 0 ∨ (HEADER_BUF_SIZE : Int) ≤ t.1) with hb | hb
            · simp only [if_pos hb] at hplan
              cases hplan
            · simp only [if_neg hb] at hplan
              obtain ⟨rfl, -⟩ := Prod.mk.inj (Except.ok.inj hplan)
              exact decimal_ne_notFound _ (by simpa [Reply.text] using hflat)
      · have hplan : incrOrDecrPlan ScanIndex.map.toIndex (st.without key.toKey) k delta isDecr =
            incrOrDecrPlan ScanIndex.map.toIndex st k delta isDecr := by
          rw [incrOrDecrPlan, Store.without_get_other hne, incrOrDecrPlan]
          rfl
        refine iff_of_true ?_ fun delta' he => hne (Prod.mk.inj (Option.some.inj he)).1
        simp only [hplan] at hrest
        exact says_of_plan (f := fun reply => [reply.text]) hrest

/-- `set` does not read what it replaces. -/
theorem cmdDoSet_replies {body : Buf} (h : cmdDoSet ScanIndex.map now line body (st.without key.toKey) = .ok (chunks, st₁)) :
    Says (cmdDoSet ScanIndex.map now line body st) chunks.flatten := by
  obtain ⟨-, hrest, hscan⟩ := scanned_bind h
  rw [show cmdDoSet ScanIndex.map now line body st = _ from hscan _]
  cases ha : setArgs line with
  | none =>
      rw [ha] at hrest
      obtain ⟨rfl, -⟩ := Prod.mk.inj (Except.ok.inj hrest)
      exact ⟨_, rfl, rfl⟩
  | some args =>
      obtain ⟨k, flag, expire, bodyLen⟩ := args
      rw [ha] at hrest
      simp only at hrest ⊢
      rcases lt_or_ge bodyLen 0 with hneg | hpos
      · rw [if_pos hneg] at hrest ⊢
        obtain ⟨rfl, -⟩ := Prod.mk.inj (Except.ok.inj hrest)
        exact ⟨_, rfl, rfl⟩
      · rw [if_neg (by omega)] at hrest ⊢
        cases hb : bodyOf body bodyLen with
        | error e =>
            rw [hb] at hrest
            cases hrest
        | ok bytes =>
            rw [hb] at hrest
            exact says_of_plan (f := fun reply => sendUnlessNoreply line reply.text) hrest

/-- Two different messages are told apart unless neither is sent. -/
theorem sendUnlessNoreply_flatten {msg msg' : List UInt8} (hne : msg ≠ msg') :
    (sendUnlessNoreply line msg).flatten = (sendUnlessNoreply line msg').flatten ↔
      endsWith line (ascii " noreply") = true := by
  unfold sendUnlessNoreply
  cases endsWith line (ascii " noreply") with
  | true => simp
  | false => simpa using hne

/-- A `cas` compares its sign with the offset that is still there. -/
def CasUnseen (line : List UInt8) (key : WireKey) (offset : Nat) : Prop :=
  ∀ flag expire bodyLen sign, casArgs line = some (key.bytes, flag, expire, bodyLen, sign) → 0 ≤ bodyLen →
    (sign ≠ 0 ∧ sign ≠ offset) ∨
      (endsWith line (ascii " noreply") = true ∧ (sign = offset → bodyLen ≤ MAX_BODY_SIZE))

theorem cmdDoCas_replies (hkey : st.index.get key.bytes ≠ 0) (hroom : st.Roomy) {body : Buf}
    (h : cmdDoCas ScanIndex.map line body (st.without key.toKey) = .ok (chunks, st₁)) :
    Says (cmdDoCas ScanIndex.map line body st) chunks.flatten ↔ CasUnseen line key (st.index.get key.bytes) := by
  obtain ⟨-, hrest, hscan⟩ := scanned_bind h
  rw [show cmdDoCas ScanIndex.map line body st = _ from hscan _]
  unfold CasUnseen
  cases ha : casArgs line with
  | none =>
      rw [ha] at hrest
      obtain ⟨rfl, -⟩ := Prod.mk.inj (Except.ok.inj hrest)
      exact iff_of_true ⟨_, rfl, rfl⟩ (by simp)
  | some args =>
      obtain ⟨k, flag, expire, bodyLen, sign⟩ := args
      rw [ha] at hrest
      simp only at hrest ⊢
      rcases lt_or_ge bodyLen 0 with hneg | hpos
      · rw [if_pos hneg] at hrest ⊢
        obtain ⟨rfl, -⟩ := Prod.mk.inj (Except.ok.inj hrest)
        refine iff_of_true ⟨_, rfl, rfl⟩ fun flag' expire' bodyLen' sign' he hpos => ?_
        obtain ⟨-, -, -, rfl, -⟩ := by simpa using he
        omega
      · rw [if_neg (by omega)] at hrest ⊢
        have hv : ScanIndex.map.get st.index k = some (st.index.get k) := rfl
        rcases Classical.em (k = key.bytes) with rfl | hne
        · rw [casActs_eq Store.without_get_same] at hrest
          rw [casActs_eq hv]
          have hcond : (∀ flag' expire' bodyLen' sign', some (key.bytes, flag, expire, bodyLen, sign) =
              some (key.bytes, flag', expire', bodyLen', sign') → 0 ≤ bodyLen' →
                (sign' ≠ 0 ∧ sign' ≠ st.index.get key.bytes) ∨ (endsWith line (ascii " noreply") = true ∧
                  (sign' = st.index.get key.bytes → bodyLen' ≤ MAX_BODY_SIZE))) ↔
              ((sign ≠ 0 ∧ sign ≠ st.index.get key.bytes) ∨ (endsWith line (ascii " noreply") = true ∧
                (sign = st.index.get key.bytes → bodyLen ≤ MAX_BODY_SIZE))) := by
            constructor
            · exact fun hall => hall _ _ _ _ rfl hpos
            · intro hone flag' expire' bodyLen' sign' he _
              obtain ⟨-, -, rfl, rfl⟩ := by simpa using he
              exact hone
          rw [hcond]
          rcases Classical.em (sign = 0) with rfl | hs
          -- the removed key has this sign
          · rw [if_neg hkey]
            rw [if_pos rfl] at hrest
            obtain ⟨reply, hp, rfl⟩ := replied_bind (f := fun reply => sendUnlessNoreply line reply.text) hrest
            obtain ⟨acts, hplan, -⟩ := perform_inv hp
            split_ifs at hplan with hbig
            obtain ⟨rfl, -⟩ := Prod.mk.inj (Except.ok.inj hplan)
            have hdiff : Reply.text .exists ≠ Reply.text .stored := by decide
            constructor
            · rintro ⟨r, hr, hflat⟩
              obtain rfl := Except.ok.inj hr
              exact Or.inr ⟨(sendUnlessNoreply_flatten hdiff).mp hflat, fun he => absurd he.symm hkey⟩
            · rintro (⟨hno, -⟩ | ⟨hn, -⟩)
              · exact absurd rfl hno
              · exact ⟨_, rfl, (sendUnlessNoreply_flatten hdiff).mpr hn⟩
          · rw [if_neg (Ne.symm hs)] at hrest
            obtain ⟨rfl, -⟩ := Prod.mk.inj (Except.ok.inj hrest)
            have hdiff : Reply.text .stored ≠ Reply.text .exists := by decide
            rcases Classical.em (st.index.get key.bytes = sign) with hsame | hother
            · rw [if_pos hsame]
              rcases lt_or_ge (MAX_BODY_SIZE : Int) bodyLen with hbig | hle
              · rw [if_pos hbig]
                refine iff_of_false ?_ ?_
                · rintro ⟨r, hr, -⟩
                  cases hr
                · rintro (⟨-, hno⟩ | ⟨-, hno⟩)
                  · exact hno hsame.symm
                  · exact absurd (hno hsame.symm) (by omega)
              · rw [if_neg (by omega)]
                have hrep : View.map.Rep st.index st.index.offsets := fun _ => rfl
                obtain ⟨st', hst'⟩ := perform_storeActs ScanIndex.map_works hrep hroom key .stored bodyLen flag expire
                  (body.read 0 bodyLen.toNat) (by rw [Buf.length_read]; omega)
                simp only [hst', bind, Except.bind, pure, Except.pure]
                constructor
                · rintro ⟨r, hr, hflat⟩
                  obtain rfl := Except.ok.inj hr
                  exact Or.inr ⟨(sendUnlessNoreply_flatten hdiff).mp hflat, fun _ => hle⟩
                · rintro (⟨-, hno⟩ | ⟨hn, -⟩)
                  · exact absurd hsame.symm hno
                  · exact ⟨_, rfl, (sendUnlessNoreply_flatten hdiff).mpr hn⟩
            · rw [if_neg hother]
              exact iff_of_true ⟨_, rfl, rfl⟩ (Or.inl ⟨hs, Ne.symm hother⟩)
        · have hplan : casActs ScanIndex.map (st.without key.toKey) k bodyLen flag expire body sign =
              casActs ScanIndex.map st k bodyLen flag expire body sign := by
            rw [casActs_eq (Store.without_get_other hne |>.trans hv), casActs_eq hv]
            rfl
          rw [hplan] at hrest
          refine iff_of_true (says_of_plan (f := fun reply => sendUnlessNoreply line reply.text) hrest)
            fun flag' expire' bodyLen' sign' he => absurd (Prod.mk.inj (Option.some.inj he)).1 hne

end Single

/-! ## The range commands -/

/-- Taking some of a list, with or without one of its members. -/
theorem take_filter_eq_iff {α : Type} [DecidableEq α] (a : α) : ∀ (l : List α) (n : Nat),
    (l.filter (· ≠ a)).take n = l.take n ↔ a ∉ l.take n := by
  intro l
  induction l with
  | nil => exact fun n => by simp
  | cons b l ih =>
      intro n
      cases n with
      | zero => simp
      | succ n =>
          rcases Classical.em (b = a) with rfl | hne
          · refine iff_of_false (fun he => ?_) (by simp)
            have hmem : b ∈ ((b :: l).filter (· ≠ b)).take (n + 1) := by
              rw [he]
              exact List.mem_cons_self ..
            exact absurd (List.mem_filter.mp (List.mem_of_mem_take hmem)).2 (by simp)
          · rw [List.filter_cons_of_pos (by simpa using hne), List.take_succ_cons, List.take_succ_cons,
              List.cons.injEq, ih n, List.mem_cons, not_or]
            exact ⟨fun h => ⟨Ne.symm hne, h.2⟩, fun h => ⟨rfl, h.2⟩⟩

/-- What a call lists of the keys without one of them. -/
theorem ListCall.part_filter (p : List UInt8 → Bool) (ks : List (List UInt8)) (call : ListCall) :
    call.part (ks.filter p) = (call.part ks).filter p := by
  cases call with
  | below pre limit sortingOrder =>
      cases sortingOrder <;> simp [ListCall.part, SortingOrder.list, List.filter_filter, Bool.and_comm]
  | less key limit => simp [ListCall.part, List.filter_filter, Bool.and_comm]
  | greater key limit => simp [ListCall.part, List.filter_filter, Bool.and_comm]

/-- Keys without a carriage return can be read off the text of a reply. -/
theorem resultText_injective : ∀ {ks ks' : List (List UInt8)}, (∀ k ∈ ks, 13 ∉ k) → (∀ k ∈ ks', 13 ∉ k) →
    resultText ks = resultText ks' → ks = ks' := by
  have hcrlf : ascii "\r\n" = [13, 10] := by decide
  have hno : ∀ {k : List UInt8}, 13 ∉ k → ∀ b ∈ k, (b != 13) = true := fun h b hb => by
    simpa using fun e : b = 13 => h (e ▸ hb)
  intro ks
  induction ks with
  | nil =>
      intro ks' _ _ h
      cases ks' with
      | nil => rfl
      | cons k' ks' =>
          have hlen := congrArg List.length h
          simp [resultText, hcrlf] at hlen
  | cons k ks ih =>
      intro ks' hk hk' h
      cases ks' with
      | nil =>
          have hlen := congrArg List.length h
          simp [resultText, hcrlf] at hlen
      | cons k' ks' =>
          obtain ⟨hk, hks⟩ := List.forall_mem_cons.mp hk
          obtain ⟨hk', hks'⟩ := List.forall_mem_cons.mp hk'
          simp only [resultText, List.flatMap_cons, hcrlf, List.append_assoc, List.cons_append, List.nil_append] at h
          obtain ⟨rfl, -, h⟩ := token_unique (hno hk) (hno hk') (by decide) (by decide) h
          rw [ih hks hks' (List.cons.inj h).2]

theorem notMem_resultText {ks : List (List UInt8)} (h : ∀ k ∈ ks, 0 ∉ k) : 0 ∉ resultText ks := by
  intro hm
  obtain ⟨k, hk, hb⟩ := List.mem_flatMap.mp hm
  rcases List.mem_append.mp hb with hb | hb
  · exact h k hk hb
  · exact absurd hb (by decide)

/-- The keys of a store, as a command line can have carried them. -/
structure Keyed (st : Store KeyMap) (ks : List (List UInt8)) : Prop where
  listing : Listing st.index.offsets ks
  noReturn : ∀ k ∈ ks, 13 ∉ k

section Lists

variable {st : Store KeyMap} {key : WireKey} {ks : List (List UInt8)} {line : List UInt8} {call : ListCall}

theorem Keyed.without (h : Keyed st ks) (key : Key) : Keyed (st.without key) (ks.filter (· ≠ key.bytes)) where
  listing := by
    refine ⟨h.listing.sorted.filter _, fun k => ?_⟩
    simp only [List.mem_filter, decide_eq_true_eq, h.listing.mem]
    constructor
    · rintro ⟨⟨key', rfl, hne⟩, hk⟩
      refine ⟨key', rfl, ?_⟩
      rw [KeyMap.offsets, Store.without, KeyMap.get_delete_other _ hk]
      exact hne
    · rintro ⟨key', rfl, hne⟩
      have hk : key'.bytes ≠ key.bytes := fun e => hne (by
        rw [KeyMap.offsets, Store.without, e, KeyMap.get_delete_same])
      rw [KeyMap.offsets, Store.without, KeyMap.get_delete_other _ hk] at hne
      exact ⟨⟨key', rfl, hne⟩, hk⟩
  noReturn k hk := h.noReturn k (List.mem_filter.mp hk).1

/-- The keys that a call lists. -/
def ListCall.listed (ks : List (List UInt8)) (call : ListCall) : List (List UInt8) :=
  (call.part ks).take call.limit.toNat

theorem ListCall.mem_listed {k : List UInt8} (h : k ∈ call.listed ks) : k ∈ ks := by
  have hpart : k ∈ call.part ks := List.mem_of_mem_take h
  cases call with
  | below pre limit sortingOrder =>
      cases sortingOrder <;> simp only [ListCall.part, SortingOrder.list, List.mem_reverse] at hpart <;>
        exact (List.mem_filter.mp hpart).1
  | less key limit => exact (List.mem_filter.mp (List.mem_reverse.mp hpart)).1
  | greater key limit => exact (List.mem_filter.mp hpart).1

theorem Keyed.nul (h : Keyed st ks) : ∀ k ∈ call.listed ks, 0 ∉ k := fun k hk => by
  obtain ⟨key, rfl, -⟩ := (h.listing.mem k).mp (ListCall.mem_listed hk)
  exact key.nul

theorem Keyed.sendKeys_eq (h : Keyed st ks) (call : ListCall) :
    sendKeys ScanIndex.map st (some call) =
      if PREFIX_BUF_SIZE ≤ (resultText (call.listed ks)).length then .error (.overrun .gPrefixBuf)
      else .ok [ascii "KEYS " ++ decimal (call.listed ks).length ++ ascii " " ++
          decimal (resultText (call.listed ks)).length ++ ascii "\r\n", resultText (call.listed ks), ascii "END\r\n"] := by
  have hlist : ScanIndex.map.list st.index call = some (call.listed ks, ((call.listed ks).length : Int)) :=
    ScanIndex.map_lists (show View.map.Rep st.index st.index.offsets from fun _ => rfl) h.listing call
  simp only [sendKeys, hlist, returns, Option.elim_some, bind, Except.bind,
    cstr_of_nul_free (notMem_resultText h.nul)]
  rfl

/-- A range command lists an expired key like any other. -/
theorem sendKeys_replies (h : Keyed st ks) {args : Option ListCall} {chunks : List (List UInt8)}
    (he : sendKeys ScanIndex.map (st.without key.toKey) args = .ok chunks) :
    (∃ chunks', sendKeys ScanIndex.map st args = .ok chunks' ∧ chunks'.flatten = chunks.flatten) ↔
      ∀ call, args = some call → key.bytes ∉ call.listed ks := by
  cases args with
  | none => exact iff_of_true ⟨_, rfl, congrArg List.flatten (Except.ok.inj he)⟩ fun call hc => absurd hc (by simp)
  | some call =>
      have hwithout := h.without key.toKey
      rw [hwithout.sendKeys_eq] at he
      have hlisted : call.listed (ks.filter (· ≠ key.bytes)) = call.listed ks ↔ key.bytes ∉ call.listed ks := by
        unfold ListCall.listed
        rw [ListCall.part_filter]
        exact take_filter_eq_iff _ _ _
      have hcall : (∀ call', some call = some call' → key.bytes ∉ call'.listed ks) ↔ key.bytes ∉ call.listed ks :=
        ⟨fun hall => hall call rfl, fun hno call' e => Option.some.inj e ▸ hno⟩
      rw [hcall, ← hlisted, h.sendKeys_eq]
      split_ifs at he with hbig
      obtain rfl := Except.ok.inj he
      constructor
      · rintro ⟨chunks', hr, hflat⟩
        split_ifs at hr
        obtain rfl := Except.ok.inj hr
        have hkeys : keysText (call.listed ks).length (resultText (call.listed ks)) ++ [] =
            keysText (call.listed (ks.filter (· ≠ key.bytes))).length
              (resultText (call.listed (ks.filter (· ≠ key.bytes)))) ++ [] := by
          simpa [keysText] using hflat
        exact resultText_injective (fun k hk => hwithout.noReturn k (ListCall.mem_listed hk))
          (fun k hk => h.noReturn k (ListCall.mem_listed hk)) (keysText_parts hkeys).2.symm
      · intro hsame
        rw [← hsame, if_neg hbig]
        exact ⟨_, rfl, rfl⟩

end Lists

/-! ## `get` and `gets` -/

section Get

variable {st : Store KeyMap} {key : WireKey} {r : Record} {now : Int}

/-- Without the key the index leads where it leads once the key has expired. -/
theorem Store.without_offsets (hkey : st.index.get key.bytes ≠ 0)
    (hrec : recordAt st.dataFile (st.index.get key.bytes) = some r) (hx : r.expired now) :
    (st.without key.toKey).index.offsets = forget st.dataFile now st.index.offsets key.bytes := by
  have hof : recordOf st.index.offsets st.dataFile key.bytes = some (st.index.get key.bytes, r) := by
    rw [recordOf, offsetOf_key]
    simp only [KeyMap.offsets, hkey, if_false, hrec, Option.map_some]
  funext k
  rw [forget, hof]
  simp only [hx, if_true]
  rcases Classical.em (k.bytes = key.bytes) with he | he
  · rw [if_pos he, KeyMap.offsets, he]
    exact KeyMap.get_delete_same _ _
  · rw [if_neg he]
    exact KeyMap.get_delete_other _ he

/-- `get` and `gets` answer alike. -/
theorem cmdDoGet_replies (hc : Complete st.index.offsets st.dataFile) (hroom : st.Roomy)
    (hkey : st.index.get key.bytes ≠ 0) (hrec : recordAt st.dataFile (st.index.get key.bytes) = some r)
    (hx : r.expired now) {rSign : Bool} {header valueBuf : Buf} {chunks : List (List UInt8)} {x : Store KeyMap × Buf}
    (h : cmdDoGet ScanIndex.map now rSign header (st.without key.toKey) valueBuf = .ok (chunks, x)) :
    Says (cmdDoGet ScanIndex.map now rSign header st valueBuf) chunks.flatten := by
  have hoff := Store.without_offsets hkey hrec hx
  have hrep : View.map.Rep st.index st.index.offsets := fun _ => rfl
  have hrep' : View.map.Rep (st.without key.toKey).index (forget st.dataFile now st.index.offsets key.bytes) :=
    fun k => (congrFun hoff k).symm
  have hc' : Complete (forget st.dataFile now st.index.offsets key.bytes) (st.without key.toKey).dataFile := hc.forget
  obtain ⟨ws, hws, hfit, hchunks, -⟩ := (cmdDoGet_ends ScanIndex.map_works hrep' hc' valueBuf).ok h
  obtain ⟨hshort, hsize⟩ := hfit
  simp only at hchunks
  rw [getReply] at hchunks
  simp only [Store.without, valueBlock_forget] at hsize hchunks
  obtain ⟨y, hy, ws', hws', -, hy', -⟩ := (Ends.excuse (cmdDoGet_ends ScanIndex.map_works hrep hc valueBuf)
    fun e he => he ⟨hroom.log, ws, hws, hshort, hsize⟩).returns
  obtain rfl := Option.some.inj (hws.symm.trans hws')
  exact ⟨y, hy, by rw [hy', hchunks, getReply]⟩

end Get

/-! ## Any request -/

/-- The key is not what the request asks about, or the request cannot tell. -/
def Unseen (st : Store KeyMap) (ks : List (List UInt8)) (key : WireKey) (line : List UInt8) : Prop :=
  match methodOf line with
  | .cas => CasUnseen line key (st.index.get key.bytes)
  | .delete => deleteArgs line ≠ some key.bytes
  | .incr | .decr => ∀ delta, incrOrDecrArgs line ≠ some (key.bytes, delta)
  | .below => ∀ call, prefixArgs line = some call → key.bytes ∉ call.listed ks
  | .less => ∀ call, lessArgs line = some call → key.bytes ∉ call.listed ks
  | .greater => ∀ call, greaterArgs line = some call → key.bytes ∉ call.listed ks
  | _ => True

section Answers

variable {β : Type} {x x' : Except Fault (List (List UInt8) × β)} {chunks : List (List UInt8)} {P : Prop}

/-- The computation ends in an answer with the reply. -/
def Answers (x : Except Fault (Answer × Shared KeyMap)) (reply : List UInt8) : Prop :=
  ∃ chunks sh, x = .ok (.sent chunks, sh) ∧ chunks.flatten = reply

/-- An answer is what the command says. -/
theorem answers_map (f f' : β → Shared KeyMap) {sh : Shared KeyMap}
    (h : ∀ b, x' = .ok (chunks, b) → (Says x chunks.flatten ↔ P))
    (he : (x'.map fun r => (Answer.sent r.1, f' r.2)) = .ok (.sent chunks, sh)) :
    Answers (x.map fun r => (Answer.sent r.1, f r.2)) chunks.flatten ↔ P := by
  cases x' with
  | error e => cases he
  | ok r =>
      obtain rfl : r.1 = chunks := Answer.sent.inj (congrArg Prod.fst (Except.ok.inj he))
      rw [← h r.2 rfl]
      constructor
      · rintro ⟨chunks', sh', hx, hflat⟩
        cases x with
        | error e => cases hx
        | ok y =>
            obtain rfl : y.1 = chunks' := Answer.sent.inj (congrArg Prod.fst (Except.ok.inj hx))
            exact ⟨y, rfl, hflat⟩
      · rintro ⟨y, rfl, hflat⟩
        exact ⟨y.1, f y.2, rfl, hflat⟩

theorem answers_store {sh sh' sh₁ : Shared KeyMap} {x x' : Except Fault (List (List UInt8) × Store KeyMap)}
    (h : ∀ b, x' = .ok (chunks, b) → (Says x chunks.flatten ↔ P))
    (he : answerStore sh' x' = .ok (.sent chunks, sh₁)) : Answers (answerStore sh x) chunks.flatten ↔ P :=
  answers_map (fun st => { sh with store := st }) (fun st => { sh' with store := st }) h he

theorem answers_values {sh₁ : Shared KeyMap} {x x' : Except Fault (List (List UInt8) × Store KeyMap × Buf)}
    (h : ∀ b, x' = .ok (chunks, b) → (Says x chunks.flatten ↔ P))
    (he : answerValues x' = .ok (.sent chunks, sh₁)) : Answers (answerValues x) chunks.flatten ↔ P :=
  answers_map (fun p : Store KeyMap × Buf => ⟨p.1, p.2⟩) (fun p : Store KeyMap × Buf => ⟨p.1, p.2⟩) h he

theorem answers_keys {st st' : Store KeyMap} {sh sh' sh₁ : Shared KeyMap} {line : List UInt8} {fmt : String}
    {arrays : List (CArray × Nat)} {args : Option ListCall}
    (h : ∀ {chunks}, sendKeys ScanIndex.map st' args = .ok chunks →
      ((∃ chunks', sendKeys ScanIndex.map st args = .ok chunks' ∧ chunks'.flatten = chunks.flatten) ↔ P))
    (he : answerKeys sh' (scanned line fmt arrays args >>= sendKeys ScanIndex.map st') = .ok (.sent chunks, sh₁)) :
    Answers (answerKeys sh (scanned line fmt arrays args >>= sendKeys ScanIndex.map st)) chunks.flatten ↔ P := by
  cases hs : scanned line fmt arrays args >>= sendKeys ScanIndex.map st' with
  | error e =>
      rw [hs] at he
      cases he
  | ok chunks' =>
      rw [hs] at he
      obtain rfl : chunks' = chunks := Answer.sent.inj (congrArg Prod.fst (Except.ok.inj he))
      obtain ⟨-, hrest, hscan⟩ := scanned_bind hs
      rw [hscan, ← h hrest]
      constructor
      · rintro ⟨chunks₁, sh', hx, hflat⟩
        cases hx' : sendKeys ScanIndex.map st args with
        | error e =>
            rw [hx'] at hx
            cases hx
        | ok y =>
            rw [hx'] at hx
            obtain rfl : y = chunks₁ := Answer.sent.inj (congrArg Prod.fst (Except.ok.inj hx))
            exact ⟨y, rfl, hflat⟩
      · rintro ⟨y, hy, hflat⟩
        exact ⟨y, sh, by rw [hy]; rfl, hflat⟩

end Answers

section Requests

variable {st : Store KeyMap} {ks : List (List UInt8)} {key : WireKey} {r : Record} {now : Int} {s : Scratch}
  {valueBuf : Buf} {chunks : List (List UInt8)}

theorem runCmd_answers_unseen (hk : Keyed st ks) (hc : Complete st.index.offsets st.dataFile) (hroom : st.Roomy)
    (hkey : st.index.get key.bytes ≠ 0) (hrec : recordAt st.dataFile (st.index.get key.bytes) = some r)
    (hx : r.expired now) {line : List UInt8} {sh' : Shared KeyMap}
    (he : runCmd ScanIndex.map now line s ⟨st.without key.toKey, valueBuf⟩ = .ok (.sent chunks, sh')) :
    Answers (runCmd ScanIndex.map now line s ⟨st, valueBuf⟩) chunks.flatten ↔ Unseen st ks key line := by
  unfold runCmd at he ⊢
  unfold Unseen
  cases hm : methodOf line with
  | set =>
      rw [hm] at he
      exact answers_store (fun st₁ h => iff_of_true (cmdDoSet_replies h) trivial) he
  | gets =>
      rw [hm] at he
      exact answers_values
        (fun x h => iff_of_true (cmdDoGet_replies hc hroom hkey hrec hx h) trivial) he
  | get =>
      rw [hm] at he
      exact answers_values
        (fun x h => iff_of_true (cmdDoGet_replies hc hroom hkey hrec hx h) trivial) he
  | below =>
      rw [hm] at he
      exact answers_keys (sendKeys_replies hk) he
  | less =>
      rw [hm] at he
      exact answers_keys (sendKeys_replies hk) he
  | greater =>
      rw [hm] at he
      exact answers_keys (sendKeys_replies hk) he
  | cas =>
      rw [hm] at he
      exact answers_store (fun st₁ h => cmdDoCas_replies hkey hroom h) he
  | delete =>
      rw [hm] at he
      exact answers_store (fun st₁ h => cmdDoDelete_replies hkey h) he
  | incr =>
      rw [hm] at he
      exact answers_store (fun st₁ h => incrOrDecr_replies hkey h) he
  | decr =>
      rw [hm] at he
      exact answers_store (fun st₁ h => incrOrDecr_replies hkey h) he
  | quit =>
      rw [hm] at he
      cases he
  | unknown =>
      rw [hm] at he
      obtain ⟨hchunks, -⟩ := Prod.mk.inj (Except.ok.inj he)
      exact iff_of_true ⟨_, _, rfl, congrArg List.flatten (Answer.sent.inj hchunks)⟩ trivial

end Requests

/-- A request at a time when the key has expired is answered as on the store without
the key exactly if it does not see the key. -/
theorem expired_is_absent {st : Store KeyMap} {ks : List (List UInt8)} {key : WireKey} {r : Record} {now : Int}
    (hk : Keyed st ks) (hc : Complete st.index.offsets st.dataFile) (hroom : st.Roomy)
    (hkey : st.index.get key.bytes ≠ 0) (hrec : recordAt st.dataFile (st.index.get key.bytes) = some r)
    (hx : r.expired now) {s s' : Scratch} {headerLen : Nat} {bodyLen : Int} {valueBuf : Buf}
    {chunks : List (List UInt8)} {sh' : Shared KeyMap}
    (he : handleCmd ScanIndex.map now s headerLen bodyLen ⟨st.without key.toKey, valueBuf⟩
      = .ok (.sent chunks, s', sh')) :
    (∃ chunks₁ s₁ sh₁, handleCmd ScanIndex.map now s headerLen bodyLen ⟨st, valueBuf⟩ = .ok (.sent chunks₁, s₁, sh₁) ∧
        chunks₁.flatten = chunks.flatten) ↔ Unseen st ks key (s.line headerLen) := by
  have hbounds : headerLen < MAX_BODY_SIZE ∧ 0 ≤ bodyLen ∧ bodyLen < MAX_BODY_SIZE := by
    by_contra hno
    have hends := terminate_ends s headerLen bodyLen
    cases ht : terminate s headerLen bodyLen with
    | error e =>
        rw [handleCmd, ht] at he
        cases he
    | ok s₁ =>
        rw [ht] at hends
        exact hno hends.1
  rw [handleCmd_eq ScanIndex.map now s _ hbounds.1 hbounds.2] at he ⊢
  generalize (⟨s.headBuf.write headerLen [0], s.bodyBuf.write bodyLen.toNat [0]⟩ : Scratch) = s₁ at he ⊢
  cases hrun : runCmd ScanIndex.map now (s.line headerLen) s₁ ⟨st.without key.toKey, valueBuf⟩ with
  | error e =>
      rw [hrun] at he
      cases he
  | ok x =>
      rw [hrun] at he
      obtain ⟨hanswer, -⟩ := Prod.mk.inj (Except.ok.inj he)
      obtain ⟨answer, sh₁⟩ := x
      obtain rfl : answer = .sent chunks := hanswer
      rw [← runCmd_answers_unseen hk hc hroom hkey hrec hx hrun]
      cases runCmd ScanIndex.map now (s.line headerLen) s₁ ⟨st, valueBuf⟩ with
      | error e =>
          refine iff_of_false ?_ ?_
          · rintro ⟨chunks₁, s₂, sh₂, hno, -⟩
            cases hno
          · rintro ⟨chunks₁, sh₂, hno, -⟩
            cases hno
      | ok y =>
          constructor
          · rintro ⟨chunks₁, s₂, sh₂, hy, hflat⟩
            obtain ⟨hanswer, -⟩ := Prod.mk.inj (Except.ok.inj hy)
            exact ⟨chunks₁, y.2, by rw [← hanswer], hflat⟩
          · rintro ⟨chunks₁, sh₂, hy, hflat⟩
            obtain rfl := Except.ok.inj hy
            exact ⟨chunks₁, s₁, sh₂, rfl, hflat⟩

/-! ## A key that has expired -/

/-- A store in which `k` has expired at the time 5. -/
def Store.stale : Store KeyMap :=
  ⟨KeyMap.empty.put [107] 6, dataFileHead ++ recordBytes 1 0 5 [0], []⟩

theorem Store.stale_offsets {key : Key} (h : Store.stale.index.offsets key ≠ 0) : key.bytes = [107] := by
  by_contra hne
  refine h ?_
  rw [KeyMap.offsets, Store.stale, KeyMap.get_put_other _ hne]
  simp [KeyMap.get, KeyMap.empty]

theorem Store.stale_offset : Store.stale.index.get [107] = 6 := by decide

theorem Store.stale_keyed : Keyed .stale [[107]] := by
  refine ⟨⟨List.pairwise_singleton _ _, fun k => ?_⟩, by decide⟩
  rw [List.mem_singleton]
  constructor
  · rintro rfl
    exact ⟨.letter 107 (by decide), rfl, by decide⟩
  · rintro ⟨key, rfl, hne⟩
    exact stale_offsets hne

theorem Store.stale_record : recordAt Store.stale.dataFile (Store.stale.index.get (WireKey.letter 107 (by decide)).bytes)
    = some ⟨0, 5, [0]⟩ := by decide +kernel

theorem Store.stale_complete : Complete Store.stale.index.offsets Store.stale.dataFile := by
  intro key hne
  have hk : Store.stale.index.offsets key = Store.stale.index.get (WireKey.letter 107 (by decide)).bytes := by
    rw [KeyMap.offsets, stale_offsets hne]
    rfl
  rw [hk, stale_record]
  rfl

theorem Store.stale_roomy : Store.stale.Roomy := ⟨by decide +kernel, by decide +kernel⟩

theorem expired_is_absent_get : ∃ chunks s' sh' chunks₁ s₁ sh₁,
    handleCmd ScanIndex.map 10 (Scratch.ofLine (ascii "get k")) 5 0
        ⟨Store.stale.without (.letter 107 (by decide)), fun _ => 0⟩ = .ok (.sent chunks, s', sh') ∧
      handleCmd ScanIndex.map 10 (Scratch.ofLine (ascii "get k")) 5 0 ⟨.stale, fun _ => 0⟩ = .ok (.sent chunks₁, s₁, sh₁) ∧
      chunks₁.flatten = chunks.flatten := by
  obtain ⟨chunks, s', sh', he⟩ : ∃ chunks s' sh', handleCmd ScanIndex.map 10 (Scratch.ofLine (ascii "get k")) 5 0
      ⟨Store.stale.without (WireKey.letter 107 (by decide)).toKey, fun _ => 0⟩ = .ok (.sent chunks, s', sh') :=
    ⟨_, _, _, rfl⟩
  have hkey : Store.stale.index.get (WireKey.letter 107 (by decide)).bytes ≠ 0 := by decide
  have hx : (⟨0, 5, [0]⟩ : Record).expired 10 := by decide
  have hunseen : Unseen .stale [[107]] (.letter 107 (by decide)) ((Scratch.ofLine (ascii "get k")).line 5) := by
    rw [Unseen, show methodOf ((Scratch.ofLine (ascii "get k")).line 5) = .get by decide +kernel]
    trivial
  obtain ⟨chunks₁, s₁, sh₁, he₁, hflat⟩ := (expired_is_absent Store.stale_keyed Store.stale_complete Store.stale_roomy hkey
    Store.stale_record hx he).mpr hunseen
  exact ⟨chunks, s', sh', chunks₁, s₁, sh₁, he, he₁, hflat⟩

/-- `delete` finds the expired key. -/
theorem expired_is_deleted : ¬ ∀ (st : Store KeyMap) (ks : List (List UInt8)) (key : WireKey) (r : Record) (now : Int),
    Keyed st ks → Complete st.index.offsets st.dataFile → st.Roomy → st.index.get key.bytes ≠ 0 →
      recordAt st.dataFile (st.index.get key.bytes) = some r → r.expired now →
      ∀ (s s' : Scratch) (headerLen : Nat) (bodyLen : Int) (valueBuf : Buf) (chunks : List (List UInt8))
        (sh' : Shared KeyMap), handleCmd ScanIndex.map now s headerLen bodyLen ⟨st.without key.toKey, valueBuf⟩
          = .ok (.sent chunks, s', sh') →
        ∃ chunks₁ s₁ sh₁, handleCmd ScanIndex.map now s headerLen bodyLen ⟨st, valueBuf⟩
          = .ok (.sent chunks₁, s₁, sh₁) ∧ chunks₁.flatten = chunks.flatten := by
  intro H
  obtain ⟨s', sh', he⟩ : ∃ s' sh', handleCmd ScanIndex.map 10 (Scratch.ofLine (ascii "delete k")) 8 0
      ⟨Store.stale.without (WireKey.letter 107 (by decide)).toKey, fun _ => 0⟩
        = .ok (.sent [ascii "NOT_FOUND\r\n"], s', sh') := ⟨_, _, rfl⟩
  obtain ⟨s₂, sh₂, he₂⟩ : ∃ s₂ sh₂, handleCmd ScanIndex.map 10 (Scratch.ofLine (ascii "delete k")) 8 0
      ⟨.stale, fun _ => 0⟩ = .ok (.sent [ascii "DELETED\r\n"], s₂, sh₂) := ⟨_, _, rfl⟩
  have hkey : Store.stale.index.get (WireKey.letter 107 (by decide)).bytes ≠ 0 := by decide
  obtain ⟨chunks₁, s₁, sh₁, he₁, hflat⟩ := H .stale [[107]] _ _ 10 Store.stale_keyed Store.stale_complete Store.stale_roomy
    hkey Store.stale_record (by decide) _ s' 8 0 _ _ sh' he
  obtain rfl : [ascii "DELETED\r\n"] = chunks₁ :=
    Answer.sent.inj (congrArg Prod.fst (Except.ok.inj (he₂.symm.trans he₁)))
  exact absurd hflat (by decide)

end Tstdb
