/-
# `Tstdb.V1.Pieces` — a value that comes in pieces

A request to store brings its value in as many pieces as the network makes of it, and in
between the server serves the others.  The request takes effect all the same at once, when
its last byte has been read (`set_is_atomic`): the shop is the one that the others have
made by then, with the item in it.
-/
import Mathlib
import Tstdb.Lib.Fuel
import Tstdb.Lib.Runs
import Tstdb.Lib.CText
import Tstdb.V1.Library
import Tstdb.V1.Map
import Tstdb.V1.Server
import Tstdb.V1.Shop

namespace Tstdb.V1

open Fuel CText Runs

/-! ## A value in pieces -/

/-- The bytes an event brings over a descriptor. -/
def ServerEvent.bytesOver (fd : Nat) : ServerEvent → List UInt8
  | .input fd' buffer _ => if fd' = fd then buffer else []
  | _ => []

def bytesOver (fd : Nat) (events : List ServerEvent) : List UInt8 := events.flatMap (ServerEvent.bytesOver fd)

/-- What goes on over the other descriptors. -/
def others (fd : Nat) (events : List ServerEvent) : List ServerEvent := events.filter fun e => decide (e.fd ≠ fd)

namespace Shop

/-- Another talk over one descriptor. -/
def turn (a : Shop) (fd : Nat) (t : Talk) (o : Bool) : Shop :=
  { a with talk := Function.update a.talk fd t, opened := Function.update a.opened fd o }

@[simp] theorem turn_talk (a : Shop) (fd : Nat) (t : Talk) (o : Bool) : (a.turn fd t o).talk fd = t :=
  Function.update_self _ _ _

@[simp] theorem turn_opened (a : Shop) (fd : Nat) (t : Talk) (o : Bool) : (a.turn fd t o).opened fd = o :=
  Function.update_self _ _ _

theorem turn_talk_other (a : Shop) {fd fd' : Nat} (t : Talk) (o : Bool) (h : fd' ≠ fd) :
    (a.turn fd t o).talk fd' = a.talk fd' := Function.update_of_ne h _ _

theorem turn_self (a : Shop) (fd : Nat) : a.turn fd (a.talk fd) (a.opened fd) = a := by
  simp only [turn, Function.update_eq_self]

/-- An item and a reply make the talk before it forgotten. -/
theorem turn_tell (a : Shop) (fd : Nat) (t : Talk) {o : Bool} (ho : a.opened fd = o) (key : List UInt8)
    (i : Option Item) (text : List UInt8) :
    ((a.turn fd t o).setItem key i).tell fd text = (a.setItem key i).tell fd text := by
  subst ho
  simp only [tell, setTalk, setItem, turn, Function.update_idem, Function.update_eq_self]

section Turn

variable (a : Shop) {fd fd' : Nat} (t : Talk) (o : Bool) (h : fd' ≠ fd)

include h

theorem turn_setTalk (t' : Talk) : (a.turn fd t o).setTalk fd' t' = (a.setTalk fd' t').turn fd t o := by
  simp only [turn, setTalk, Function.update_comm h]

theorem turn_close : (a.turn fd t o).close fd' = (a.close fd').turn fd t o := by
  simp only [turn, close, Function.update_comm h]

theorem turn_serve (buffer : List UInt8) (now : Int) (r : Asked) :
    (a.turn fd t o).serve fd' buffer now r = (a.serve fd' buffer now r).turn fd t o := by
  cases r with
  | get key => exact turn_setTalk (a.setItem key (a.fresh now key)) t o h _
  | delete key => exact turn_setTalk (a.setItem key none) t o h _
  | other => rfl
  | set key flag expire total =>
      simp only [serve]
      split_ifs
      · exact turn_setTalk a t o h _
      · cases lineEnd (cstr buffer) with
        | none => rfl
        | some pos =>
            simp only [beginSet]
            split_ifs
            · exact turn_setTalk (a.setItem key _) t o h _
            · exact turn_setTalk a t o h _

/-- What goes on over another descriptor neither sees nor touches the talk. -/
theorem turn_exec {e : ServerEvent} (he : e.fd = fd') : (a.turn fd t o).exec e = (a.exec e).turn fd t o := by
  have htalk := a.turn_talk_other t o h
  cases e with
  | accept x =>
      obtain rfl : x = fd' := he
      simp only [exec, turn]
      rw [Function.update_comm h]
  | closed x =>
      obtain rfl : x = fd' := he
      exact a.turn_close t o h
  | failed x =>
      obtain rfl : x = fd' := he
      simp only [exec]
      rw [a.turn_setTalk t o h, turn_close _ t o h]
  | output x ct =>
      obtain rfl : x = fd' := he
      simp only [exec, htalk]
      cases a.talk x with
      | idle => rfl
      | storing key flag expire len got => rfl
      | telling rest => exact a.turn_setTalk t o h _
  | input x buffer now =>
      obtain rfl : x = fd' := he
      simp only [exec]
      split_ifs
      · exact a.turn_close t o h
      · simp only [receive, htalk]
        cases a.talk x with
        | idle =>
            cases asked buffer with
            | ok r => exact a.turn_serve t o h buffer now r
            | error e => rfl
        | telling rest => rfl
        | storing key flag expire len got =>
            simp only
            split_ifs
            · exact turn_setTalk (a.setItem key _) t o h _
            · exact a.turn_setTalk t o h _

end Turn

theorem turn_others (a : Shop) (fd : Nat) (t : Talk) (o : Bool) (events : List ServerEvent) :
    (others fd events).foldl exec (a.turn fd t o) = ((others fd events).foldl exec a).turn fd t o := by
  have hall : ∀ e ∈ others fd events, e.fd ≠ fd := fun e he => of_decide_eq_true (List.mem_filter.mp he).2
  generalize others fd events = rest at hall
  induction rest generalizing a with
  | nil => rfl
  | cons e events ih =>
      obtain ⟨he, hrest⟩ := List.forall_mem_cons.mp hall
      rw [List.foldl_cons, List.foldl_cons, a.turn_exec t o he rfl]
      exact ih _ hrest

/-- The others leave a descriptor as it is. -/
theorem opened_others (a : Shop) (fd : Nat) (events : List ServerEvent) :
    ((others fd events).foldl exec a).opened fd = a.opened fd := by
  have h := a.turn_others fd (a.talk fd) (a.opened fd) events
  rw [turn_self] at h
  rw [h, turn_opened]

end Shop

section Pieces

variable {s s' : Server} {fd : Nat} {key : List UInt8} {flag expire : Int} {len : Nat}

/-- As long as bytes of the value are missing, an event of its descriptor adds its bytes. -/
theorem Shows.collects_own {a : Shop} {got : List UInt8} {o : Bool}
    (hs : Shows s (a.turn fd (.storing key flag expire len got) o)) (hfd : fd < MAX_FD_OPEN) {e : ServerEvent}
    (hen : s.enabled e) (he : e.fd = fd) (hlt : (got ++ e.bytesOver fd).length < len + 2) :
    ∃ o', (a.turn fd (.storing key flag expire len got) o).exec e =
      a.turn fd (.storing key flag expire len (got ++ e.bytesOver fd)) o' := by
  have hno : s.epoll fd ≠ some .epollout := by
    intro hw
    obtain ⟨-, -, rest, ht, -⟩ := hs.writes hw
    rw [Shop.turn_talk] at ht
    cases ht
  cases e with
  | accept x =>
      obtain rfl : x = fd := he
      refine ⟨true, ?_⟩
      simp only [Shop.exec, Shop.turn, Function.update_idem, ServerEvent.bytesOver, List.append_nil]
  | closed x =>
      obtain rfl : x = fd := he
      refine ⟨false, ?_⟩
      simp only [Shop.exec, Shop.close, Shop.turn, Function.update_idem, ServerEvent.bytesOver, List.append_nil]
  | output x ct =>
      obtain rfl : x = fd := he
      exact absurd hen.1 hno
  | failed x =>
      obtain rfl : x = fd := he
      exact absurd hen hno
  | input x buffer now =>
      obtain rfl : x = fd := he
      have hbytes : (ServerEvent.input x buffer now).bytesOver x = buffer := if_pos rfl
      rw [hbytes] at hlt ⊢
      refine ⟨o, ?_⟩
      simp only [Shop.exec, if_neg (Nat.not_le.mpr hfd), Shop.receive, Shop.turn_talk, if_neg (Nat.ne_of_lt hlt)]
      simp only [Shop.setTalk, Shop.turn, Function.update_idem]

/-- Meanwhile what the others do has the effect it would have without it. -/
theorem Shows.collects {events : List ServerEvent} (hrun : Run (Guarded ServerStep Server.Careful) s events s')
    (hfd : fd < MAX_FD_OPEN) : ∀ {a : Shop} {got : List UInt8} {o : Bool},
    Shows s (a.turn fd (.storing key flag expire len got) o) → (got ++ bytesOver fd events).length < len + 2 →
    ∃ o', Shows s' (((others fd events).foldl Shop.exec a).turn fd
      (.storing key flag expire len (got ++ bytesOver fd events)) o') := by
  induction hrun with
  | nil s =>
      intro a got o hs _
      exact ⟨o, by rw [bytesOver, List.flatMap_nil, List.append_nil]; exact hs⟩
  | @cons s s₁ s' e events hstep hrun ih =>
      intro a got o hs hlt
      have hs₁ := (hs.step hstep.2.1 hstep.1).2 _ hstep.2
      have hbytes : bytesOver fd (e :: events) = e.bytesOver fd ++ bytesOver fd events := List.flatMap_cons
      rw [hbytes, ← List.append_assoc] at hlt ⊢
      rcases Classical.em (e.fd = fd) with he | he
      · have hothers : others fd (e :: events) = others fd events := List.filter_cons_of_neg (by simpa using he)
        rw [hothers]
        obtain ⟨o₁, hexec⟩ := hs.collects_own hfd hstep.2.1 he (by rw [List.length_append] at hlt; omega)
        rw [hexec] at hs₁
        exact ih hs₁ hlt
      · have hothers : others fd (e :: events) = e :: others fd events := List.filter_cons_of_pos (by simpa using he)
        have hnone : e.bytesOver fd = [] := by
          cases e with
          | input x buffer now => exact if_neg he
          | _ => rfl
        rw [hnone, List.append_nil] at hlt ⊢
        rw [Shop.turn_exec a _ o he rfl] at hs₁
        rw [hothers, List.foldl_cons]
        exact ih hs₁ hlt

end Pieces

/-- The line of a request to store. -/
def setLine (key : List UInt8) (flag expire : Int) (len : Nat) : List UInt8 :=
  ascii "set " ++ key ++ ascii " " ++ decimal flag ++ ascii " " ++ decimal expire ++ ascii " " ++ decimal len ++
    ascii "\r\n"

theorem lineEnd_append {line : List UInt8} (h : 13 ∉ line) (rest : List UInt8) :
    lineEnd (line ++ 13 :: 10 :: rest) = some line.length := by
  induction line with
  | nil => rfl
  | cons b line ih =>
      obtain ⟨hb, hline⟩ := not_or.mp (mt List.mem_cons.mpr h)
      rw [List.cons_append, lineEnd, ih hline]
      · rfl
      · rintro _ rfl
        exact absurd rfl hb

section Line

variable {key : List UInt8} (hk : GoodKey key) {flag expire : Int} {len : Nat}
  (hf : wrap32 flag = flag) (he : wrap32 expire = expire) (hlen : len ≤ MAX_VALUE_SIZE) (rest : List UInt8)

theorem setLine_append : setLine key flag expire len ++ rest = ascii "set" ++ 32 :: (key ++ 32 :: (decimal flag ++
    32 :: (decimal expire ++ 32 :: (decimal len ++ 13 :: 10 :: rest)))) := by
  simp only [setLine, List.append_assoc]
  rfl

include hk hf he hlen

omit hf he hlen in
/-- Before its end the line has no byte that would end it sooner. -/
theorem mem_setLine {b : UInt8} (hb : b ∈ ascii "set " ++ key ++ ascii " " ++ decimal flag ++ ascii " " ++ decimal expire ++
    ascii " " ++ decimal len) : b ≠ 0 ∧ b ≠ 13 := by
  have hdec : ∀ {n : Int}, b ∈ decimal n → b ≠ 0 ∧ b ≠ 13 := by
    intro n hn
    obtain ⟨hle, -⟩ := le_of_mem_decimal hn
    exact ⟨fun e => absurd (e ▸ hle) (by decide), fun e => absurd (e ▸ hle) (by decide)⟩
  have hconst : ∀ x ∈ ascii "set " ++ ascii " ", x ≠ 0 ∧ x ≠ 13 := by decide +kernel
  simp only [List.mem_append] at hb hconst
  rcases hb with ((((((hb | hb) | hb) | hb) | hb) | hb) | hb) | hb
  · exact hconst b (Or.inl hb)
  · refine ⟨fun e => hk.nul (e ▸ hb), fun e => ?_⟩
    have hspace := hk.word b hb
    rw [e] at hspace
    cases hspace
  · exact hconst b (Or.inr hb)
  · exact hdec hb
  · exact hconst b (Or.inr hb)
  · exact hdec hb
  · exact hconst b (Or.inr hb)
  · exact hdec hb

omit hf he hlen in
theorem cstr_setLine : cstr (setLine key flag expire len ++ rest) = setLine key flag expire len ++ cstr rest := by
  refine List.takeWhile_append_of_pos fun b hb => decide_eq_true ?_
  rcases List.mem_append.mp hb with hb | hb
  · exact (mem_setLine hk hb).1
  · exact (show ∀ x ∈ ascii "\r\n", x ≠ 0 by decide +kernel) b hb

theorem asked_setLine : asked (setLine key flag expire len ++ rest) = .ok (.set key flag expire len) := by
  have hint : wrap32 (len : Int) = len := wrap32_of_range (by omega) (by unfold MAX_VALUE_SIZE at hlen; omega)
  have hstop : ∀ (c : UInt8) (t : List UInt8), isDigit c = false → ∀ b ∈ (c :: t).head?, isDigit b = false :=
    fun c t hc b hb => Option.some.inj hb ▸ hc
  have hnum : ∀ (n : Int), wrap32 n = n → ∀ (ds : List Dir) (c : UInt8) (t : List UInt8), isDigit c = false →
      scan (.space :: .int :: ds) (32 :: (decimal n ++ c :: t)) = .int n :: scan ds (c :: t) := by
    intro n hn ds c t hc
    have h := scan_numeral ds (.decimal n) (by rwa [Numeral.value_decimal]) (hstop c t hc)
    rwa [Numeral.text_decimal, Numeral.value_decimal] at h
  have htext := @setLine_append key flag expire len (cstr rest)
  have hno : ∀ w : List UInt8, w.head? ≠ some 115 → w ≠ [] → ¬w <+: setLine key flag expire len ++ cstr rest := by
    rintro (_ | ⟨b, w⟩) hhead hne ⟨t, ht⟩
    · exact hne rfl
    · rw [htext] at ht
      exact hhead (congrArg List.head? ht)
  have hget : sscanf (setLine key flag expire len ++ cstr rest) "get %s\r\n" = [] := by
    rw [sscanf,
      show format "get %s\r\n".toList = (ascii "get").map .lit ++ [.space, .str, .lit 13, .lit 10] by decide +kernel,
      scan_lits_nil _ (hno _ (by decide +kernel) (by decide +kernel))]
  have hdelete : sscanf (setLine key flag expire len ++ cstr rest) "delete %s" = [] := by
    rw [sscanf, show format "delete %s".toList = (ascii "delete").map .lit ++ [.space, .str] by decide +kernel,
      scan_lits_nil _ (hno _ (by decide +kernel) (by decide +kernel))]
  have hset : sscanf (setLine key flag expire len ++ cstr rest) "set %s %d %d %d\r\n" =
      [.str key, .int flag, .int expire, .int len] := by
    rw [sscanf, htext, show format "set %s %d %d %d\r\n".toList = (ascii "set").map .lit ++
      [.space, .str, .space, .int, .space, .int, .space, .int, .lit 13, .lit 10] by decide +kernel, scan_lits,
      scan_word _ hk.ne hk.word (by simp [isSpace]), hnum flag hf _ _ _ (by decide), hnum expire he _ _ _ (by decide),
      hnum len hint _ _ _ (by decide)]
    rfl
  have hfits : ¬LINE_SIZE ≤ key.length := Nat.not_le.mpr (Nat.lt_succ_of_le hk.le)
  simp only [asked, cstr_setLine hk, hget, hset, hdelete, overlong]
  simp [hfits]

omit hf he hlen in
theorem lineEnd_setLine : lineEnd (cstr (setLine key flag expire len ++ rest)) =
    some ((setLine key flag expire len).length - 2) := by
  rw [cstr_setLine hk, setLine, List.append_assoc _ (ascii "\r\n")]
  have hend : ∀ line : List UInt8, 13 ∉ line →
      lineEnd (line ++ (ascii "\r\n" ++ cstr rest)) = some ((line ++ ascii "\r\n").length - 2) := fun line h => by
    rw [List.length_append]
    exact lineEnd_append h (cstr rest)
  exact hend _ fun hb => (mem_setLine hk hb).2 rfl

end Line

/-- A request to store takes effect at once, when its last byte is read, however its value
arrives: what the other descriptors did in between has the effect it would have without
it, and so it is even where the descriptor was closed in between and accepted again. -/
theorem set_is_atomic {mem : Nat → TstNode} {db : TstDb} {before : List Occurrence} {between : List ServerEvent}
    {fd : Nat} {key rest last value : List UInt8} {flag expire now now' : Int} {s₀ s : Server}
    (hdb : Settles (fun n => tstOpen n mem ⟨none, none⟩) (some db)) (hfd : fd < MAX_FD_OPEN)
    (hk : GoodKey key) (hf : wrap32 flag = flag) (he : wrap32 expire = expire)
    (hlen : value.length ≤ MAX_VALUE_SIZE)
    (hbefore : Run (Guarded LifeStep Server.Minds) (Server.start db) before s₀)
    (h : Run (Guarded ServerStep Server.Careful) s₀
      (.input fd (setLine key flag expire value.length ++ rest) now :: (between ++ [.input fd last now'])) s)
    (hidle : (before.foldl Shop.occur (.quiet fun _ => none)).talk fd = .idle) (hrest : rest.length ≤ value.length)
    (hvalue : rest ++ (bytesOver fd between ++ last) = value ++ ascii "\r\n") :
    Shows s ((((others fd between).foldl Shop.exec (before.foldl Shop.occur (.quiet fun _ => none))).setItem key
      (some ⟨flag, Shop.deadline now expire, value⟩)).tell fd (ascii "STORED\r\n")) := by
  have hs₀ := (Stocks.create hdb).shows.life hbefore
  generalize before.foldl Shop.occur (.quiet fun _ => none) = a at hs₀ hidle ⊢
  cases h with
  | @cons _ s₁ _ _ _ hfirst hlater =>
      have hs₁ := (hs₀.step hfirst.2.1 hfirst.1).2 _ hfirst.2
      have hopen := (hs₀.reads hfirst.2.1.1).1
      have hbegin : a.exec (.input fd (setLine key flag expire value.length ++ rest) now) =
          a.turn fd (.storing key flag (Shop.deadline now expire) value.length rest) true := by
        have hsame : Function.update a.opened fd true = a.opened := by rw [← hopen, Function.update_eq_self]
        have hdrop : (setLine key flag expire value.length ++ rest).drop
            ((setLine key flag expire value.length).length - 2 + 2) = rest := by
          rw [Nat.sub_add_cancel (by rw [setLine, List.length_append]; exact Nat.le_add_left _ _), List.drop_left]
        have hrange : ¬((value.length : Int) < 0 ∨ (MAX_VALUE_SIZE : Int) < value.length) := by omega
        simp only [Shop.exec, if_neg (Nat.not_le.mpr hfd), Shop.receive, hidle, asked_setLine hk hf he hlen,
          Shop.serve, if_neg hrange, lineEnd_setLine hk, Shop.beginSet, hdrop, Int.toNat_natCast,
          if_neg (Nat.not_lt.mpr hrest), Shop.turn, hsame]
        rfl
      rw [hbegin] at hs₁
      obtain ⟨s₂, hbetween, hlast⟩ := hlater.split
      cases hlast with
      | @cons _ s₃ _ _ _ hlast hnil =>
          cases hnil
          have hcount : (rest ++ bytesOver fd between ++ last).length = value.length + 2 := by
            rw [List.append_assoc, hvalue, List.length_append]
            rfl
          have hpos : 0 < last.length := List.length_pos_iff.mpr hlast.2.1.2.1
          obtain ⟨o, hs₂⟩ := hs₁.collects hbetween hfd (by
            rw [List.length_append] at hcount
            omega)
          have hs := (hs₂.step hlast.2.1 hlast.1).2 _ hlast.2
          have hsent := (hs₂.reads hlast.2.1.1).1
          obtain rfl : o = true := by rwa [Shop.turn_opened] at hsent
          have hopened := (a.opened_others fd between).trans hopen
          have hall : (rest ++ bytesOver fd between ++ last).take value.length = value := by
            rw [List.append_assoc, hvalue, List.take_left]
          simp only [Shop.exec, if_neg (Nat.not_le.mpr hfd), Shop.receive, Shop.turn_talk, if_pos hcount, hall] at hs
          rw [Shop.turn_tell _ _ _ hopened] at hs
          exact hs

/-- A value in two pieces; in between the descriptor is closed and accepted again. -/
theorem set_is_atomic_pieces : ∃ (db : TstDb) (s : Server),
    Settles (fun n => tstOpen n (fun _ => TstNode.fresh) ⟨none, none⟩) (some db) ∧
    Run (Guarded ServerStep Server.Careful) (Server.first db 7)
      (.input 7 (setLine [107] 5 0 2 ++ [118]) 100 :: ([.accept 8, .closed 7, .accept 7] ++ [.input 7 [119, 13, 10] 101])) s ∧
    Shows s ((((others 7 [.accept 8, .closed 7, .accept 7]).foldl Shop.exec
      ([.event (.accept 7)].foldl Shop.occur (.quiet fun _ => none))).setItem [107]
        (some ⟨5, 0, [118, 119]⟩)).tell 7 (ascii "STORED\r\n")) := by
  obtain ⟨db, hdb⟩ := tstOpen_new fun _ => TstNode.fresh
  have haccept := step_first db 7
  have hk : GoodKey [107] := ⟨by simp, by simp, by simp, by simp [isSpace]⟩
  have hasked : asked (setLine [107] 5 0 2 ++ [118]) = .ok (.set [107] 5 0 2) := by decide +kernel
  have hfirst : ∃ s₁,
      Guarded ServerStep Server.Careful (Server.first db 7) (.input 7 (setLine [107] 5 0 2 ++ [118]) 100) s₁ ∧
      s₁.db = db ∧ s₁.epoll = (Server.first db 7).epoll ∧ (s₁.dataTable 7).needRead = 12 ∧
      (s₁.dataTable 7).readBuf.length = 9 := by
    have hcareful : (Server.first db 7).Careful (.input 7 (setLine [107] 5 0 2 ++ [118]) 100) := by
      refine ⟨room_first hdb 7, fun _ key h => ?_⟩
      rw [hasked] at h
      rcases h with h | h <;> cases h
    have hreceived : ∀ n, ((Server.first db 7).exec n (.input 7 (setLine [107] 5 0 2 ++ [118]) 100)).toOption =
        ((Server.first db 7).doSet n 100 7 (setLine [107] 5 0 2 ++ [118]) [107] 5 0 2).toOption := by
      intro n
      show (Server.received n 100 (Server.first db 7) 7 (setLine [107] 5 0 2 ++ [118])).toOption = _
      rw [Server.received, if_neg (show ¬((Server.first db 7).dataTable 7).needRead ≠ 0 from not_not.mpr rfl), hasked]
      rfl
    have hdoes : ∃ s₁, (∀ n, (Server.first db 7).doSet n 100 7 (setLine [107] 5 0 2 ++ [118]) [107] 5 0 2 = .ok s₁) ∧
        s₁.db = db ∧ s₁.epoll = (Server.first db 7).epoll ∧ (s₁.dataTable 7).needRead = 12 ∧
        (s₁.dataTable 7).readBuf.length = 9 := ⟨_, fun n => rfl, rfl, rfl, rfl, rfl⟩
    obtain ⟨s₁, hok, hrest⟩ := hdoes
    refine ⟨s₁, ⟨hcareful, ⟨rfl, by decide +kernel, by show _ ≤ IN_BUF_SIZE; decide +kernel⟩, 0, fun n _ => ?_⟩, hrest⟩
    show ((Server.first db 7).exec n _).toOption = _
    rw [hreceived, hok]
    rfl
  obtain ⟨s₁, hstep₁, hdb₁, hepoll₁, hneed₁, hread₁⟩ := hfirst
  have hlater : ∃ s₄, Run (Guarded ServerStep Server.Careful) s₁ [.accept 8, .closed 7, .accept 7] s₄ ∧ s₄.db = s₁.db ∧
      s₄.dataTable = s₁.dataTable ∧ s₄.epoll 7 = some .epollin := by
    refine ⟨_, .cons ⟨trivial, ?_, 0, fun _ _ => rfl⟩ (.cons ⟨trivial, ?_, 0, fun _ _ => rfl⟩
      (.cons ⟨trivial, ?_, 0, fun _ _ => rfl⟩ (.nil _))), rfl, rfl, rfl⟩
    · show s₁.epoll 8 = none
      rw [hepoll₁]
      rfl
    · show Function.update s₁.epoll 8 (some Wait.epollin) 7 = some .epollin
      rw [hepoll₁]
      rfl
    · rfl
  obtain ⟨s₄, hrun₄, hdb₄, htable₄, hepoll₄⟩ := hlater
  have hbefore : Run (Guarded LifeStep Server.Minds) (Server.start db) [.event (.accept 7)] (Server.first db 7) :=
    .cons ⟨haccept.1, haccept.2⟩ (.nil _)
  have hshows := ((Stocks.create hdb).shows.life hbefore).run (.cons hstep₁ hrun₄)
  have hneed : (s₄.dataTable 7).needRead = 12 := by rw [htable₄, hneed₁]
  have hread : (s₄.dataTable 7).readBuf.length = 9 := by rw [htable₄, hread₁]
  have hen : s₄.enabled (.input 7 [119, 13, 10] 101) := by
    refine ⟨hepoll₄, by decide, ?_⟩
    rw [Server.readLimit, hneed, hread]
    decide
  have hcareful : s₄.Careful (.input 7 [119, 13, 10] 101) := by
    refine ⟨?_, fun h0 => absurd h0 (by rw [hneed]; decide)⟩
    unfold Server.Room
    rw [hdb₄, hdb₁]
    exact room_first hdb 7
  obtain ⟨s, hs⟩ := (hshows.step hen hcareful).1.mpr fun _ hidle => absurd hidle (by decide +kernel)
  have hrun : Run (Guarded ServerStep Server.Careful) (Server.first db 7)
      (.input 7 (setLine [107] 5 0 2 ++ [118]) 100 :: ([.accept 8, .closed 7, .accept 7] ++ [.input 7 [119, 13, 10] 101])) s :=
    .cons hstep₁ (hrun₄.append (.cons ⟨hcareful, hs⟩ (.nil s)))
  have hstored := @set_is_atomic _ _ [.event (.accept 7)] [.accept 8, .closed 7, .accept 7] 7 [107] [118] [119, 13, 10]
    [118, 119] 5 0 100 101 _ s hdb (by decide) hk (by decide) (by decide) (by decide) hbefore hrun rfl (by decide) (by decide)
  exact ⟨db, s, hdb, hrun, hstored⟩

end Tstdb.V1
