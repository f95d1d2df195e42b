import Mathlib.Algebra.GroupWithZero.Nat
import Mathlib.Data.List.Induction
import Vex.Errno

/-! The exchange of bytes over a serial port: `dev/serial_interface.c`. While it lasts, the exchange
is the consumer of the port: it takes what is received and gives what is sent, each under the
dispatch lock of the port. -/

namespace Vex.Dev.Serial

open List

abbrev SERIAL_EXCHANGE_MAX : Nat := 256
abbrev SERIAL_NO_TERMINATOR : Int := -1
abbrev EXCHANGE_MAX_MSEC : Nat := 60000

/-- `serial_exchange_t`, without the addresses. -/
structure SerialExchange where
  sendSize : Nat
  receiveSize : Nat
  timeoutMsec : Nat
  terminator : Int

/-- `SERIAL_ERROR_*`. -/
inductive SerialError
  | brk | parity | framing | overrun
  deriving DecidableEq, Repr

/-- `exchange_t`, with what the transmitter has been given. -/
structure Exchange where
  send : Nat → UInt8
  receive : Nat → UInt8
  sendSize : Nat
  sent : Nat
  receiveSize : Nat
  received : Nat
  terminator : Int
  done : Bool
  taken : List UInt8

namespace Exchange

variable (e : Exchange)

def takeAnswer (byte : UInt8) : Exchange :=
  let e := { e with
    receive := Function.update e.receive e.received byte
    received := e.received + 1 }
  if e.received = e.receiveSize ∨ (byte.toNat : Int) = e.terminator then { e with done := true }
  else e

def exchangeReceive (e : Exchange) : List UInt8 → Exchange
  | [] => e
  | byte :: bytes => if e.done then e else exchangeReceive (e.takeAnswer byte) bytes

def exchangeReceiveError (byte : UInt8) (error : SerialError) : Exchange :=
  if error ≠ .brk ∧ !e.done then e.takeAnswer byte else e

def exchangeTransmitTake (size : Nat) : Exchange :=
  let count := e.sendSize - e.sent
  let count := if count > size then size else count
  let e := { e with
    taken := e.taken ++ (List.range count).map fun i => e.send (e.sent + i)
    sent := e.sent + count }
  if e.receiveSize = 0 ∧ e.sent = e.sendSize ∧ !e.done then { e with done := true } else e

end Exchange

/-- What the driver of the port calls while the exchange is its consumer. -/
inductive Event
  | receive (bytes : List UInt8)
  | receiveError (byte : UInt8) (error : SerialError)
  | transmitTake (size : Nat)
  deriving DecidableEq, Repr

def Exchange.apply (e : Exchange) : Event → Exchange
  | .receive bytes => e.exchangeReceive bytes
  | .receiveError byte error => e.exchangeReceiveError byte error
  | .transmitTake size => e.exchangeTransmitTake size

def Exchange.run (e : Exchange) (events : List Event) : Exchange := events.foldl Exchange.apply e

/-- What is handed back of an exchange. -/
def Exchange.answer (e : Exchange) : List UInt8 := (List.range e.received).map e.receive

/-- The start of `exchange_bytes`: the checks of the request, the bytes to send, none if they can't
be read, and the exchange with what is on the stack for the answer. -/
def startExchange (request : SerialExchange) (send : Option (Nat → UInt8)) (stack : Nat → UInt8) :
    Except Errno Exchange :=
  if request.sendSize > SERIAL_EXCHANGE_MAX ∨ request.receiveSize > SERIAL_EXCHANGE_MAX then
    .error .EINVAL
  else if request.timeoutMsec > EXCHANGE_MAX_MSEC then .error .EINVAL
  else if request.terminator < SERIAL_NO_TERMINATOR ∨ request.terminator > 255 then .error .EINVAL
  else
    match send with
    | none => .error .EFAULT
    | some send => .ok {
        send := send
        receive := stack
        sendSize := request.sendSize
        sent := 0
        receiveSize := request.receiveSize
        received := 0
        terminator := request.terminator
        done := false
        taken := [] }

/-- `exchange_bytes`: what is handed back, if the exchange ends after these events without an error
and the answer can be written. -/
def exchangeBytes (request : SerialExchange) (send : Option (Nat → UInt8)) (stack : Nat → UInt8)
    (ran : Except Errno (List Event)) (writable : Bool) : Except Errno (List UInt8) := do
  let e ← startExchange request send stack
  let events ← ran
  if writable then .ok (e.run events).answer else .error .EFAULT

/-! ## What an exchange is for -/

/-- The bytes that come with an event; a break has none. -/
def Event.bytes : Event → List UInt8
  | .receive bytes => bytes
  | .receiveError byte error => if error = .brk then [] else [byte]
  | .transmitTake _ => []

/-- How many bytes the transmitter asks for. -/
def Event.asked : Event → Option Nat
  | .transmitTake size => some size
  | _ => none

/-- Bytes up to the terminator, which is the last one if it comes. -/
def upTo (terminator : Int) : List UInt8 → List UInt8
  | [] => []
  | byte :: bytes =>
    if (byte.toNat : Int) = terminator then [byte] else byte :: upTo terminator bytes

/-- All the bytes received. -/
def stream (events : List Event) : List UInt8 := events.flatMap Event.bytes

/-- All that the transmitter asked for. -/
def asked (events : List Event) : Nat := (events.filterMap Event.asked).sum

/-- The exchange stays in its buffers, sends what it was given in order and hands back the first
bytes received, up to the terminator. -/
structure Proper (e : Exchange) (events : List Event) : Prop where
  received_le : (e.run events).received ≤ e.receiveSize
  sent_le : (e.run events).sent ≤ e.sendSize
  taken : (e.run events).taken = (List.range (e.run events).sent).map e.send
  answer : (e.run events).answer = (upTo e.terminator (stream events)).take e.receiveSize

/-- All that is to be sent has been taken. -/
def AllTaken (e : Exchange) (events : List Event) : Prop :=
  events.filterMap Event.asked ≠ [] ∧ e.sendSize ≤ asked events

/-- An exchange that reads nothing back receives no byte before all it sends has been taken. -/
def Silent (e : Exchange) (events : List Event) : Prop :=
  e.receiveSize = 0 → ∀ before event after, events = before ++ event :: after →
    event.bytes ≠ [] → AllTaken e before

/-! ## Bytes up to a terminator -/

variable {terminator : Int} {bytes : List UInt8} {byte : UInt8}

/-- The terminator has come. -/
def Came (terminator : Int) (bytes : List UInt8) : Prop :=
  ∃ byte ∈ bytes, (byte.toNat : Int) = terminator

theorem upTo_of_not_came (h : ¬Came terminator bytes) : upTo terminator bytes = bytes := by
  induction bytes with
  | nil => rfl
  | cons byte bytes ih =>
    have hne : ¬(byte.toNat : Int) = terminator := fun heq => h ⟨byte, by simp, heq⟩
    have hrs : ¬Came terminator bytes := fun ⟨b, hb, heq⟩ =>
      h ⟨b, mem_cons_of_mem _ hb, heq⟩
    rw [upTo, if_neg hne, ih hrs]

theorem upTo_append (h : Came terminator bytes) (more : List UInt8) :
    upTo terminator (bytes ++ more) = upTo terminator bytes := by
  induction bytes with
  | nil =>
    obtain ⟨b, hb, -⟩ := h
    exact absurd hb (by simp)
  | cons byte bytes ih =>
    rw [cons_append, upTo, upTo]
    split
    · rfl
    rename_i hne
    obtain ⟨b, hb, heq⟩ := h
    rcases mem_cons.mp hb with rfl | hb
    · exact absurd heq hne
    · rw [ih ⟨b, hb, heq⟩]

theorem upTo_concat_of_not_came (h : ¬Came terminator bytes) :
    upTo terminator (bytes ++ [byte]) = bytes ++ [byte] := by
  induction bytes with
  | nil =>
    rw [nil_append, upTo]
    split <;> rfl
  | cons b bytes ih =>
    have hne : ¬(b.toNat : Int) = terminator := fun heq => h ⟨b, by simp, heq⟩
    have hrs : ¬Came terminator bytes := fun ⟨c, hc, heq⟩ =>
      h ⟨c, mem_cons_of_mem _ hc, heq⟩
    rw [cons_append, upTo, if_neg hne, ih hrs]

theorem came_concat : Came terminator (bytes ++ [byte]) ↔
    Came terminator bytes ∨ (byte.toNat : Int) = terminator := by
  simp [Came, or_and_right, exists_or]

/-! ## Receiving -/

/-- An exchange that reads something back has taken the first of these bytes. -/
structure Takes (e : Exchange) (bytes : List UInt8) : Prop where
  answer : e.answer = (upTo e.terminator bytes).take e.receiveSize
  done : e.done = true ↔ Came e.terminator bytes ∨ e.receiveSize ≤ bytes.length

variable {e : Exchange}

theorem answer_takeAnswer : (e.takeAnswer byte).answer = e.answer ++ [byte] := by
  have hans : (Exchange.mk e.send (Function.update e.receive e.received byte) e.sendSize e.sent
      e.receiveSize (e.received + 1) e.terminator e.done e.taken).answer = e.answer ++ [byte] := by
    rw [Exchange.answer, range_succ, map_append]
    congr 1
    · apply map_congr_left
      intro i hi
      exact Function.update_of_ne (Nat.ne_of_lt (mem_range.mp hi)) ..
    · simp
  rw [Exchange.takeAnswer]
  split <;> exact hans

/-- What receiving leaves as it is. -/
structure SendsAs (e e' : Exchange) : Prop where
  send : e'.send = e.send
  sendSize : e'.sendSize = e.sendSize
  sent : e'.sent = e.sent
  taken : e'.taken = e.taken
  receiveSize : e'.receiveSize = e.receiveSize
  terminator : e'.terminator = e.terminator

theorem SendsAs.refl (e : Exchange) : SendsAs e e := ⟨rfl, rfl, rfl, rfl, rfl, rfl⟩

theorem SendsAs.trans (h : SendsAs e e') (h' : SendsAs e' e'') : SendsAs e e'' :=
  ⟨h'.send.trans h.send, h'.sendSize.trans h.sendSize, h'.sent.trans h.sent,
    h'.taken.trans h.taken, h'.receiveSize.trans h.receiveSize, h'.terminator.trans h.terminator⟩

theorem sendsAs_takeAnswer (e : Exchange) (byte : UInt8) : SendsAs e (e.takeAnswer byte) := by
  rw [Exchange.takeAnswer]
  split <;> exact ⟨rfl, rfl, rfl, rfl, rfl, rfl⟩

theorem received_takeAnswer : (e.takeAnswer byte).received = e.received + 1 := by
  rw [Exchange.takeAnswer]
  split <;> rfl

theorem done_takeAnswer (h : e.done = false) : (e.takeAnswer byte).done = true ↔
    e.received + 1 = e.receiveSize ∨ (byte.toNat : Int) = e.terminator := by
  rw [Exchange.takeAnswer]
  split
  · simp [*]
  · simp [*]

theorem length_answer : e.answer.length = e.received := by
  rw [Exchange.answer, length_map, length_range]

/-- A byte that comes is taken unless the exchange is done. -/
def Exchange.takeByte (e : Exchange) (byte : UInt8) : Exchange :=
  if e.done then e else e.takeAnswer byte

theorem exchangeReceive_eq (e : Exchange) (bytes : List UInt8) :
    e.exchangeReceive bytes = bytes.foldl Exchange.takeByte e := by
  induction bytes generalizing e with
  | nil => rfl
  | cons byte bytes ih =>
    rw [Exchange.exchangeReceive, foldl_cons, Exchange.takeByte]
    split
    · rename_i hdone
      have hsty : ∀ bytes : List UInt8, bytes.foldl Exchange.takeByte e = e := by
        intro bytes
        induction bytes with
        | nil => rfl
        | cons byte bytes ih => rwa [foldl_cons, Exchange.takeByte, if_pos hdone]
      exact (hsty bytes).symm
    · exact ih _

theorem Event.eq_transmitTake {event : Event} (h : event.asked = some size) :
    event = .transmitTake size := by
  cases event with
  | transmitTake => exact congrArg _ (Option.some.inj h)
  | _ => cases h

theorem apply_eq_foldl (h : event.asked = none) (e : Exchange) :
    e.apply event = event.bytes.foldl Exchange.takeByte e := by
  cases event with
  | receive bytes => exact exchangeReceive_eq e bytes
  | receiveError byte error =>
    rw [Exchange.apply, Exchange.exchangeReceiveError, Event.bytes]
    cases error <;> cases hdone : e.done <;> simp [Exchange.takeByte, hdone]
  | transmitTake size => exact absurd h (by simp [Event.asked])

theorem sendsAs_foldl (bytes : List UInt8) (e : Exchange) :
    SendsAs e (bytes.foldl Exchange.takeByte e) := by
  induction bytes generalizing e with
  | nil => exact .refl e
  | cons byte bytes ih =>
    refine SendsAs.trans ?_ (ih _)
    rw [Exchange.takeByte]
    split
    · exact .refl e
    · exact sendsAs_takeAnswer e byte

theorem Takes.takeByte (h : Takes e bytes) (byte : UInt8) :
    Takes (e.takeByte byte) (bytes ++ [byte]) := by
  rw [Exchange.takeByte]
  split
  · rename_i hdone
    have hend := h.done.mp hdone
    refine ⟨?_, iff_of_true hdone ?_⟩
    · rw [h.answer]
      rcases em (Came e.terminator bytes) with hcame | hnot
      · rw [upTo_append hcame]
      · rw [upTo_of_not_came hnot, upTo_concat_of_not_came hnot,
          take_append_of_le_length (hend.resolve_left hnot)]
    · rw [came_concat, length_append]
      rcases hend with hcame | hle
      · exact .inl (.inl hcame)
      · exact .inr (by omega)
  · rename_i hdone
    have hend := mt h.done.mpr hdone
    rw [not_or, Nat.not_le] at hend
    obtain ⟨hnot, hlt⟩ := hend
    have hans : e.answer = bytes := by
      rw [h.answer, upTo_of_not_came hnot, take_of_length_le (Nat.le_of_lt hlt)]
    have hrcv : e.received = bytes.length := by rw [← length_answer, hans]
    have hfrm := sendsAs_takeAnswer e byte
    refine ⟨?_, ?_⟩
    · rw [answer_takeAnswer, hans, hfrm.terminator, hfrm.receiveSize,
        upTo_concat_of_not_came hnot, take_of_length_le]
      rwa [length_append, length_singleton]
    rw [done_takeAnswer (by simpa using hdone), hfrm.terminator, hfrm.receiveSize,
      came_concat, length_append, length_singleton]
    constructor
    · rintro (heq | heq)
      · exact .inr (by omega)
      · exact .inl (.inr heq)
    · rintro ((hcame | heq) | hle)
      · exact absurd hcame hnot
      · exact .inr heq
      · exact .inl (by omega)

theorem Takes.foldl (more : List UInt8) (h : Takes e bytes) :
    Takes (more.foldl Exchange.takeByte e) (bytes ++ more) := by
  induction more generalizing e bytes with
  | nil => rwa [append_nil]
  | cons byte more ih =>
    have hrs := ih (h.takeByte byte)
    rwa [append_assoc] at hrs

/-! ## Sending -/

theorem taken_transmitTake (size : Nat) : ∃ count, count = min (e.sendSize - e.sent) size ∧
    (e.exchangeTransmitTake size).sent = e.sent + count ∧
    (e.exchangeTransmitTake size).taken =
      e.taken ++ (List.range count).map fun i => e.send (e.sent + i) := by
  refine ⟨_, rfl, ?_⟩
  have hcnt : (if e.sendSize - e.sent > size then size else e.sendSize - e.sent) =
      min (e.sendSize - e.sent) size := by
    split <;> omega
  rw [Exchange.exchangeTransmitTake, hcnt]
  split <;> exact ⟨rfl, rfl⟩

/-- What sending leaves as it is. -/
structure ReceivesAs (e e' : Exchange) : Prop where
  send : e'.send = e.send
  sendSize : e'.sendSize = e.sendSize
  receiveSize : e'.receiveSize = e.receiveSize
  terminator : e'.terminator = e.terminator
  answer : e'.answer = e.answer

theorem receivesAs_transmitTake (size : Nat) : ReceivesAs e (e.exchangeTransmitTake size) := by
  rw [Exchange.exchangeTransmitTake]
  generalize (if e.sendSize - e.sent > size then size else e.sendSize - e.sent) = count
  split <;> exact ⟨rfl, rfl, rfl, rfl, rfl⟩

theorem done_transmitTake (size : Nat) : (e.exchangeTransmitTake size).done = true ↔
    e.done = true ∨ e.receiveSize = 0 ∧ (e.exchangeTransmitTake size).sent = e.sendSize := by
  rw [Exchange.exchangeTransmitTake]
  dsimp only
  generalize (if e.sendSize - e.sent > size then size else e.sendSize - e.sent) = count
  split
  · rename_i hdone
    simp [hdone.1, hdone.2.1]
  rename_i hnot
  cases hdone : e.done with
  | true => simp
  | false =>
    simp only [hdone, Bool.not_false, and_true] at hnot
    simp [hnot]

/-! ## Every run -/

/-- The state of an exchange after some events. -/
structure After (e e' : Exchange) (events : List Event) : Prop where
  send : e'.send = e.send
  sendSize : e'.sendSize = e.sendSize
  receiveSize : e'.receiveSize = e.receiveSize
  terminator : e'.terminator = e.terminator
  sent : e'.sent = min e.sendSize (asked events)
  taken : e'.taken = (List.range e'.sent).map e.send

theorem asked_concat (events : List Event) (event : Event) :
    asked (events ++ [event]) = asked events + event.asked.getD 0 := by
  cases h : event.asked <;> simp [asked, h]

theorem stream_concat (events : List Event) (event : Event) :
    stream (events ++ [event]) = stream events ++ event.bytes := by
  simp [stream]

variable {e' : Exchange} {events : List Event}

theorem After.apply (h : After e e' events) (event : Event) :
    After e (e'.apply event) (events ++ [event]) := by
  cases hask : event.asked with
  | none =>
    rw [apply_eq_foldl hask]
    have hfrm := sendsAs_foldl event.bytes e'
    refine ⟨hfrm.send.trans h.send, hfrm.sendSize.trans h.sendSize,
      hfrm.receiveSize.trans h.receiveSize, hfrm.terminator.trans h.terminator, ?_, ?_⟩
    · rw [hfrm.sent, h.sent, asked_concat, hask]
      rfl
    · rw [hfrm.taken, hfrm.sent, h.taken]
  | some size =>
    obtain rfl := Event.eq_transmitTake hask
    have hfrm := receivesAs_transmitTake (e := e') size
    obtain ⟨count, hcnt, hsent, htkn⟩ := taken_transmitTake (e := e') size
    refine ⟨hfrm.send.trans h.send, hfrm.sendSize.trans h.sendSize,
      hfrm.receiveSize.trans h.receiveSize, hfrm.terminator.trans h.terminator, ?_, ?_⟩
    · change (e'.exchangeTransmitTake size).sent = _
      rw [hsent, asked_concat, hask, Option.getD_some, hcnt, h.sendSize, h.sent]
      omega
    · change (e'.exchangeTransmitTake size).taken =
        (range (e'.exchangeTransmitTake size).sent).map e.send
      rw [htkn, hsent, h.taken, h.send, range_add, map_append, map_map]
      rfl

/-- An exchange that nothing has happened to. -/
structure Fresh (e : Exchange) : Prop where
  sent : e.sent = 0
  received : e.received = 0
  done : e.done = false
  taken : e.taken = []

theorem run_concat (e : Exchange) (events : List Event) (event : Event) :
    e.run (events ++ [event]) = (e.run events).apply event := by
  rw [Exchange.run, foldl_append]
  rfl

theorem Fresh.after (h : Fresh e) (events : List Event) : After e (e.run events) events := by
  induction events using reverseRecOn with
  | nil =>
    refine ⟨rfl, rfl, rfl, rfl, ?_, ?_⟩
    · exact h.sent.trans (by simp [asked])
    · change e.taken = (range e.sent).map e.send
      rw [h.taken, h.sent, range_zero, map_nil]
  | append_singleton events event ih =>
    rw [run_concat]
    exact ih.apply event

theorem Fresh.takes (h : Fresh e) (hsz : e.receiveSize ≠ 0) (events : List Event) :
    Takes (e.run events) (stream events) := by
  induction events using reverseRecOn with
  | nil =>
    change Takes e []
    refine ⟨?_, iff_of_false (by simp [h.done]) (by simp [Came, hsz])⟩
    rw [Exchange.answer, h.received, upTo, take_nil]
    rfl
  | append_singleton events event ih =>
    rw [run_concat, stream_concat]
    cases hask : event.asked with
    | none =>
      rw [apply_eq_foldl hask]
      exact ih.foldl event.bytes
    | some size =>
      obtain rfl := Event.eq_transmitTake hask
      have hfrm := receivesAs_transmitTake (e := e.run events) size
      have hsize' : (e.run events).receiveSize ≠ 0 := by rwa [(h.after events).receiveSize]
      change Takes ((e.run events).exchangeTransmitTake size) (stream events ++ [])
      rw [append_nil]
      refine ⟨?_, ?_⟩
      · rw [hfrm.answer, hfrm.terminator, hfrm.receiveSize, ih.answer]
      · rw [done_transmitTake, hfrm.terminator, hfrm.receiveSize, ← ih.done]
        simp [hsize']

/-! ### Exchanges that read nothing back -/

theorem received_le_foldl (bytes : List UInt8) (e : Exchange) :
    e.received ≤ (bytes.foldl Exchange.takeByte e).received := by
  induction bytes generalizing e with
  | nil => exact Nat.le_refl _
  | cons byte bytes ih =>
    refine Nat.le_trans ?_ (ih _)
    rw [Exchange.takeByte]
    split
    · exact Nat.le_refl _
    · rw [received_takeAnswer]
      exact Nat.le_succ _

theorem foldl_of_done (hdone : e.done = true) (bytes : List UInt8) :
    bytes.foldl Exchange.takeByte e = e := by
  induction bytes with
  | nil => rfl
  | cons byte bytes ih => rwa [foldl_cons, Exchange.takeByte, if_pos hdone]

theorem received_foldl_pos (hdone : e.done = false) (hby : bytes ≠ []) :
    0 < (bytes.foldl Exchange.takeByte e).received := by
  obtain ⟨byte, rest, rfl⟩ := exists_cons_of_ne_nil hby
  have hle := received_le_foldl rest (e.takeByte byte)
  have hfst : (e.takeByte byte).received = e.received + 1 := by
    rw [Exchange.takeByte, hdone, if_neg (by decide), received_takeAnswer]
  rw [foldl_cons]
  omega

theorem Fresh.done_iff (h : Fresh e) (hsz : e.receiveSize = 0)
    (hnone : ∀ before, before <+: events → (e.run before).received = 0) :
    (e.run events).done = true ↔ AllTaken e events := by
  induction events using reverseRecOn with
  | nil =>
    change e.done = true ↔ _
    simp [h.done, AllTaken]
  | append_singleton events event ih =>
    have ih := ih fun before hbef => hnone before (hbef.trans (prefix_append ..))
    have hlast := hnone _ (prefix_refl _)
    rw [run_concat] at hlast ⊢
    cases hask : event.asked with
    | none =>
      have hsame : AllTaken e (events ++ [event]) ↔ AllTaken e events := by
        simp [AllTaken, asked, hask]
      rw [apply_eq_foldl hask] at hlast ⊢
      rw [hsame, ← ih]
      cases hdone : (e.run events).done with
      | true => rw [foldl_of_done hdone, hdone]
      | false =>
        have hby : event.bytes = [] := by
          by_contra hne
          have hpos := received_foldl_pos hdone hne
          omega
        rw [hby, foldl_nil, hdone]
    | some size =>
      obtain rfl := Event.eq_transmitTake hask
      have haft := (h.after (events ++ [.transmitTake size])).sent
      rw [run_concat] at haft
      change ((e.run events).exchangeTransmitTake size).sent = _ at haft
      change ((e.run events).exchangeTransmitTake size).done = true ↔ _
      have hfrm := h.after events
      rw [done_transmitTake, haft, hfrm.receiveSize, hfrm.sendSize, ih, asked_concat]
      simp only [AllTaken, hsz, true_and, asked_concat]
      constructor
      · rintro (⟨-, hle⟩ | heq)
        · exact ⟨by simp [Event.asked], by omega⟩
        · exact ⟨by simp [Event.asked], by omega⟩
      · rintro ⟨-, hle⟩
        exact .inr (by omega)

theorem Fresh.received_eq_zero (h : Fresh e) (hsz : e.receiveSize = 0) (hsil : Silent e events)
    (hbef : before <+: events) : ∀ first, first <+: before → (e.run first).received = 0 := by
  induction before using reverseRecOn with
  | nil =>
    intro first hfst
    rw [prefix_nil.mp hfst]
    exact h.received
  | append_singleton before event ih =>
    have ih := ih ((prefix_append ..).trans hbef)
    intro first hfst
    rcases prefix_concat_iff.mp hfst with rfl | hfst
    · rw [run_concat]
      have h0 := ih before (prefix_refl _)
      cases hask : event.asked with
      | none =>
        rw [apply_eq_foldl hask]
        rcases eq_or_ne event.bytes [] with hnil | hby
        · rw [hnil]
          exact h0
        obtain ⟨after, haft⟩ := hbef
        have hevents : events = before ++ event :: after := by simp [← haft]
        have htkn := hsil hsz before event after hevents hby
        rw [foldl_of_done ((h.done_iff hsz ih).mpr htkn), h0]
      | some size =>
        obtain rfl := Event.eq_transmitTake hask
        change ((e.run before).exchangeTransmitTake size).received = 0
        rw [← length_answer, (receivesAs_transmitTake size).answer, length_answer, h0]
    · exact ih first hfst

theorem startExchange_fresh (h : startExchange request send stack = .ok e) :
    Fresh e ∧ e.receiveSize ≤ SERIAL_EXCHANGE_MAX ∧ e.sendSize ≤ SERIAL_EXCHANGE_MAX := by
  rw [startExchange.eq_def] at h
  split at h
  · simp at h
  split at h
  · simp at h
  split at h
  · simp at h
  cases send with
  | none => simp at h
  | some send =>
    cases h
    refine ⟨⟨rfl, rfl, rfl, rfl⟩, ?_, ?_⟩ <;> dsimp only <;> omega

theorem Fresh.proper (h : Fresh e) (hans : (e.run events).answer =
    (upTo e.terminator (stream events)).take e.receiveSize) : Proper e events where
  received_le := by
    rw [← length_answer, hans]
    exact length_take_le ..
  sent_le := by
    rw [(h.after events).sent]
    exact Nat.min_le_left ..
  taken := (h.after events).taken
  answer := hans

/-- Whatever happens on the line, an exchange stays in its buffers, sends its bytes in order and
hands back the first bytes received, just if it expects some or none comes before all is sent. -/
theorem exchange_proper_iff_silent {request : SerialExchange} {send : Option (Nat → UInt8)}
    {stack : Nat → UInt8} (h : startExchange request send stack = .ok e) (events : List Event) :
    e.receiveSize ≤ SERIAL_EXCHANGE_MAX ∧ e.sendSize ≤ SERIAL_EXCHANGE_MAX ∧
      ((∀ before, before <+: events → Proper e before) ↔ Silent e events) := by
  obtain ⟨hfresh, hreceive, hsend⟩ := startExchange_fresh h
  refine ⟨hreceive, hsend, ?_, ?_⟩
  · rintro hproper hsize before event after rfl hbytes
    have hnone : ∀ first, first <+: before ++ event :: after → (e.run first).received = 0 := by
      intro first hfirst
      have := (hproper first hfirst).received_le
      omega
    have hbefore : ∀ first, first <+: before → (e.run first).received = 0 := fun first hfirst =>
      hnone first (hfirst.trans (prefix_append ..))
    have hdone := hfresh.done_iff hsize hbefore
    by_contra hnot
    have hundone : (e.run before).done = false := by
      rw [← Bool.not_eq_true]
      exact fun hd => hnot (hdone.mp hd)
    have hasked : event.asked = none := by
      cases event <;> simp_all [Event.asked, Event.bytes]
    have hpos := received_foldl_pos hundone hbytes
    rw [← apply_eq_foldl hasked, ← run_concat, hnone _ ⟨after, by simp⟩] at hpos
    exact absurd hpos (Nat.lt_irrefl 0)
  · intro hsilent before hbefore
    apply hfresh.proper
    rcases eq_or_ne e.receiveSize 0 with hzero | hsize
    · have hnone := hfresh.received_eq_zero hzero hsilent hbefore before (prefix_refl _)
      rw [Exchange.answer, hnone, hzero]
      rfl
    · have hafter := hfresh.after before
      rw [(hfresh.takes hsize before).answer, hafter.terminator, hafter.receiveSize]

/-- The exchange of a request, with zeros on the stack. -/
def exampleExchange (sendSize receiveSize : Nat) (terminator : Int) : Exchange :=
  ⟨fun _ => 63, fun _ => 0, sendSize, 0, receiveSize, 0, terminator, false, []⟩

theorem exchange_proper_iff_silent_two :
    startExchange ⟨1, 2, 100, 10⟩ (some fun _ => 63) (fun _ => 0) = .ok (exampleExchange 1 2 10) ∧
      ((∀ before, before <+: [.transmitTake 4, .receive [79, 10]] →
          Proper (exampleExchange 1 2 10) before) ↔
        Silent (exampleExchange 1 2 10) [.transmitTake 4, .receive [79, 10]]) := by
  have hstart : startExchange ⟨1, 2, 100, 10⟩ (some fun _ => 63) (fun _ => 0) =
      .ok (exampleExchange 1 2 10) := rfl
  exact ⟨hstart, (exchange_proper_iff_silent hstart _).2.2⟩

/-- An exchange that neither sends nor expects anything stores what comes until it times out, beyond
the buffer too. -/
theorem exchange_overruns :
    startExchange ⟨0, 0, 100, SERIAL_NO_TERMINATOR⟩ (some fun _ => 63) (fun _ => 0) =
        .ok (exampleExchange 0 0 SERIAL_NO_TERMINATOR) ∧
      ((exampleExchange 0 0 SERIAL_NO_TERMINATOR).run
        [.receive (List.replicate 257 65)]).received = SERIAL_EXCHANGE_MAX + 1 ∧
      ¬Proper (exampleExchange 0 0 SERIAL_NO_TERMINATOR) [.receive (List.replicate 257 65)] := by
  have hreceived : ((exampleExchange 0 0 SERIAL_NO_TERMINATOR).run
      [.receive (replicate 257 65)]).received = SERIAL_EXCHANGE_MAX + 1 := by
    decide +kernel
  refine ⟨rfl, hreceived, fun h => ?_⟩
  have hle := h.received_le
  rw [hreceived] at hle
  exact absurd hle (by decide)

end Vex.Dev.Serial
