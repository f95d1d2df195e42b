import Vex.Lib.Ring
import Vex.Libk.Ctype

/-! The input side of the line discipline of terminals: `dev/tty_discipline.c`. Positions in the
input ring are 32-bit numbers that wrap. The echo and the rest of the output side is left out: it
changes the output ring and the columns, which nothing here reads. -/

namespace Vex.Dev.Tty

open Lib Libk

abbrev TTY_RING_SIZE : Nat := 4096
abbrev MAX_CANON : Nat := 4096

/-- `MARK`, the byte that begins a mark of `PARMRK`. -/
abbrev MARK : UInt8 := 0xFF

/-! ## Terminal settings -/

/-- The special characters and the limits of a read, by their index in `c_cc`. -/
inductive Special
  | intr | quit | erase | kill | eof | eol | eol2 | start | stop | susp | reprint | werase | lnext
  | status | min | time
  deriving DecidableEq, Repr

/-- `termios_t`: the flags of `c_iflag` and `c_lflag` that the input side reads. -/
structure Termios where
  ignbrk : Bool
  brkint : Bool
  ignpar : Bool
  parmrk : Bool
  inpck : Bool
  istrip : Bool
  inlcr : Bool
  igncr : Bool
  icrnl : Bool
  iuclc : Bool
  ixon : Bool
  iutf8 : Bool
  isig : Bool
  icanon : Bool
  xcase : Bool
  echo : Bool
  echoe : Bool
  echoke : Bool
  noflsh : Bool
  iexten : Bool
  cc : Special → UInt8

abbrev POSIX_VDISABLE : UInt8 := 0

def Termios.isSpecial (termios : Termios) (byte : UInt8) (index : Special) : Bool :=
  termios.cc index ≠ POSIX_VDISABLE && termios.cc index = byte

/-- `CONTROL` of a letter. -/
def control (letter : UInt8) : UInt8 := letter &&& 0x1F

/-- `set_default_termios`. -/
def defaultTermios : Termios where
  ignbrk := false
  brkint := false
  ignpar := false
  parmrk := false
  inpck := false
  istrip := false
  inlcr := false
  igncr := false
  icrnl := true
  iuclc := false
  ixon := true
  iutf8 := false
  isig := true
  icanon := true
  xcase := false
  echo := true
  echoe := true
  echoke := true
  noflsh := false
  iexten := true
  cc
    | .intr => control 67
    | .quit => control 92
    | .erase => 0x7F
    | .kill => control 85
    | .eof => control 68
    | .eol => 0
    | .eol2 => 0
    | .start => control 81
    | .stop => control 83
    | .susp => control 90
    | .reprint => control 82
    | .werase => control 87
    | .lnext => control 86
    | .status => control 84
    | .min => 1
    | .time => 0

/-- `TTY_ERROR_*`. -/
inductive LineError
  | none | brk | parity | framing | overrun
  deriving DecidableEq, Repr

/-! ## Characters -/

def isUtf8Continuation (byte : UInt8) : Bool := byte &&& 0xC0 = 0x80

def islower (c : UInt8) : Bool := 97 ≤ c && c ≤ 122

def isblank (c : UInt8) : Bool := c = 9 || c = 32

/-- `xcase_unescape`: what stands for braces, the bar, the tilde and the grave accent. -/
def xcaseUnescape (byte : UInt8) : UInt8 :=
  match byte with
  | 40 => 123
  | 41 => 125
  | 33 => 124
  | 94 => 126
  | 39 => 96
  | _ => 0

/-! ## The discipline -/

/-- `tty_discipline_state_t` and the settings. -/
structure Discipline where
  data : Nat → UInt8
  /-- The bits of `delimiters`. -/
  delimiters : Nat → Bool
  head : BitVec 32
  tail : BitVec 32
  lineEnd : BitVec 32
  literalNext : Bool
  escaped : Bool
  termios : Termios

namespace Discipline

variable (d : Discipline)

/-- `tty_discipline_init`, with what is on the page. -/
def init (data : Nat → UInt8) (termios : Termios) : Discipline where
  data := data
  delimiters := fun _ => false
  head := 0
  tail := 0
  lineEnd := 0
  literalNext := false
  escaped := false
  termios := termios

/-- `tty_ring_at`. -/
def ringAt (position : BitVec 32) : UInt8 := d.data (position.toNat % TTY_RING_SIZE)

/-- `tty_ring_room`. -/
def ringRoom : BitVec 32 := BitVec.ofNat 32 TTY_RING_SIZE - (d.tail - d.head)

def delimiterAt (position : BitVec 32) : Bool := d.delimiters (position.toNat % TTY_RING_SIZE)

def store (byte : UInt8) (delimiter : Bool) : Discipline := { d with
  data := Function.update d.data (d.tail.toNat % TTY_RING_SIZE) byte
  delimiters := Function.update d.delimiters (d.tail.toNat % TTY_RING_SIZE) delimiter
  tail := d.tail + 1 }

/-! ### Erasing -/

/-- The loop of `erase_last`, over the bytes that continue a character. -/
def eraseContinuations : (fuel : Nat) → (tail : BitVec 32) → BitVec 32
  | 0, tail => tail
  | fuel + 1, tail =>
    if d.termios.iutf8 ∧ tail ≠ d.lineEnd ∧ isUtf8Continuation (d.ringAt tail) then
      eraseContinuations fuel (tail - 1)
    else tail

/-- How far the line being edited goes, which bounds the loops below. -/
def editingLength : Nat := (d.tail - d.lineEnd).toNat

/-- `erase_last`; none if there is nothing to erase. -/
def eraseLast : Option Discipline :=
  if d.tail = d.lineEnd then none
  else some { d with tail := d.eraseContinuations d.editingLength (d.tail - 1) }

def erase : Discipline := d.eraseLast.getD d

/-- A loop of `erase_word`, while the last byte is of a kind. -/
def eraseWhile (kind : UInt8 → Bool) : (fuel : Nat) → Discipline → Discipline
  | 0, d => d
  | fuel + 1, d =>
    if d.tail ≠ d.lineEnd ∧ kind (d.ringAt (d.tail - 1)) then eraseWhile kind fuel d.erase else d

def eraseWord : Discipline :=
  let d := eraseWhile isblank d.editingLength d
  eraseWhile (fun byte => !isblank byte) d.editingLength d

/-- The loop of `kill_line` with a visible erase. -/
def eraseAll : (fuel : Nat) → Discipline → Discipline
  | 0, d => d
  | fuel + 1, d =>
    match d.eraseLast with
    | some d => eraseAll fuel d
    | none => d

def killLine : Discipline :=
  if d.termios.echo ∧ d.termios.echoke ∧ d.termios.echoe then eraseAll (d.editingLength + 1) d
  else { d with tail := d.lineEnd }

/-! ### Storing -/

def inputFits (count : Nat) : Bool :=
  if d.termios.icanon then
    d.ringRoom > BitVec.ofNat 32 count &&
      d.tail - d.lineEnd + BitVec.ofNat 32 count < BitVec.ofNat 32 MAX_CANON
  else d.ringRoom ≥ BitVec.ofNat 32 count

def endRawData : Discipline := if d.termios.icanon then d else { d with lineEnd := d.tail }

def putData (byte : UInt8) : Discipline :=
  let count := if d.termios.parmrk && !d.termios.ignpar && byte = MARK then 2 else 1
  if d.inputFits count then
    endRawData ((List.range count).foldl (fun d _ => d.store byte false) d)
  else d

def putError (byte : UInt8) : Discipline :=
  let d :=
    if !d.termios.parmrk then if d.inputFits 1 then d.store 0 false else d
    else if d.inputFits 3 then ((d.store MARK false).store 0 false).store byte false
    else d
  d.endRawData

def endLine (byte : UInt8) : Discipline :=
  if d.ringRoom = 0 then d
  else
    let d := d.store byte true
    { d with lineEnd := d.tail }

/-! ### Receiving -/

/-- `tty_discipline_flush_input`. -/
def flushInput : Discipline := { d with
  head := d.tail
  lineEnd := d.tail
  literalNext := false
  escaped := false }

/-- `flow_control`: whether the byte starts or stops the output. -/
def flowControl (byte : UInt8) : Bool :=
  d.termios.ixon && (d.termios.isSpecial byte .start || d.termios.isSpecial byte .stop)

/-- The signals of `signal_of`. -/
inductive Signal
  | sigint | sigquit | sigtstp | siginfo
  deriving DecidableEq, Repr

def signalOf (byte : UInt8) : Option Signal :=
  if d.termios.isSpecial byte .intr then some .sigint
  else if d.termios.isSpecial byte .quit then some .sigquit
  else if d.termios.isSpecial byte .susp then some .sigtstp
  else if d.termios.isSpecial byte .status then some .siginfo
  else none

/-- `signal_character`; none if the byte is not one. -/
def signalCharacter (byte : UInt8) : Option Discipline :=
  if !d.termios.isig then none
  else (d.signalOf byte).map fun sig =>
    if sig ≠ .siginfo ∧ !d.termios.noflsh then d.flushInput else d

def receiveCanonical (byte : UInt8) : Discipline :=
  if d.escaped then
    let byte :=
      if islower byte then toupper byte
      else if xcaseUnescape byte ≠ 0 then xcaseUnescape byte
      else byte
    putData { d with escaped := false } byte
  else if d.termios.isSpecial byte .erase then d.erase
  else if d.termios.isSpecial byte .kill then d.killLine
  else if d.termios.iexten && d.termios.isSpecial byte .werase then d.eraseWord
  else if d.termios.iexten && d.termios.isSpecial byte .reprint then d
  else if d.termios.iexten && d.termios.isSpecial byte .lnext then { d with literalNext := true }
  else if d.termios.isSpecial byte .eof then d.endLine 0
  else if byte = 10 || d.termios.isSpecial byte .eol ||
      d.termios.iexten && d.termios.isSpecial byte .eol2 then d.endLine byte
  else if d.termios.xcase && byte = 92 then { d with escaped := true }
  else d.putData byte

/-- The translations of a carriage return and a newline in `receive_byte`; none if the byte is
ignored. -/
def translate (byte : UInt8) : Option UInt8 :=
  if byte = 13 then
    if d.termios.igncr then none else some (if d.termios.icrnl then 10 else byte)
  else some (if byte = 10 ∧ d.termios.inlcr then 13 else byte)

def receiveByte (byte : UInt8) : Discipline :=
  let byte := if d.termios.istrip then byte &&& 0x7F else byte
  if d.literalNext then putData { d with literalNext := false } byte
  else if d.flowControl byte then d
  else match d.signalCharacter byte with
    | some d => d
    | none =>
      match d.translate byte with
      | none => d
      | some byte =>
        let byte := if d.termios.iuclc then tolower byte else byte
        if d.termios.icanon then d.receiveCanonical byte else d.putData byte

def receiveBreak : Discipline :=
  if d.termios.ignbrk then d
  else if d.termios.brkint then d.flushInput
  else d.putError 0

def receiveBadByte (byte : UInt8) : Discipline :=
  if !d.termios.inpck then d.receiveByte byte
  else if !d.termios.ignpar then d.putError byte
  else d

/-- `tty_discipline_receive`. -/
def receive (byte : UInt8) : LineError → Discipline
  | .none => d.receiveByte byte
  | .brk => d.receiveBreak
  | .parity | .framing | .overrun => d.receiveBadByte byte

/-! ### Reading and settings -/

/-- The loop of `tty_discipline_read`, with what has been copied: the bytes, `end_of_file` and the
state after it. -/
def readLoop : (left : Nat) → (copied : List UInt8) → Discipline → List UInt8 × Bool × Discipline
  | 0, copied, d => (copied, false, d)
  | left + 1, copied, d =>
    if d.head = d.lineEnd then (copied, false, d)
    else
      let delimiter := d.termios.icanon && d.delimiterAt d.head
      let byte := d.ringAt d.head
      let d := { d with head := d.head + 1 }
      if delimiter && byte = 0 then (copied, copied.isEmpty, d)
      else if delimiter then (copied ++ [byte], false, d)
      else readLoop left (copied ++ [byte]) d

/-- `tty_discipline_read`. -/
def read (size : Nat) : List UInt8 × Bool × Discipline := readLoop size [] d

/-- A change of the settings with `tty_discipline_set_termios`. -/
def setTermios (termios : Termios) : Discipline :=
  if d.termios.icanon && !termios.icanon then
    { d with lineEnd := d.tail, literalNext := false, escaped := false, termios := termios }
  else { d with termios := termios }

end Discipline

/-- The calls of the discipline that change the input. -/
inductive TtyOp
  | receive (byte : UInt8) (error : LineError)
  | read (size : Nat)
  | flushInput
  | setTermios (termios : Termios)

def Discipline.apply (d : Discipline) : TtyOp → Discipline
  | .receive byte error => d.receive byte error
  | .read size => (d.read size).2.2
  | .flushInput => d.flushInput
  | .setTermios termios => d.setTermios termios

end Vex.Dev.Tty
