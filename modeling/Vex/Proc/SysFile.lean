import Vex.Errno
import Vex.Fs.Append

/-! The `read` and `write` system calls (`sys_file.c`) with `file_read` and `file_write` (`file.c`)
under them. A transfer goes chunk by chunk through a page of the kernel: a read asks the file first
and copies to user memory after, a write the other way round.

What the lower layers do in each turn is an answer from outside. A write that fails may have put a
part of its bytes down: ext2 writes the inode after the data, and a block device one sector after
the other. -/

namespace Vex.Proc.SysFile

open Fs.Append (Bytes writeAt)

abbrev FILE_IO_CHUNK : Nat := 4096

inductive Kind
  | file
  | block
  /-- A character device with a memory behind it. -/
  | framebuffer
  /-- A terminal, or another character device that hands out what comes in. -/
  | stream
  deriving DecidableEq, Repr

/-- `VNODE_CHAR_DEV`. -/
def Kind.charDev : Kind → Bool
  | file | block => false
  | framebuffer | stream => true

structure Node where
  kind : Kind
  /-- The bytes of a file or of a device; of a stream those it was given. -/
  content : Bytes
  /-- What a stream has to hand out. -/
  input : Bytes
  /-- How many bytes were put into the node so far. -/
  written : Nat
  deriving DecidableEq, Repr

namespace Node

/-- `st_size`, which no character device has. -/
def statSize (n : Node) : Nat := if n.kind.charDev then 0 else n.content.length

def put (n : Node) (offset : Nat) (data : Bytes) : Node :=
  { n with
    content := if n.kind = .stream then n.content ++ data else writeAt n.content offset data
    written := n.written + data.length }

/-- The bytes a read of `size` at `offset` gets. -/
def get (n : Node) (offset size : Nat) : Bytes :=
  if n.kind = .stream then n.input.take size else (n.content.drop offset).take size

/-- A stream hands a byte out once. -/
def drain (n : Node) (size : Nat) : Node :=
  if n.kind = .stream then { n with input := n.input.drop size } else n

end Node

structure File where
  node : Node
  offset : Nat
  /-- `O_RDONLY`, `O_WRONLY` and `O_APPEND`. -/
  readable : Bool
  writable : Bool
  append : Bool
  deriving DecidableEq, Repr

/-- What `ops->write` does when it is called with enough bytes. -/
inductive WriteAnswer
  | moves (count : Nat)
  /-- It fails after it has put `count` bytes down. -/
  | fails (e : Errno) (count : Nat)

/-- What comes from outside in a turn of `write_file`. -/
structure WriteTurn where
  /-- `vnode_stat` fails. -/
  stat : Option Errno
  /-- `vnode_remove_privs` fails. -/
  privs : Option Errno
  write : WriteAnswer

namespace File

/-- `count` bytes were read. -/
def advance (f : File) (count : Nat) : File :=
  { f with node := f.node.drain count, offset := f.offset + count }

/-- `data` was written at the position. -/
def put (f : File) (data : Bytes) : File :=
  { f with node := f.node.put f.offset data, offset := f.offset + data.length }

/-- `file->offset = stat.st_size`. -/
def toEnd (f : File) : File := { f with offset := f.node.statSize }

/-- `file_read`. The answer is an error or the most that is handed out. -/
def fileRead (f : File) (answer : Except Errno Nat) (size : Nat) : Except Errno Bytes × File :=
  if ¬ f.readable then (.error .EBADF, f)
  else match answer with
    | .error e => (.error e, f)
    | .ok count =>
      (.ok (f.node.get f.offset (min count size)),
        f.advance (f.node.get f.offset (min count size)).length)

/-- `vnode_write`, and the position moved on by what it returns. -/
def vnodeWrite (f : File) (answer : WriteAnswer) (data : Bytes) : Except Errno Nat × File :=
  match answer with
  | .moves count => (.ok (data.take count).length, f.put (data.take count))
  | .fails e count => (.error e, { f with node := f.node.put f.offset (data.take count) })

/-- `file_write` once the position is set. -/
def writeHere (f : File) (t : WriteTurn) (data : Bytes) : Except Errno Nat × File :=
  match t.privs with
  | some e => if data.length > 0 then (.error e, f) else f.vnodeWrite t.write data
  | none => f.vnodeWrite t.write data

def fileWrite (f : File) (t : WriteTurn) (data : Bytes) : Except Errno Nat × File :=
  if ¬ f.writable then (.error .EBADF, f)
  else if f.append then
    match t.stat with
    | some e => (.error e, f)
    | none => f.toEnd.writeHere t data
  else f.writeHere t data

end File

/-- User memory, and for every address the error of a load and of a store. -/
structure UserMem where
  bytes : Nat → UInt8
  loadFault : Nat → Option Errno
  storeFault : Nat → Option Errno

/-- The first error in a range. -/
def faultIn (faults : Nat → Option Errno) (addr size : Nat) : Option Errno :=
  (List.range size).findSome? fun i => faults (addr + i)

namespace UserMem

def load (m : UserMem) (addr size : Nat) : Bytes :=
  (List.range size).map fun i => m.bytes (addr + i)

def store (m : UserMem) (addr : Nat) (data : Bytes) : UserMem :=
  { m with bytes := fun a => if addr ≤ a then data.getD (a - addr) (m.bytes a) else m.bytes a }

def userCopyin (m : UserMem) (addr size : Nat) : Except Errno Bytes :=
  match faultIn m.loadFault addr size with
  | some e => .error e
  | none => .ok (m.load addr size)

/-- `user_copyout`. What lies before the first bad address is copied. -/
def userCopyout (m : UserMem) (addr : Nat) (data : Bytes) : Except Errno Unit × UserMem :=
  match faultIn m.storeFault addr data.length with
  | some e =>
    (.error e, m.store addr (data.take ((List.range data.length).findIdx fun i =>
      (m.storeFault (addr + i)).isSome)))
  | none => (.ok (), m.store addr data)

end UserMem

/-- The loop of `read_file`. Every turn but the last moves a byte at least, so that as many turns as
there are bytes to read are enough. -/
def readLoop (turns : Nat → Except Errno Nat) :
    (fuel i addr remaining total : Nat) → File → UserMem → Except Errno Nat × File × UserMem
  | 0, _, _, _, total, f, m => (.ok total, f, m)
  | fuel + 1, i, addr, remaining, total, f, m =>
    if remaining = 0 then (.ok total, f, m)
    else match f.fileRead (turns i) (min remaining FILE_IO_CHUNK) with
      | (.error e, f) => (if total > 0 then .ok total else .error e, f, m)
      | (.ok data, f) =>
        if data.length = 0 then (.ok total, f, m)
        else match m.userCopyout addr data with
          | (.error e, m) => (.error e, f, m)
          | (.ok (), m) =>
            if data.length < min remaining FILE_IO_CHUNK ∨ f.node.kind.charDev then
              (.ok (total + data.length), f, m)
            else readLoop turns fuel (i + 1) (addr + data.length) (remaining - data.length)
              (total + data.length) f m

/-- The loop of `write_file`. -/
def writeLoop (turns : Nat → WriteTurn) (m : UserMem) :
    (fuel i addr remaining total : Nat) → File → Except Errno Nat × File
  | 0, _, _, _, total, f => (.ok total, f)
  | fuel + 1, i, addr, remaining, total, f =>
    if remaining = 0 then (.ok total, f)
    else match m.userCopyin addr (min remaining FILE_IO_CHUNK) with
      | .error e => (.error e, f)
      | .ok data =>
        match f.fileWrite (turns i) data with
        | (.error e, f) => (if total > 0 then .ok total else .error e, f)
        | (.ok count, f) =>
          if count = 0 then (.ok total, f)
          else if count < min remaining FILE_IO_CHUNK then (.ok (total + count), f)
          else writeLoop turns m fuel (i + 1) (addr + count) (remaining - count) (total + count) f

/-- A read that fails has moved nothing, and one that returns `n` the next `n` bytes of the file to
the first `n` of the buffer. -/
def ReadKept (addr size : Nat) (f : File) (m : UserMem) :
    Except Errno Nat × File × UserMem → Prop
  | (.error _, f', _) => f' = f
  | (.ok n, f', m') => n ≤ size ∧ (f.node.get f.offset n).length = n ∧ f' = f.advance n ∧
      m' = m.store addr (f.node.get f.offset n)

/-- Where a write begins. -/
def File.start (f : File) : File := if f.append then f.toEnd else f

/-- The file with `data` written to it. -/
def File.after (f : File) (data : Bytes) : File := if data = [] then f else f.start.put data

/-- A write that fails has moved nothing, and one that returns `n` the first `n` bytes of the
buffer. A stream has no position of its own. -/
def WriteKept (addr size : Nat) (f : File) (m : UserMem) : Except Errno Nat × File → Prop
  | (.error _, f') => f' = f
  | (.ok n, f') => n ≤ size ∧ f'.node = (f.after (m.load addr n)).node ∧
      (f.node.kind ≠ .stream → f'.offset = (f.after (m.load addr n)).offset)

/-! ## When it holds -/

namespace File

/-- A turn looks up the end of the file and sets the position. -/
def positions (f : File) (t : WriteTurn) : Bool := f.writable && f.append && t.stat.isNone

/-- A turn comes to `ops->write`. -/
def reaches (f : File) (t : WriteTurn) : Bool :=
  f.writable && (!f.append || t.stat.isNone) && t.privs.isNone

/-- How many bytes a turn takes, if it gets that many. -/
def takes (f : File) (t : WriteTurn) : Nat :=
  match t.write with
  | .moves count => if f.reaches t then count else 0
  | .fails .. => 0

end File

end Vex.Proc.SysFile
