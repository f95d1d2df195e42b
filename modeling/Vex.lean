import Vex.Core.Kplog
import Vex.Dev.SerialExchange
import Vex.Dev.TtyFlow
import Vex.Dev.TtyRead
import Vex.Fs.DirentsParts
import Vex.Fs.Ext2Links
import Vex.Fs.Ext2Reserved
import Vex.Fs.FatUpdate
import Vex.Fs.FcacheSync
import Vex.Fs.LiveVnodes
import Vex.Fs.MountUndo
import Vex.Fs.NamesTree
import Vex.Fs.NewEntryNames
import Vex.Fs.Privs
import Vex.Fs.UnmountSafe
import Vex.Fs.VnodeLife
import Vex.Libk.RadixMap
import Vex.Libk.Strings
import Vex.Mm.BootMemoryOwners
import Vex.Mm.Cow
import Vex.Mm.KmallocRuns
import Vex.Mm.PdmaAlloc
import Vex.Mm.PmapMap
import Vex.Proc.Deferred
import Vex.Proc.Exec
import Vex.Proc.Futex
import Vex.Proc.Groups
import Vex.Proc.Mutex
import Vex.Proc.PgrpCalls
import Vex.Proc.SignalFrame
import Vex.Proc.SignalTold
import Vex.Proc.SysFileKept
import Vex.Proc.WaitHeard
import Vex.Time.Clocksrc
