import Xv6.Log.Crash
import Xv6.Log.Group
import Xv6.Bio.Refine
import Xv6.Fs.Mkfs
import Xv6.Fs.Inodes
import Xv6.Pipe.Model
import Xv6.Pipe.Fifo
import Xv6.Pipe.Sleepers
import Xv6.Proc.Model
import Xv6.Proc.Moves
import Xv6.Proc.Sched
import Xv6.Proc.Wakeup
import Xv6.Proc.Family
import Xv6.Proc.Wait
import Xv6.Proc.History
import Xv6.Bio.Cache
import Xv6.Virtio.Desc
import Xv6.Virtio.Protocol
import Xv6.Lib.Pool
import Xv6.Lib.Radix
import Xv6.Vm.Model
import Xv6.Vm.Table
import Xv6.Vm.Space
import Xv6.Sys.Model
import Xv6.Fs.Refs
import Xv6.Console.Discipline
import Xv6.Sh.Grammar
import Xv6.Kill.Lost
import Xv6.Fs.Content
import Xv6.Fs.Image
import Xv6.Fs.At
import Xv6.Fs.Dir
import Xv6.Fs.Agree
import Xv6.Fs.Ops
import Xv6.Sys.Failed
import Xv6.Sys.Start
import Xv6.Fs.Short
import Xv6.Fs.Reserve
import Xv6.Vm.User
import Xv6.Pipe.Read
import Xv6.Sys.Counts
import Xv6.Sys.Exec
import Xv6.Sys.Fork
import Xv6.Sys.Grow
import Xv6.Sys.Inv
import Xv6.Sys.Runs
import Xv6.Sys.Calls
import Xv6.Fs.Bitmap
import Xv6.Fs.DirMap
import Xv6.Fs.Resolve
import Xv6.Bio.Lru
import Xv6.Intr.Follow
import Xv6.Uart.Transmit
import Xv6.Sys.Isolation
