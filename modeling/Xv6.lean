import Xv6.Lib.Intrusive
import Xv6.Lib.Crash
import Xv6.Lib.Fallible
import Xv6.Param
import Xv6.Bio.Basic
import Xv6.Bio.Coherence
import Xv6.Bio.Lru
import Xv6.Log.Basic
import Xv6.Log.Admission
import Xv6.Log.Cache
import Xv6.Log.Crash
import Xv6.Proc.Basic
import Xv6.Proc.Kernel
import Xv6.File.Basic
import Xv6.File.Mutex
import Xv6.Proc.Queues
import Xv6.Proc.Lost
import Xv6.Proc.Alloc
import Xv6.Proc.Sched
import Xv6.Proc.Family
import Xv6.Proc.Lifecycle
import Xv6.Fs.Basic
import Xv6.Fs.Blocks
import Xv6.Fs.Ops
import Xv6.Fs.Mkfs
import Xv6.Fs.Dirs
import Xv6.Fs.Links
import Xv6.Fs.Namespace
import Xv6.Lib.BuddyTree
import Xv6.Lib.BuddyInterval
import Xv6.Buddy.Basic
import Xv6.Buddy.Repr
import Xv6.Buddy.Steps
import Xv6.Buddy.Init
import Xv6.Buddy.InitInv
import Xv6.Buddy.Run
import Xv6.Buddy.Live
import Xv6.Lib.Slist
import Xv6.Proc.PrioMem
import Xv6.Proc.Prio
import Xv6.Vm.Basic
import Xv6.Vm.Tree
import Xv6.Vm.Map
import Xv6.Vm.Free
import Xv6.File.Sys
import Xv6.File.Pipe
import Xv6.Fs.Path
import Xv6.Vm.Uvm
import Xv6.Vm.Copy
import Xv6.Vm.Exec
import Xv6.User.Grep
import Xv6.User.Umalloc
import Xv6.File.Procs
import Xv6.File.Refs
import Xv6.File.Exclusion
import Xv6.Lib.Ring
import Xv6.Dev.Console
import Xv6.Dev.LineDisc
import Xv6.Lib.Buffer
import Xv6.User.Sh
import Xv6.User.ShGrammar
import Xv6.User.ShParse
import Xv6.User.ShCmd
import Xv6.Fs.Data
import Xv6.Fs.RoundTrip
