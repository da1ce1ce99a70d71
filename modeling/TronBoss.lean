import TronBoss.Log.Admission
import TronBoss.File.Blocking
import TronBoss.File.LockOrder
import TronBoss.Proc.ArrayBuild
import TronBoss.Proc.SleepWakeup
import TronBoss.File.Fifo
import TronBoss.File.FileRefs
import TronBoss.Fs.InodeCache
import TronBoss.Log.BufferList
import TronBoss.Log.BufferPool
import TronBoss.Sh.ParserCorrect
import TronBoss.Umalloc.Invariant
import TronBoss.Txn.Contents
import TronBoss.Txn.HoleFree
import TronBoss.Proc.Inherited
import TronBoss.Proc.SetPriority
import TronBoss.Ide.Coherence
import TronBoss.Ide.Requests
import TronBoss.Mkfs.Capacity
import TronBoss.Syscall.Paths
import TronBoss.Vm.Sbrk
import TronBoss.Syscall.Uproc
import TronBoss.File.Filewrite
import TronBoss.Fs.LinkSpec
import TronBoss.Fs.Attributes
import TronBoss.Fs.Credentials
import TronBoss.Grep.Grep
import TronBoss.File.Console
import TronBoss.Vm.Copyout
import TronBoss.Proc.SysSleep
import TronBoss.Proc.CpuTime
import TronBoss.Proc.Levels
import TronBoss.Ulib.Memmove
