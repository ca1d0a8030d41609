import Kontsnor.Block.CacheCoherence
import Kontsnor.Ext.AllOrNothing
import Kontsnor.Ext.MountSound
import Kontsnor.Ext.PageReads
import Kontsnor.Ext.Metadata
import Kontsnor.Memory.CopyOnWriteRuns
import Kontsnor.Sync.WaitQueueSpec
import Kontsnor.Net.TcpWrap
import Kontsnor.Fs.Jail
import Kontsnor.Process.Pid
import Kontsnor.Process.Blocking
import Kontsnor.Process.Reaping
import Kontsnor.Process.Signal
import Kontsnor.Fs.SetUid
import Kontsnor.Fs.Contents
import Kontsnor.Fs.Authorised
import Kontsnor.Process.RunQueues
import Kontsnor.Process.FutexWakeups
import Kontsnor.Memory.RegionsApart
import Kontsnor.Memory.FaultProgress
import Kontsnor.Ipc.Semaphores
import Kontsnor.Fs.RangeLocks
import Kontsnor.Process.Descriptors
import Kontsnor.Fs.Pipe
import Kontsnor.Memory.PageTableLock
import Kontsnor.Fs.Append
import Kontsnor.Fs.Epoll
import Kontsnor.Memory.CloneFailure
import Kontsnor.Fs.Dcache
import Kontsnor.Ext.DirLocks
import Kontsnor.Process.ExitGroup
import Kontsnor.Process.SignalFrames
import Kontsnor.Net.TcpAcks
import Kontsnor.Fs.TimerFd
