import Xv6.LogSpace
import Xv6.CommitSpace
import Xv6.DanglingEntries
import Xv6.LinkCounts
import Xv6.VirtioProtocol
import Xv6.FileTableCalls
import Xv6.Kill
import Xv6.WaitExit
import Xv6.Rendezvous
import Xv6.SleepLock
import Xv6.PipeWakeups
import Xv6.LogWait
import Xv6.BufferLru
import Xv6.MkfsAgreement
import Xv6.ShellAcceptance
import Xv6.Reclaim
import Xv6.CopyRefinement
import Xv6.FailedDelivery
import Xv6.FileWrite
import Xv6.Fork
import Xv6.Printint
import Xv6.Grep
import Xv6.InodeRefinement
import Xv6.Sixfive
import Xv6.Bitmap
