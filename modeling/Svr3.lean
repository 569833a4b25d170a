import Svr3.Os.MallocRun
import Svr3.Os.CalloutRun
import Svr3.Fs.S5AllocRun
import Svr3.Fs.S5IallocRun
import Svr3.Io.SemUndoRun
import Svr3.Os.ReclockHeld
import Svr3.Io.StreamBufcall
import Svr3.Os.IgetRun
import Svr3.Os.BioRun
import Svr3.Io.Clist
import Svr3.Libmalloc.SmallRun
import Svr3.Fs.S5FifoRun
import Svr3.Cmd.DcSqrt
import Svr3.Fs.S5Trunc
import Svr3.Nudnix.RcopyinFault
import Svr3.Nudnix.RcopyoutLost
import Svr3.Cmd.CronTablesRun
import Svr3.Sccs.Rmdel
import Svr3.Sccs.Diffin
import Svr3.Sccs.Newsid
import Svr3.Sccs.Dolist
import Svr3.Sccs.DelTable
import Svr3.Cmd.CronLine
import Svr3.Cmd.PackDepth
import Svr3.Cmd.Unpack
import Svr3.Nudnix.AuthIdmapRun
import Svr3.Nudnix.AuthLock
import Svr3.Nudnix.AuthSetidmap
import Svr3.As.PuntRun
import Svr3.Fs.S5BlklistRun
import Svr3.Nudnix.RfcanonTrip
import Svr3.Nudnix.RfcanonRoom
import Svr3.Nudnix.QueueHist
import Svr3.Cmd.ShAwaitRun
import Svr3.Libc.StdioRun
import Svr3.As.Combine
import Svr3.Cmd.CronOccur
import Svr3.Cmd.CronGe
import Svr3.Os.FlockFail
import Svr3.Os.Swapfind
import Svr3.Libc.QsortRun
import Svr3.Io.StreamPulled
import Svr3.Os.Page
import Svr3.Os.Growreg
import Svr3.Os.Vhand
import Svr3.Fs.S5Rablock
import Svr3.Libc.Realloc
import Svr3.Libc.Tsearch
import Svr3.Libc.L64a
import Svr3.Libc.Hsearch
import Svr3.Cmd.GmatchRun
import Svr3.Cmd.FgrepQueue
import Svr3.Cmd.RegexpRun
