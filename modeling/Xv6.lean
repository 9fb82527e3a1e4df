import Xv6.Safety
import Xv6.Accounting
import Xv6.Demand
import Xv6.Copies
import Xv6.FaultSteps
import Xv6.EvictSteps
import Xv6.Kill
import Xv6.Pipe
import Xv6.Wait
import Xv6.Recovery
import Xv6.Fs.Counts
import Xv6.Mlfq
import Xv6.PageMap
import Xv6.ExecAtomic
import Xv6.Smp.Wakeup
import Xv6.SecondChance
import Xv6.RoundRobin
import Xv6.Console
import Xv6.Strings
import Xv6.ArgBlock
import Xv6.Fs.Chunks
import Xv6.User.Grep
import Xv6.Memmove
import Xv6.Printint
