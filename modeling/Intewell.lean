import Intewell.Page.Run
import Intewell.Memblock.Full
import Intewell.Memblock.Request
import Intewell.Mmu.Undo
import Intewell.Region.ModifyFailure
import Intewell.Slub.KmallocRun
import Intewell.Heap.Accounting
import Intewell.Sched.TaskqRun
import Intewell.Timer.Run
import Intewell.Period.Run
import Intewell.Period.GroupRun
import Intewell.Futex.Counts
import Intewell.Ktimer.Run
import Intewell.Ktimer.Forward
import Intewell.Mpscq.Delivery
import Intewell.Msgq.Run
import Intewell.Msgq.Wakeup
import Intewell.Signal.Order
import Intewell.Signal.Pending
import Intewell.Sema.Tokens
import Intewell.Sema.Uninterruptible
import Intewell.Sema.Reset
import Intewell.Spinlock
import Intewell.Wait
import Intewell.Vfork
import Intewell.Fork
import Intewell.Shm
import Intewell.Tick
import Intewell.Bus
