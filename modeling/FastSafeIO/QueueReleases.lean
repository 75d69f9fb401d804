import FastSafeIO.DriverInvisible
import FastSafeIO.DriverProtection

/- Queues whose pages are mapped and unmapped one by one: every queue before the patch,
   and what the patch leaves single of a queue. Operations come in any order and with any
   arguments, any call may fail, and the device accesses memory all the time. -/
namespace QueueReleases
open CallTree KernelCalls DmaLayer RxDriver IommuWorld AgentPool RxQueue ReleaseProtection
  DriverProtection SinglePages DriverInvisible

section
variable {Mem : Type}

end

section
variable {rq : Rq} (api : DmaApi rq.dev) {w : World}
include api

/- One page at a time, in either driver. -/

end

section
variable {rq : Rq} (api : DmaApi rq.dev) {w : World}
include api

end

section
variable {Mem : Type} (can : QueueOp → Prop) (step : QueueOp → Mem → Rx (QueueResult × Mem))

/- A fragment gets a fresh page, which its queue then gives up, the page cache being full. -/

end

end QueueReleases
