import FastSafeIO.BatchMapping
import FastSafeIO.RxQueue

/- The addresses that mlx5e_alloc_rx_mpwqe writes into the UMR WQE, over whole runs of a
   receive queue with the device at work in between. -/
namespace PostedAddresses
open CallTree KernelCalls DmaLayer RxDriver IommuWorld AgentPool RxQueue BatchMapping

end PostedAddresses
