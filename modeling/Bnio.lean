import Bnio.Lib.Transition
import Bnio.Lib.Links
import Bnio.Lib.Chain
import Bnio.Lib.PairingHeap
import Bnio.Lib.HeapLinks
import Bnio.Kqueue.Registration
import Bnio.Kqueue.Events
import Bnio.Kqueue.WaitQueue
import Bnio.Kqueue.Teardown
import Bnio.Kqueue.Enqueue
import Bnio.Kqueue.Deliver
import Bnio.Kqueue.History
import Bnio.Kqueue.RunLoop
import Bnio.Kqueue.Threads
import Bnio.Kqueue.Custody
import Bnio.Kqueue.AllOrNothing
import Bnio.Kqueue.Conservation
import Bnio.Kqueue.Shutdown
import Bnio.Uring.Context
import Bnio.Uring.RunLoop
import Bnio.Uring.Agreement
import Bnio.Uring.Ownership
import Bnio.Uring.Run
import Bnio.Uring.Delivery
import Bnio.Uring.Blocking
import Bnio.Uring.Drain
import Bnio.Uring.Outside
import Bnio.Uring.Conservation
import Bnio.Uring.Shutdown
import Bnio.Uring.Finish
import Bnio.Uring.SubmitFailure
import Bnio.Uring.RetryProgress
import Bnio.Ordering
import Bnio.Shutdown
import Bnio.Posix.Suspend
import Bnio.Posix.Rotation
import Bnio.Posix.Worker
import Bnio.Posix.Group
import Bnio.Posix.Phases
import Bnio.Posix.Steps
import Bnio.Posix.Accounting
import Bnio.Posix.DirectedWake
import Bnio.Posix.Watch
import Bnio.Posix.Wakeup
import Bnio.Posix.TimerDeadline
import Bnio.Posix.Deadline
import Bnio.Posix.Timers
import Bnio.Posix.TimerState
import Bnio.Posix.TimerWaits
import Bnio.Posix.TimerData
import Bnio.Posix.TimerRefinement
import Bnio.Posix.TimerCalls
import Bnio.Posix.TimerService
import Bnio.Posix.Membership
import Bnio.Posix.WaitLedger
import Bnio.Posix.SlotHeap
import Bnio.Posix.TimerFetch
import Bnio.Posix.TimerOrder
import Bnio.Posix.ExpiryRace
import Bnio.Posix.StopChannel
import Bnio.Posix.StopElection
import Bnio.Posix.SharedQueue
import Bnio.Posix.LocalQueue
import Bnio.Transfer.WriteAll
import Bnio.Transfer.Positioned
import Bnio.Tls.Stream
import Bnio.Tls.ReadWrite
import Bnio.Tls.ReadBytes
import Bnio.Tls.AsyncOperation
import Bnio.Tls.Session
import Bnio.Buffer.DynamicBuffer
import Bnio.Buffer.Reads
import Bnio.Posix.StopSafety
import Bnio.Posix.Custody
import Bnio.Posix.ClosedLoop
import Bnio.Posix.TimerStop
import Bnio.Uring.Serving
import Bnio.Kqueue.Serving
import Bnio.Kqueue.Results
import Bnio.Kqueue.Reporting
import Bnio.Kqueue.WakeChannel
import Bnio.ClosedLoop
import Bnio.Lib.Bytes
import Bnio.Net.Endpoint
import Bnio.Net.SocketAddress
import Bnio.Net.Dns
