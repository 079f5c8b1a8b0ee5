import Darts.Lib.Transition
import Darts.Lib.Word
import Darts.Threading.SyncSlot
import Darts.Threading.Machine
import Darts.Threading.OneShot
import Darts.Threading.RefCount
import Darts.Threading.Resettable
import Darts.Lib.CLoop
import Darts.Lib.RowCopies
import Darts.Lib.Torus
import Darts.Matrix.Mat
import Darts.Cannon.Index
import Darts.CannonDfswp.Program
import Darts.CannonDfswp.Flow
import Darts.CannonDfswp.Spsc
import Darts.CannonDfswp.Scheduled
import Darts.Counters
import Darts.Runtime.Links
import Darts.Runtime.Linked
import Darts.Scheduler.Hint
import Darts.Scheduler.PushFull
import Darts.Scheduler.Static
import Darts.CannonDouble.Independent
import Darts.Loops.Nested
import Darts.Loops.SerialFor
import Darts.Loops.Lifetime
import Darts.FastMergesort.Sort
import Darts.FastMergesort.Written
import Darts.Mergesort.Correct
import Darts.MatrixMultiply.Builds
import Darts.MatrixMultiply.CopyMatrix
import Darts.Cannon.TileCopies
import Darts.Loops.FanOut
import Darts.Scheduler.RingSteps
import Darts.Runtime.Affinity
import Darts.Scheduler.Steal
import Darts.Scheduler.Dispatch
import Darts.Queue.Walk
import Darts.Queue.Progress
import Darts.Queue.Memory
import Darts.Queue.Blocking
import Darts.CannonDfswp.RealCorrect
import Darts.Scheduler.Conserved
import Darts.Scheduler.Execution
import Darts.OnRuntime
import Darts.Fib
import Darts.StrictTree
import Darts.NonStrictTree
