import FbuThreadPool.Transition
import FbuThreadPool.Completion
import FbuThreadPool.JobCounter
import FbuThreadPool.Pool.State
import FbuThreadPool.Pool.Step
import FbuThreadPool.Pool.Invariant
import FbuThreadPool.Pool.Refinement
import FbuThreadPool.Pool.Properties
import FbuThreadPool.Pool.Shutdown
import FbuThreadPool.Pool.Executor
import FbuThreadPool.Pool.ExecutorCount
import FbuThreadPool.Legacy
import FbuThreadPool.Legacy.Invariant
import FbuThreadPool.Pool.Progress
import FbuThreadPool.Pool.Destructor
import FbuThreadPool.Fs.Regex
import FbuThreadPool.Fs.PortableName
import FbuThreadPool.Legacy.Progress
