import DistCompile.Lib.Run
import DistCompile.Lib.Framing
import DistCompile.Lib.Kahn
import DistCompile.Text
import DistCompile.Graph
import DistCompile.Db
import DistCompile.Coordinator
import DistCompile.Tables
import DistCompile.Pool
import DistCompile.Completion
import DistCompile.Submit
import DistCompile.Counters
import DistCompile.Reference
import DistCompile.Faithful
import DistCompile.EndToEnd
import DistCompile.Countdown
import DistCompile.Finish
import DistCompile.Overlooked
import DistCompile.Lease
import DistCompile.Fleet
import DistCompile.Manifest
import DistCompile.Preprocess
import DistCompile.Client
import DistCompile.Worker
import DistCompile.InputNames
import DistCompile.Serve
import DistCompile.CompileKeys
import DistCompile.StateFile
import DistCompile.Incremental
import DistCompile.BlobStore
import DistCompile.Attempts
import DistCompile.Settled
import DistCompile.Deliveries
import DistCompile.Assignments
import DistCompile.AsyncCommit
import DistCompile.Resubmit
import DistCompile.Sessions
import DistCompile.Verdicts
import DistCompile.FailedBuilds
import DistCompile.ToolErrors
import DistCompile.ActionKeys
import DistCompile.RawStrings
import DistCompile.LiveWorkers
import DistCompile.Stored
import DistCompile.Uploads
import DistCompile.EagerCount
import DistCompile.Rebuild
import DistCompile.Deadlock
import DistCompile.Cascade
import DistCompile.Resolution
import DistCompile.SavedState
import DistCompile.Lib.Greedy
import DistCompile.Schedule
import DistCompile.Units
import DistCompile.Partitions
import DistCompile.Normalise
import DistCompile.Grammar
import DistCompile.ArrayLiterals
import DistCompile.Retries
import DistCompile.Lib.Refresh
import DistCompile.Outputs
import DistCompile.Preparation
import DistCompile.Flags
import DistCompile.Termination
import DistCompile.LocalBuild
import DistCompile.LongPoll
import DistCompile.Parallel
import DistCompile.Heartbeats
import DistCompile.Unchanged
import DistCompile.Lib.Multiplex
import DistCompile.Processes
import DistCompile.WorkerParts
