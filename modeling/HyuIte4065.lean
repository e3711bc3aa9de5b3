import HyuIte4065.Library.Transition
import HyuIte4065.Library.Search
import HyuIte4065.Library.LinkedList
import HyuIte4065.Library.Filing
import HyuIte4065.Library.Graph
import HyuIte4065.Library.Replay
import HyuIte4065.Library.UndoLog
import HyuIte4065.Library.Enumerate
import HyuIte4065.Library.Forest
import HyuIte4065.Library.Loops
import HyuIte4065.Lock.Table
import HyuIte4065.Lock.Shape
import HyuIte4065.Lock.Append
import HyuIte4065.Lock.Detect
import HyuIte4065.Lock.Unlock
import HyuIte4065.Lock.Queues
import HyuIte4065.Lock.Grant
import HyuIte4065.Lock.Deadlock
import HyuIte4065.Lock.Refusal
import HyuIte4065.Lock.Sharing
import HyuIte4065.Lock.Frame
import HyuIte4065.Transactions.Program
import HyuIte4065.Transactions.Steps
import HyuIte4065.Transactions.Frame
import HyuIte4065.Transactions.Invariant
import HyuIte4065.Transactions.Alone
import HyuIte4065.Transactions.Rollback
import HyuIte4065.Transactions.Serial
import HyuIte4065.Transactions.Workload
import HyuIte4065.Transactions.Growth
import HyuIte4065.Transactions.Overflow
import HyuIte4065.Query.Operators
import HyuIte4065.Query.Joiner
import HyuIte4065.Query.Answer
import HyuIte4065.Query.Solutions
import HyuIte4065.Query.Results
import HyuIte4065.Query.Requests
import HyuIte4065.Query.Run
import HyuIte4065.Query.Trees
import HyuIte4065.Query.Widths
import HyuIte4065.Query.Aligned
import HyuIte4065.Query.Planted
import HyuIte4065.Query.Sums
import HyuIte4065.Query.Executed
import HyuIte4065.Query.Outcome
import HyuIte4065.Query.DisjointSet
import HyuIte4065.Query.Groups
import HyuIte4065.Query.Components
import HyuIte4065.Query.Connect
import HyuIte4065.Query.Correct
import HyuIte4065.Snapshot.Steps
import HyuIte4065.Snapshot.Linearize
import HyuIte4065.Snapshot.WaitFree
import HyuIte4065.Queue.Unbounded
import HyuIte4065.Queue.Fifo
import HyuIte4065.Queue.Bounded
import HyuIte4065.Queue.Tickets
import HyuIte4065.ClhLock.Steps
import HyuIte4065.ClhLock.HandOver
import HyuIte4065.BufferPool.UtList
import HyuIte4065.BufferPool.Chunk
import HyuIte4065.BufferPool.Parallel
import HyuIte4065.PrimeCond.Steps
import HyuIte4065.PrimeCond.Moves
import HyuIte4065.PrimeCond.Rounds
import HyuIte4065.PrimeCond.Tally
import HyuIte4065.PrimeCond.Protocol
import HyuIte4065.PrimeCond.Exact
import HyuIte4065.QueryPool.Steps
import HyuIte4065.QueryPool.Moves
import HyuIte4065.QueryPool.Slots
import HyuIte4065.QueryPool.Pool
import HyuIte4065.QueryPool.Progress
import HyuIte4065.QueryPool.Shutdown
import HyuIte4065.Library.Atomic
import HyuIte4065.Library.SortedChain
import HyuIte4065.SortedList.Nodes
import HyuIte4065.FineGrained.Steps
import HyuIte4065.SortedList.View
import HyuIte4065.FineGrained.Invariant
import HyuIte4065.FineGrained.Moves
import HyuIte4065.FineGrained.Linear
import HyuIte4065.Optimistic.Steps
import HyuIte4065.Optimistic.Invariant
import HyuIte4065.Optimistic.Moves
import HyuIte4065.Optimistic.Linear
import HyuIte4065.Library.Pieces
import HyuIte4065.Query.Parser
import HyuIte4065.Query.RoundTrip
import HyuIte4065.Library.Worklist
import HyuIte4065.Query.Propagate
import HyuIte4065.Query.AnyQuery
import HyuIte4065.Query.SameAnswer
import HyuIte4065.SortedList.Sequential
import HyuIte4065.CoarseGrained.Steps
import HyuIte4065.CoarseGrained.Sequential
import HyuIte4065.SortedList.Alone
import HyuIte4065.FineGrained.Sequential
import HyuIte4065.Optimistic.Sequential
import HyuIte4065.SortedList.AnyKey
import HyuIte4065.CoarseGrained.Freed
import HyuIte4065.CoarseGrained.Linear
import HyuIte4065.Library.Borders
import HyuIte4065.PrimeMt.Split
import HyuIte4065.PrimeMt.Count
import HyuIte4065.Library.SearchTree
import HyuIte4065.Query.RequiredIUs
import HyuIte4065.Library.Bytes
import HyuIte4065.Query.RelationFile
import HyuIte4065.Query.Malformed
import HyuIte4065.BufferPool.Failure
import HyuIte4065.BufferPool.ListOps
import HyuIte4065.BufferPool.Histories
import HyuIte4065.ThreadPool.Steps
import HyuIte4065.ThreadPool.Moves
import HyuIte4065.ThreadPool.Invariant
import HyuIte4065.ThreadPool.Finish
import HyuIte4065.ThreadPool.Teardown
import HyuIte4065.Library.Buffers
import HyuIte4065.Queue.GiantLock
import HyuIte4065.Queue.Workers
import HyuIte4065.Queue.Delivery
import HyuIte4065.Query.Main
import HyuIte4065.Query.Sql
import HyuIte4065.Library.Numerals
import HyuIte4065.Transactions.LogFiles
import HyuIte4065.SpinLock.Steps
import HyuIte4065.SpinLock.Counting
import HyuIte4065.PrimeCond.Primes
import HyuIte4065.PrimeSpin.Steps
import HyuIte4065.PrimeSpin.Moves
import HyuIte4065.PrimeSpin.Rounds
import HyuIte4065.PrimeSpin.Exact
import HyuIte4065.Library.Amortized
import HyuIte4065.Queue.Linear
import HyuIte4065.Queue.Overtaking
import HyuIte4065.Queue.Progress
