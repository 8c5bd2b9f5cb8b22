import CCore.Base
import CCore.Double
import CCore.Library.Runs
import CCore.Library.CircularLinks
import CCore.Library.KeyedBuckets
import CCore.Library.BitSmear
import CCore.Library.Scanning
import CCore.Library.LastWriter
import CCore.Library.CondVar
import CCore.Library.Buffers
import CCore.Library.Joining
import CCore.Library.Decimals
import CCore.Library.PlaneSegments
import CCore.Library.SquareRoots
import CCore.Library.Smoothing
import CCore.Strings
import CCore.LinkedList.Model
import CCore.LinkedList.Representation
import CCore.LinkedList.Refinement
import CCore.LinkedList.InsertAt
import CCore.LinkedList.Clear
import CCore.LinkedList.Destructors
import CCore.HashTable.Model
import CCore.HashTable.FirstWins
import CCore.HashTable.Histories
import CCore.HashTable.Hashing
import CCore.HashTable.Capacity
import CCore.HashTable.Rounding
import CCore.HashTable.InMemory
import CCore.HashTable.Layout
import CCore.HashTable.Insertion
import CCore.HashTable.Teardown
import CCore.HashTable.Lookup
import CCore.Config.Model
import CCore.Config.Lines
import CCore.Config.Reading
import CCore.Config.Grammar
import CCore.Config.Effects
import CCore.Config.Parsing
import CCore.Config.Access
import CCore.Config.Answers
import CCore.Config.Loading
import CCore.Config.Ownership
import CCore.Config.Lookup
import CCore.Config.Numerals
import CCore.Config.Ledger
import CCore.Config.Assignments
import CCore.RunLoop.Model
import CCore.RunLoop.Registration
import CCore.RunLoop.FiringLaw
import CCore.RunLoop.Passes
import CCore.RunLoop.Periods
import CCore.RunLoop.Naming
import CCore.RunLoop.Shutdown
import CCore.ThreadPool.Model
import CCore.ThreadPool.Moves
import CCore.ThreadPool.Conservation
import CCore.ThreadPool.Counters
import CCore.ThreadPool.Wakeups
import CCore.ThreadPool.Progress
import CCore.ThreadPool.MemorySafety
import CCore.ThreadPool.Ordering
import CCore.Filesystem.Model
import CCore.Filesystem.Concat
import CCore.Filesystem.Trimming
import CCore.Filesystem.Replacing
import CCore.Format.Model
import CCore.Format.Coordinates
import CCore.Value.Collector
import CCore.Log.Model
import CCore.Log.Messages
import CCore.Log.Nesting
import CCore.Geometry.Model
import CCore.Geometry.Segments
import CCore.Geometry.Spheres
import CCore.Pid.Model
import CCore.Pid.Machine
import CCore.Pid.Bounds
import CCore.Pid.Output
import CCore.Pid.Loading
import CCore.Except.Backtrace
import CCore.Except.Forwarding
