import Hilti.Lib.LookAhead
import Hilti.Sink.Reassembly
import Hilti.Spicy.RunTime
import Hilti.ThreadQueue.Termination
import Hilti.ThreadQueue.CanRead
import Hilti.TimerMgr.Firing
import Hilti.Bytes.Stream
import Hilti.Bytes.Future
import Hilti.Bytes.Extract
import Hilti.Justrx.Standard
import Hilti.Justrx.Negate
import Hilti.Justrx.Build
import Hilti.Justrx.Paths
import Hilti.Justrx.Copies
import Hilti.Justrx.Iterate
import Hilti.Justrx.Patterns
import Hilti.Justrx.Brackets
import Hilti.Justrx.Epsilon
import Hilti.Justrx.TagGroups
import Hilti.Bytes.Binary
import Hilti.Bytes.Strip
import Hilti.Vector.Totality
import Hilti.Embedded.Frozen
import Hilti.Embedded.Walking
import Hilti.Embedded.Composing
import Hilti.Bytes.Trim
import Hilti.Sink.Close
import Hilti.Sink.Positions
import Hilti.Sink.Visits
import Hilti.Sink.Undelivered
import Hilti.Sink.Insertion
import Hilti.TimerMgr.Links
import Hilti.TimerMgr.Clock
import Hilti.Channel.Runs
import Hilti.Memory.Flush
import Hilti.Memory.Removing
import Hilti.Memory.Pool
import Hilti.Clone.Sharing
import Hilti.Spicy.Nullable
import Hilti.Liveness.Exact
import Hilti.Blocks.Normalize
import Hilti.Composite.Coherence
import Hilti.Scheduler.Places
import Hilti.File.Lost
import Hilti.Lib.Repetition
import Hilti.Classifiers.Lookup
import Hilti.Strings.Charsets
import Hilti.Strings.Find
import Hilti.Spicy.Ambiguity
import Hilti.Lists.Appending
import Hilti.Integers.Power
import Hilti.Filters.Chain
import Hilti.Structs.Fields
import Hilti.Embedded.Blocks
import Hilti.File.Escape
import Hilti.Base64.Coder
import Hilti.Base64.Buffers
import Hilti.Mime.Dispatch
import Hilti.File.Counting
import Hilti.Classifiers.Prefixes
import Hilti.Filters.Inflate
import Hilti.Profiling.Model
import Hilti.Profiling.File
import Hilti.Profiling.Nesting
import Hilti.Ast.Model
import Hilti.Ast.Links
import Hilti.Ast.Members
import Hilti.Util.Model
import Hilti.Util.Expand
import Hilti.Util.Escapes
import Hilti.Scheduler.Hashing
import Hilti.Lib.Packed
import Hilti.Hooks.Groups
import Hilti.Embedded.Copying
import Hilti.Embedded.Hoisted
import Hilti.Embedded.Uniform
import Hilti.Strings.Fmt
import Hilti.Justrx.Regexec
import Hilti.Maps.Iterating
import Hilti.Maps.Sets
import Hilti.Regexp.Search
import Hilti.Liveness.Acyclic
import Hilti.Packing.Integers
