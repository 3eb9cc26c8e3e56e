import Minirel.Writers
import Minirel.Autocommit
import Minirel.Recovery
import Minirel.LogHistory
import Minirel.WalFile
import Minirel.WriteAhead
import Minirel.Index.Overflow
import Minirel.Expr
import Minirel.Storage.HeapFile
import Minirel.Catalog
import Minirel.Executor
import Minirel.Planner
import Minirel.Index.Text
import Minirel.Pushdown
import Minirel.FailedStatements
import Minirel.IndexRuns
import Minirel.Isolation
import Minirel.Sql.Lexing
import Minirel.Sql.Termination
import Minirel.Sql.Errors
import Minirel.Sql.Calls
import Minirel.Encoding
import Minirel.SelectPlan
import Minirel.ThreeValued
import Minirel.Ambiguity
import Minirel.OperatorTrees
import Minirel.Index.Invariant
import Minirel.Index.Failures
import Minirel.Storage.Transparent
import Minirel.Storage.Frames
import Minirel.Storage.HeapWalk
import Minirel.Index.Descents
import Minirel.Joins
import Minirel.Sql.RoundTrip
import Minirel.Sql.Soundness
import Minirel.Repl
import Minirel.Index.NodeBytes
import Minirel.Storage.HeapRuns
import Minirel.Redo
import Minirel.IndexedReads
import Minirel.Index.Height
import Minirel.SelectRuns
import Minirel.UniqueRuns
import Minirel.Sql.Spelling
import Minirel.Lib.SnapshotStore
import Minirel.SnapshotRuns
