import Veldb.Library.Predictions
import Veldb.Library.LittleEndian
import Veldb.Library.Reads
import Veldb.Library.Frames
import Veldb.Library.Journal
import Veldb.Library.WriteBehind
import Veldb.Library.Wildcard
import Veldb.Library.Attempts
import Veldb.Machine
import Veldb.Column
import Veldb.TextColumn
import Veldb.Table
import Veldb.Codec
import Veldb.CodecRoundTrip
import Veldb.Storage
import Veldb.Db
import Veldb.Catalog
import Veldb.SnapshotRoundTrip
import Veldb.BatchInsert
import Veldb.CatalogSteps
import Veldb.LogRecords
import Veldb.TableInvariant
import Veldb.LoggedInserts
import Veldb.WalRecovery
import Veldb.AppendFailures
import Veldb.Recovery
import Veldb.Durability
import Veldb.CrashedSnapshot
import Veldb.ConcurrentWriters
import Veldb.FailedWrites
import Veldb.Replication
import Veldb.ReplicaAgreement
import Veldb.CaughtUp
import Veldb.Follow
import Veldb.Like
import Veldb.LikeCorrect
import Veldb.Floats
import Veldb.Plan
import Veldb.Ast
import Veldb.Planner
import Veldb.DroppedClauses
import Veldb.Eval
import Veldb.Rows
import Veldb.CallRows
import Veldb.RowLocal
import Veldb.IntExact
import Veldb.SelectRun
import Veldb.GroupingCheck
import Veldb.GroupedFrame
import Veldb.GroupValues
import Veldb.AggregateRewriting
import Veldb.Grouping
import Veldb.AggregateMeaning
import Veldb.Crashes
import Veldb.CallCrashes
import Veldb.EvalCrashes
import Veldb.Library.Comparisons
import Veldb.OrderCrashes
import Veldb.PlannedQueries
import Veldb.GroupCrashes
import Veldb.QueryCrashes
import Veldb.TextArena
import Veldb.AcceptedSnapshot
import Veldb.Retries
import Veldb.Library.Saturation
import Veldb.SumOrder
import Veldb.GroupPartition
import Veldb.DistinctCounts
import Veldb.Library.StableSort
import Veldb.SortedRows
import Veldb.OutputRefs
import Veldb.CaseBranches
import Veldb.Library.FeedbackRegister
import Veldb.SmallDamage
import Veldb.DecoderCounts
import Veldb.DecoderTotality
import Veldb.AcceptedCounts
import Veldb.Calendar
import Veldb.Simd
import Veldb.Scanners
import Veldb.Broadcast
import Veldb.Completion
import Veldb.InsertColumns
import Veldb.UniqueEncoding
import Veldb.ExprTypes
import Veldb.QueryTypes
import Veldb.IllGrouped
import Veldb.RowSemantics
import Veldb.RowQueries
import Veldb.GroupSemantics
import Veldb.GroupQueries
import Veldb.Library.Simulation
import Veldb.Relations
import Veldb.StoredRows
import Veldb.Sessions
import Veldb.Restarts
import Veldb.TornStatements
import Veldb.Wire
import Veldb.Services
import Veldb.Requests
import Veldb.ReplicaReads
