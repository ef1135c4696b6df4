import MapReduce.Aggregate.Accumulator
import MapReduce.Aggregate.Basic
import MapReduce.Aggregate.Numeric
import MapReduce.Digest.Basic
import MapReduce.Digest.Blake3
import MapReduce.Failure
import MapReduce.Graph.Basic
import MapReduce.Graph.Order
import MapReduce.Job.Annotations
import MapReduce.Job.Basic
import MapReduce.Job.Draft
import MapReduce.Job.Manifest
import MapReduce.Json.Basic
import MapReduce.Json.Codec
import MapReduce.Json.Reader
import MapReduce.Key
import MapReduce.Launch
import MapReduce.Number.Ieee
import MapReduce.Number.Numeral
import MapReduce.Number.Reading
import MapReduce.Number.Shortest
import MapReduce.Operator.Basic
import MapReduce.Operator.Json
import MapReduce.OrderedMap
import MapReduce.Phase.Manifest
import MapReduce.Phase.Plan
import MapReduce.Pipeline
import MapReduce.Shuffle.Basic
import MapReduce.Shuffle.Partitioner
import MapReduce.Skew.PartitionFile
import MapReduce.Skew.PartitionMap
import MapReduce.Skew.Router
import MapReduce.Skew.Sample
import MapReduce.Skew.Settings
import MapReduce.Storage.Basic
import MapReduce.Storage.Disk
import MapReduce.Storage.NameTree
import MapReduce.Task
import MapReduce.Text.Blank
import MapReduce.Text.Bytes
import MapReduce.Text.Lines
import MapReduce.Text.Quoted
import MapReduce.Text.Unprintable
import MapReduce.Value.Encoding
import MapReduce.Value.Json
import MapReduce.Value.Order
import MapReduce.Value.Scalar
import MapReduce.Value.Tuple
import MapReduce.Workflow
import MapReduce.Proofs.OrderedMap
import MapReduce.Proofs.Router
import MapReduce.Proofs.Shuffle
import MapReduce.Proofs.SkewedJoin
import MapReduce.Proofs.KeyHash
import MapReduce.Proofs.PartitionPlan
import MapReduce.Proofs.SkewBudget
import MapReduce.Proofs.AggregateLaws
import MapReduce.Proofs.GroupedRun
import MapReduce.Proofs.Waves
import MapReduce.Proofs.GraphInvariant
import MapReduce.Proofs.GraphSearch
import MapReduce.Proofs.GraphOrder
import MapReduce.Proofs.PlanInvariant
import MapReduce.Proofs.DraftLatches
import MapReduce.Proofs.FrozenJobs
import MapReduce.Proofs.LeastOrder
import MapReduce.Proofs.WorkflowOrder
import MapReduce.Proofs.Attempts
import MapReduce.Proofs.LaunchSafety
import MapReduce.Proofs.Literals
import MapReduce.Proofs.Documents
import MapReduce.Proofs.Records
import MapReduce.Proofs.SameWork
import MapReduce.Proofs.KeyRuns
import MapReduce.Proofs.ParallelGroups
import MapReduce.Proofs.GroupedTask
import MapReduce.Proofs.Rounding
import MapReduce.Proofs.ShortestDecimal
import MapReduce.Proofs.RealReading
import MapReduce.Proofs.PartitionFiles
import MapReduce.Proofs.AccumulatorHistory
import MapReduce.Proofs.CombinerForest
import MapReduce.Proofs.ArrivalOrder
import MapReduce.Proofs.PlanBalance
import MapReduce.Proofs.Retries
import MapReduce.Proofs.PlannedRouting
import MapReduce.Proofs.RangeRouting
import MapReduce.Proofs.WordRouting
import MapReduce.Proofs.JobPartitioner
import MapReduce.Proofs.DeclaredOrder
import MapReduce.Proofs.Deliveries
import MapReduce.Proofs.TupleOrder
import MapReduce.Proofs.PlanReplay
import MapReduce.Proofs.PlanOutline
import MapReduce.Proofs.Worklists
import MapReduce.Proofs.KeyEncoding
import MapReduce.Proofs.RowEstimates
import MapReduce.Proofs.ChunkedRuns
import MapReduce.Proofs.ShuffledWaves
import MapReduce.Proofs.MintedKeys
