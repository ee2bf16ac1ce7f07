import OrderedQuery.Plan.Execute
import OrderedQuery.Proofs.Aggregate.Accumulators
import OrderedQuery.Proofs.Cursor.InterruptedGroups
import OrderedQuery.Proofs.Cursor.RequestedOrder
import OrderedQuery.Proofs.Index.AcceptedKeys
import OrderedQuery.Proofs.Index.LeadingValues
import OrderedQuery.Proofs.Index.SharedStorage
import OrderedQuery.Proofs.Index.StoredDefinitions
import OrderedQuery.Proofs.Key.Columns
import OrderedQuery.Proofs.Plan.BoxScan
import OrderedQuery.Proofs.Plan.Cancellation
import OrderedQuery.Proofs.Plan.FilteredScan
import OrderedQuery.Proofs.Plan.KeyRanges
import OrderedQuery.Proofs.Plan.ParallelMap
import OrderedQuery.Proofs.Plan.ReadPositions
import OrderedQuery.Proofs.Plan.Reopening
import OrderedQuery.Proofs.Plan.Reruns
import OrderedQuery.Proofs.Plan.Soundness
import OrderedQuery.Proofs.Plan.Tiling
import OrderedQuery.Proofs.Plan.TopRows
import OrderedQuery.Proofs.Plan.WindingUp
import OrderedQuery.Proofs.Store.ChangingStore
import OrderedQuery.Proofs.Store.Places
import OrderedQuery.Proofs.Value.NumericOrder
