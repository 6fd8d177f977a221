import DedupImage.Image.Build
import DedupImage.Image.Reading
import DedupImage.Layout.BlockWidth
import DedupImage.Recycling.Pool
import DedupImage.Proofs.Placement.Run
import DedupImage.Proofs.Placement.Success
import DedupImage.Proofs.Batch.Deduplication
import DedupImage.Proofs.Image.RoundTrip
import DedupImage.Proofs.Image.Agreement
import DedupImage.Proofs.Image.CheckedOpening
import DedupImage.Proofs.Placement.Interchange
import DedupImage.Proofs.Index.Ledger
import DedupImage.Proofs.Image.Caching
import DedupImage.Proofs.Image.Replay
import DedupImage.Proofs.Image.Unfinished
import DedupImage.Proofs.Image.Ordering
import DedupImage.Proofs.Pattern.SearchInRange
import DedupImage.Proofs.Pattern.CheapestFit
import DedupImage.Proofs.Image.Totals
import DedupImage.Proofs.Store.BestFit
import DedupImage.Proofs.Placement.Recall
import DedupImage.Proofs.Placement.BestPlan
import DedupImage.Proofs.Index.Failing
import DedupImage.Proofs.Batch.CheckpointFormat
import DedupImage.Proofs.Batch.Resolving
import DedupImage.Proofs.Batch.SeenBlocks
import DedupImage.Proofs.Layout.Packing
import DedupImage.Proofs.Layout.BlockLists
import DedupImage.Proofs.Image.LocatorTables
import DedupImage.Proofs.Codec.Buffers
import DedupImage.Proofs.Pattern.ExactTables
import DedupImage.Proofs.Index.OpenBucket
import DedupImage.Proofs.Recycling.Owners
