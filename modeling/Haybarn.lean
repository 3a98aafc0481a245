import Haybarn.Aggregate.GroupBy
import Haybarn.Aggregate.IntegerSum
import Haybarn.Aggregate.Repartition
import Haybarn.Art.Key
import Haybarn.Bignum.Sum
import Haybarn.Bignum.VarcharExact
import Haybarn.Bitpacking.HugeIntRoundTrip
import Haybarn.Bitpacking.Lossless
import Haybarn.Block.Accounts
import Haybarn.Block.Reuse
import Haybarn.Cast.DecimalFormatExact
import Haybarn.Catalog.Rename
import Haybarn.Common.BitLists
import Haybarn.Decimal.CastExact
import Haybarn.FixedSize.NothingLost
import Haybarn.Hugeint.Exact
import Haybarn.Metadata.Intact
import Haybarn.Optimizer.BooleanRules
import Haybarn.Optimizer.DateComparisonExact
import Haybarn.Optimizer.MoveConstantsExact
import Haybarn.Parallel.Event
import Haybarn.Parquet.DbpRoundTrip
import Haybarn.Rle.Lossless
import Haybarn.Roaring.Space
import Haybarn.Sequence.Calls
import Haybarn.Sequence.Unique
import Haybarn.Serializer.RoundTrip
import Haybarn.Sharing.Lossless
import Haybarn.SortKey.Decode
import Haybarn.Temporal.TimestampAdd
import Haybarn.Temporal.IntervalOrder
import Haybarn.Text.Base64
import Haybarn.Text.GlobExact
import Haybarn.Text.ILike
import Haybarn.Text.LikeOptimization
import Haybarn.Transaction.ManagerInvariant
import Haybarn.Transaction.StorageLock
import Haybarn.Undo.Faithful
import Haybarn.Update.Snapshot
import Haybarn.Validity.Scan
import Haybarn.Version.Append
import Haybarn.Version.Checkpoint
import Haybarn.Version.Conflict
import Haybarn.Wal.CrashSafe
import Haybarn.Window.Frame
import Haybarn.Zonemap.Sound
