import ColumnarStore.Foundation.Ascending
import ColumnarStore.Foundation.Blocks
import ColumnarStore.Foundation.Checked
import ColumnarStore.Foundation.Extremes
import ColumnarStore.Foundation.Floats
import ColumnarStore.Foundation.Lanes
import ColumnarStore.Foundation.LittleEndian
import ColumnarStore.Foundation.Numbering
import ColumnarStore.Foundation.Outcome
import ColumnarStore.Foundation.Runs
import ColumnarStore.Foundation.Sharing
import ColumnarStore.Foundation.Stream
import ColumnarStore.Types
import ColumnarStore.Delta.Store
import ColumnarStore.Delta.History
import ColumnarStore.Delta.PointReads
import ColumnarStore.Delta.Versions
import ColumnarStore.Delta.Pending
import ColumnarStore.Delta.Manager
import ColumnarStore.Delta.HandOff
import ColumnarStore.Delta.Compaction
import ColumnarStore.Delta.Interleaving
import ColumnarStore.Predicate.Program
import ColumnarStore.Predicate.Chain
import ColumnarStore.Predicate.Postfix
import ColumnarStore.Predicate.MixedChain
import ColumnarStore.Predicate.SingleLeaf
import ColumnarStore.Predicate.StackHeight
import ColumnarStore.Predicate.Shapes
import ColumnarStore.Encoding.Plain
import ColumnarStore.Encoding.RunLength
import ColumnarStore.Encoding.Records
import ColumnarStore.Encoding.Width
import ColumnarStore.Encoding.FrameOfReference
import ColumnarStore.Encoding.FullRange
import ColumnarStore.Encoding.BitPacking
import ColumnarStore.Encoding.Checked
import ColumnarStore.Encoding.Dictionary
import ColumnarStore.Encoding.Factory
import ColumnarStore.Encoding.Fallback
import ColumnarStore.Standalone.Fields
import ColumnarStore.Standalone.Extraction
import ColumnarStore.Standalone.LowHalf
import ColumnarStore.Standalone.Bitpack
import ColumnarStore.Standalone.For
import ColumnarStore.Standalone.ZigZag
import ColumnarStore.Standalone.ForAvx512
import ColumnarStore.Standalone.BitpackAvx512
import ColumnarStore.Standalone.Rle
import ColumnarStore.Standalone.RleVector
import ColumnarStore.Standalone.Dictionary
import ColumnarStore.Standalone.DictionaryStored
import ColumnarStore.Standalone.Gather
import ColumnarStore.Simd.Avx2
import ColumnarStore.Simd.PrefixSum
import ColumnarStore.Column
import ColumnarStore.Column.Appends
import ColumnarStore.ZoneMap
import ColumnarStore.ZoneMap.Entries
import ColumnarStore.ZoneMap.Bounds
import ColumnarStore.ZoneMap.NullCounts
import ColumnarStore.BloomFilter
import ColumnarStore.BloomFilter.Runs
import ColumnarStore.BloomFilter.Batch
import ColumnarStore.BloomFilter.Strings
import ColumnarStore.Predicate.CanMatch
import ColumnarStore.Segment.Format
import ColumnarStore.Segment.Writer
import ColumnarStore.Segment.Layout
import ColumnarStore.Segment.Written
import ColumnarStore.Segment.File
import ColumnarStore.Segment.Reopened
import ColumnarStore.Segment.RoundTrip
import ColumnarStore.Segment.Statistics
import ColumnarStore.Segment.Positions
import ColumnarStore.Segment.Intact
import ColumnarStore.Segment.Tables
import ColumnarStore.Scanner.VectorFilter
import ColumnarStore.Column.VectorOps
import ColumnarStore.Scanner.VectorKernels
import ColumnarStore.Scanner.Scan
import ColumnarStore.Scanner.Delivery
import ColumnarStore.Scanner.Loop
import ColumnarStore.Scanner.Selection
import ColumnarStore.Scanner.Unpruned
import ColumnarStore.Scanner.Faults
import ColumnarStore.Scanner.FastPath
import ColumnarStore.Scanner.NullTests
import ColumnarStore.Scanner.ZonePruning
import ColumnarStore.Scanner.ColumnPruning
import ColumnarStore.Scanner.BloomPruning
import ColumnarStore.Scanner.MaskBounds
import ColumnarStore.Scanner.Accounting
import ColumnarStore.Scanner.Aggregate
import ColumnarStore.Scanner.Parallel
import ColumnarStore.Merger.ColumnMerger
import ColumnarStore.Merger.Alignment
import ColumnarStore.Merger.Timestamps
import ColumnarStore.Merger.SegmentMerger
import ColumnarStore.Merger.Queue
import ColumnarStore.Merger.Concatenation
import ColumnarStore.Scanner.Tables
import ColumnarStore.Merger.Compactions
import ColumnarStore.Scanner.Cancellation
import ColumnarStore.Delta.Concurrent
import ColumnarStore.Segment.Reader
import ColumnarStore.Merger.Overtaking
import ColumnarStore.Merger.Wakeups
import ColumnarStore.Merger.WriteOrder
import ColumnarStore.Scanner.Indexed
import ColumnarStore.Delta.CompactionRace
import ColumnarStore.Floats
import ColumnarStore.ZoneMap.Floats
import ColumnarStore.Column.Transfers
