import Mtbl.Block.Accepted
import Mtbl.Block.Build
import Mtbl.Block.Builder
import Mtbl.Block.Calls
import Mtbl.Block.Cursor
import Mtbl.Block.Inside
import Mtbl.Block.Iter
import Mtbl.Block.Layout
import Mtbl.Block.Prev
import Mtbl.Block.Progress
import Mtbl.Block.Reads
import Mtbl.Block.Refine
import Mtbl.Block.RestartSearch
import Mtbl.Block.RoundTrip
import Mtbl.Block.Seek
import Mtbl.Bytes.Compare
import Mtbl.Bytes.Separator
import Mtbl.Codec.Checksum
import Mtbl.Codec.Compress
import Mtbl.Codec.Compression
import Mtbl.Codec.Crc32c
import Mtbl.Codec.Decompress
import Mtbl.Codec.Fixed
import Mtbl.Codec.Inflate
import Mtbl.Codec.Slicing
import Mtbl.Codec.Varint
import Mtbl.Codec.VarintLength
import Mtbl.File.BlockSize
import Mtbl.File.Blocks
import Mtbl.File.Bounded
import Mtbl.File.Compressed
import Mtbl.File.Damage
import Mtbl.File.DamagedReader
import Mtbl.File.Drain
import Mtbl.File.Dump
import Mtbl.File.Finished
import Mtbl.File.Frame
import Mtbl.File.IndexSkip
import Mtbl.File.Interrupted
import Mtbl.File.Interval
import Mtbl.File.Metadata
import Mtbl.File.Open
import Mtbl.File.PooledWriter
import Mtbl.File.Query
import Mtbl.File.Reader
import Mtbl.File.ReaderCursor
import Mtbl.File.ReaderSeek
import Mtbl.File.RoundTrip
import Mtbl.File.SeekLaw
import Mtbl.File.Separation
import Mtbl.File.Source
import Mtbl.File.Threaded
import Mtbl.File.Trailer
import Mtbl.File.Truncation
import Mtbl.File.Verify
import Mtbl.File.Writer
import Mtbl.File.Written
import Mtbl.Fileset.Contents
import Mtbl.Fileset.Fileset
import Mtbl.Fileset.Lifecycle
import Mtbl.Fileset.Partition
import Mtbl.Fileset.Setfile
import Mtbl.Fileset.Updates
import Mtbl.Fileset.Views
import Mtbl.Lib.CRun
import Mtbl.Lib.Checked
import Mtbl.Lib.CodeWords
import Mtbl.Lib.Cursor
import Mtbl.Lib.Device
import Mtbl.Lib.FoldOp
import Mtbl.Lib.HeapOrder
import Mtbl.Lib.Linked
import Mtbl.Lib.Loop
import Mtbl.Lib.Memory
import Mtbl.Lib.ShiftRegister
import Mtbl.Lib.Writes
import Mtbl.Memory.Buffer
import Mtbl.Memory.Builder
import Mtbl.Memory.Path
import Mtbl.Memory.Vec
import Mtbl.Merge.Associative
import Mtbl.Merge.Complete
import Mtbl.Merge.Copy
import Mtbl.Merge.Declined
import Mtbl.Merge.EmptyKey
import Mtbl.Merge.Feeds
import Mtbl.Merge.ForwardSeek
import Mtbl.Merge.Heap
import Mtbl.Merge.HeapQueue
import Mtbl.Merge.Iter
import Mtbl.Merge.Merged
import Mtbl.Merge.MergedCursor
import Mtbl.Merge.Merger
import Mtbl.Merge.Position
import Mtbl.Merge.Reseek
import Mtbl.Merge.Take
import Mtbl.Merge.Tool
import Mtbl.Merge.Transparent
import Mtbl.Merge.Unmerged
import Mtbl.Pool.Delivery
import Mtbl.Pool.Ledger
import Mtbl.Pool.Moves
import Mtbl.Pool.Potential
import Mtbl.Pool.Results
import Mtbl.Pool.Runs
import Mtbl.Pool.Safety
import Mtbl.Pool.Sleepers
import Mtbl.Pool.Threadpool
import Mtbl.Sort.Batches
import Mtbl.Sort.Chunk
import Mtbl.Sort.Copies
import Mtbl.Sort.Destroy
import Mtbl.Sort.FailedChunk
import Mtbl.Sort.Readers
import Mtbl.Sort.Sorted
import Mtbl.Sort.SortedFile
import Mtbl.Sort.Sorter
import Mtbl.Sort.SorterWrite
