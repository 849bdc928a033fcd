import Qzt.Foundation.Results
import Qzt.Foundation.Programs
import Qzt.Foundation.FileSystem
import Qzt.Foundation.Words
import Qzt.Foundation.Segments
import Qzt.Foundation.Slices
import Qzt.Foundation.Places
import Qzt.Foundation.Utf8
import Qzt.Foundation.Search
import Qzt.Foundation.Leb128
import Qzt.Foundation.OrderedMap
import Qzt.Foundation.Runs
import Qzt.Foundation.Buffered
import Qzt.Format.Errors
import Qzt.Format.ThirdParty
import Qzt.Cbor.Value
import Qzt.Cbor.ReadBack
import Qzt.Cbor.RoundTrip
import Qzt.Cbor.Budgets
import Qzt.Cbor.Canonical
import Qzt.Cbor.Prediction
import Qzt.Format.Limits
import Qzt.Container.Fixed
import Qzt.Container.ChunkTable
import Qzt.Container.PhysicalRanges
import Qzt.Container.FixedLaws
import Qzt.Container.Chunker
import Qzt.Container.DenseLineIndex
import Qzt.Container.Schema
import Qzt.Container.SchemaLaws
import Qzt.Container.SchemaTyped
import Qzt.Container.DenseLaws
import Qzt.Container.DenseCanonical
import Qzt.Container.Skeleton
import Qzt.Container.FooterFixedPoint
import Qzt.Container.SchemaRoundTrips
import Qzt.Container.Rules
import Qzt.Container.SkeletonReadAt
import Qzt.Reader.Entries
import Qzt.Foundation.PrefixSums
import Qzt.Foundation.SegmentIndex
import Qzt.Reader.RangeReads
import Qzt.Container.Opened
import Qzt.Reader.DeepVerify
import Qzt.Text.Lines
import Qzt.Text.Chunks
import Qzt.Reader.LineReads
import Qzt.Reader.TableLookups
import Qzt.Reader.DocumentHashes
import Qzt.Reader.DeepPass
import Qzt.Reader.Readers
import Qzt.Reader.DeepContract
import Qzt.Writer.Pack
import Qzt.Writer.FileWriter
import Qzt.Writer.Sinks
import Qzt.Writer.Splitting
import Qzt.Writer.Planning
import Qzt.Writer.PlanContract
import Qzt.Writer.Assembly
import Qzt.Writer.Documents
import Qzt.Writer.TableChecks
import Qzt.Writer.Reopening
import Qzt.Writer.PlannedTables
import Qzt.Writer.DenseCodec
import Qzt.Writer.DocumentCoordinates
import Qzt.Writer.RoundTrip
import Qzt.Writer.PackedDocuments
import Qzt.Writer.Commitment
import Qzt.Writer.Streaming
import Qzt.Writer.Finishing
import Qzt.Writer.StreamContract
import Qzt.Writer.StreamErrors
import Qzt.Writer.Progress
import Qzt.Format.Reference
import Qzt.Container.DocumentAdmission
import Qzt.Reader.Agreement
import Qzt.Reader.ExplicitLimits
import Qzt.Reader.Placement
import Qzt.Reader.DenseStarts
import Qzt.Reader.TextRanges
import Qzt.Reader.CachedReads
import Qzt.Reader.FileSource
import Qzt.Search.Index
import Qzt.Search.Build
import Qzt.Search.LineIndex
import Qzt.Search.Matching
import Qzt.Search.Query
import Qzt.Search.Verification
import Qzt.Search.Budgets
import Qzt.Search.NaiveIndex
import Qzt.Search.Postings
import Qzt.Search.PostingCodec
import Qzt.Search.Admission
import Qzt.Search.IndexAdmission
import Qzt.Search.Matchers
import Qzt.Search.Truncation
import Qzt.Search.Intersection
import Qzt.Search.Lookup
import Qzt.Search.ChunkCount
import Qzt.Search.Exactness
import Qzt.Search.NgramSearch
import Qzt.Search.TokenSearch
import Qzt.Search.ConfirmedHits
import Qzt.Search.Failures
import Qzt.Search.Answers
import Qzt.Sidecar.Manifest
import Qzt.Sidecar.Sections
import Qzt.Sidecar.Codecs
import Qzt.Sidecar.Varuints
import Qzt.Sidecar.Restored
import Qzt.Sidecar.Open
import Qzt.Sidecar.Limits
import Qzt.Sidecar.Search
import Qzt.Sidecar.Truncation
import Qzt.Sidecar.Untrusted
import Qzt.Sidecar.ManifestLaws
import Qzt.Sidecar.ManifestRoundTrip
import Qzt.Sidecar.Admission
import Qzt.Sidecar.Sizes
import Qzt.Sidecar.Inverses
import Qzt.Sidecar.OpenSections
import Qzt.Sidecar.Openers
import Qzt.Sidecar.Written
import Qzt.Sidecar.Lossless
import Qzt.Sidecar.OpenInvariant
import Qzt.Sidecar.Fetches
import Qzt.Sidecar.SearchAgreement
import Qzt.Sidecar.Pipeline
import Qzt.Sidecar.FileSources
import Qzt.Cli.AtomicOutput
import Qzt.Cli.OutputContract
import Qzt.Cli.Attestation
import Qzt.Cli.Context
import Qzt.Cli.ContextWindow
import Qzt.Cli.ContextLines
import Qzt.Cli.ContextContract
import Qzt.Cli.JsonOutput
import Qzt.Cli.Display
import Qzt.Cli.ContextOutput
import Qzt.Cli.Files
import Qzt.Cli.FilesContract
import Qzt.Cli.Pack
import Qzt.Cli.PackContract
import Qzt.Cli.Reads
import Qzt.Cli.PackDocs
import Qzt.Cli.PackDocsContract
import Qzt.Cli.Export
import Qzt.Cli.ExportContract
