import ChunkedUpload.Bytes
import ChunkedUpload.Cleanup.Batch
import ChunkedUpload.Cleanup.Queue
import ChunkedUpload.Cleanup.Scheduler
import ChunkedUpload.CommandLine.Arguments
import ChunkedUpload.CommandLine.Run
import ChunkedUpload.CommandLine.Settings
import ChunkedUpload.Config.Basic
import ChunkedUpload.Config.Decode
import ChunkedUpload.Config.EnvironmentText
import ChunkedUpload.Config.JsonNumber
import ChunkedUpload.Config.JsonText
import ChunkedUpload.Config.JsonToken
import ChunkedUpload.Config.TomlScalar
import ChunkedUpload.Config.TomlTable
import ChunkedUpload.Config.TomlText
import ChunkedUpload.Config.Value
import ChunkedUpload.Config.Wrapped
import ChunkedUpload.Files.Listing
import ChunkedUpload.Files.Path
import ChunkedUpload.Files.TempName
import ChunkedUpload.Files.Tree
import ChunkedUpload.IoError
import ChunkedUpload.Lookup
import ChunkedUpload.Main
import ChunkedUpload.Metrics
import ChunkedUpload.Part.Name
import ChunkedUpload.Proofs.Cleanup.InOrder
import ChunkedUpload.Proofs.Cleanup.Scheduler
import ChunkedUpload.Proofs.CommandLine.UploadArguments
import ChunkedUpload.Proofs.CommandLine.UploadToFiles
import ChunkedUpload.Proofs.Config.JsonTokens
import ChunkedUpload.Proofs.Config.JsonValues
import ChunkedUpload.Proofs.Config.RoundTrip
import ChunkedUpload.Proofs.Files.Alike
import ChunkedUpload.Proofs.Files.Growth
import ChunkedUpload.Proofs.Files.Moved
import ChunkedUpload.Proofs.Files.Operations
import ChunkedUpload.Proofs.Files.Paths
import ChunkedUpload.Proofs.Files.Rooted
import ChunkedUpload.Proofs.Files.TempNames
import ChunkedUpload.Proofs.Files.Walk
import ChunkedUpload.Proofs.Part.Collisions
import ChunkedUpload.Proofs.Part.Names
import ChunkedUpload.Proofs.Part.Reading
import ChunkedUpload.Proofs.Reader.Delivery
import ChunkedUpload.Proofs.Reader.Ending
import ChunkedUpload.Proofs.Reader.Filling
import ChunkedUpload.Proofs.Reader.Flow
import ChunkedUpload.Proofs.Reader.Interruptions
import ChunkedUpload.Proofs.Reader.OneRead
import ChunkedUpload.Proofs.Reader.Responsive
import ChunkedUpload.Proofs.Reader.Stalling
import ChunkedUpload.Proofs.Reader.Tape
import ChunkedUpload.Proofs.S3.Addresses
import ChunkedUpload.Proofs.S3.Agreement
import ChunkedUpload.Proofs.S3.CopyPlans
import ChunkedUpload.Proofs.S3.CopyRanges
import ChunkedUpload.Proofs.S3.Deliveries
import ChunkedUpload.Proofs.S3.EvenCuts
import ChunkedUpload.Proofs.S3.Exchanges
import ChunkedUpload.Proofs.S3.Faultless
import ChunkedUpload.Proofs.S3.Granted
import ChunkedUpload.Proofs.S3.HalfCopies
import ChunkedUpload.Proofs.S3.LegalParts
import ChunkedUpload.Proofs.S3.MachineWords
import ChunkedUpload.Proofs.S3.Multipart
import ChunkedUpload.Proofs.S3.Objects
import ChunkedUpload.Proofs.S3.OpenUploads
import ChunkedUpload.Proofs.S3.PartSchedule
import ChunkedUpload.Proofs.S3.PrefixedHistories
import ChunkedUpload.Proofs.S3.Prefixes
import ChunkedUpload.Proofs.S3.Settlement
import ChunkedUpload.Proofs.S3.Stalled
import ChunkedUpload.Proofs.S3.StreamParts
import ChunkedUpload.Proofs.S3.WholeObjects
import ChunkedUpload.Proofs.Storage.Accepting
import ChunkedUpload.Proofs.Storage.Atomic
import ChunkedUpload.Proofs.Storage.Containment
import ChunkedUpload.Proofs.Storage.DirectoryAgreement
import ChunkedUpload.Proofs.Storage.DirectoryKeeper
import ChunkedUpload.Proofs.Storage.Ending
import ChunkedUpload.Proofs.Storage.Equivalence
import ChunkedUpload.Proofs.Storage.Footprint
import ChunkedUpload.Proofs.Storage.Histories
import ChunkedUpload.Proofs.Storage.InStep
import ChunkedUpload.Proofs.Storage.MemoryCalls
import ChunkedUpload.Proofs.Storage.ObjectPaths
import ChunkedUpload.Proofs.Storage.Outcomes
import ChunkedUpload.Proofs.Storage.PartPlaces
import ChunkedUpload.Proofs.Storage.Places
import ChunkedUpload.Proofs.Storage.Replacing
import ChunkedUpload.Proofs.Storage.Requests
import ChunkedUpload.Proofs.Storage.Residue
import ChunkedUpload.Proofs.Storage.Secrecy
import ChunkedUpload.Proofs.Storage.Sources
import ChunkedUpload.Proofs.Storage.Watched
import ChunkedUpload.Proofs.Storage.Writing
import ChunkedUpload.Proofs.Upload.Accounts
import ChunkedUpload.Proofs.Upload.Artefacts
import ChunkedUpload.Proofs.Upload.Broken
import ChunkedUpload.Proofs.Upload.Counters
import ChunkedUpload.Proofs.Upload.CutOff
import ChunkedUpload.Proofs.Upload.FirstChunks
import ChunkedUpload.Proofs.Upload.FullParts
import ChunkedUpload.Proofs.Upload.Interrupted
import ChunkedUpload.Proofs.Upload.Keepers
import ChunkedUpload.Proofs.Upload.Leftovers
import ChunkedUpload.Proofs.Upload.LegalUploads
import ChunkedUpload.Proofs.Upload.Lossless
import ChunkedUpload.Proofs.Upload.Order
import ChunkedUpload.Proofs.Upload.Progress
import ChunkedUpload.Proofs.Upload.Retried
import ChunkedUpload.Proofs.Upload.Slices
import ChunkedUpload.Proofs.Upload.Steps
import ChunkedUpload.Proofs.Upload.Twins
import ChunkedUpload.Proofs.Upload.Unrelated
import ChunkedUpload.Reader.Basic
import ChunkedUpload.Reader.Buffer
import ChunkedUpload.Reader.Drain
import ChunkedUpload.Reader.Fill
import ChunkedUpload.Reader.Script
import ChunkedUpload.S3.Client
import ChunkedUpload.S3.CopyRange
import ChunkedUpload.S3.PartSize
import ChunkedUpload.S3.Request
import ChunkedUpload.S3.Server
import ChunkedUpload.S3.Store
import ChunkedUpload.Storage.Backend
import ChunkedUpload.Storage.Directory
import ChunkedUpload.Storage.Error
import ChunkedUpload.Storage.Memory
import ChunkedUpload.Storage.ObjectMap
import ChunkedUpload.Storage.Store
import ChunkedUpload.Text.Binary64
import ChunkedUpload.Text.Decimal
import ChunkedUpload.Text.Escape
import ChunkedUpload.Text.Percent
import ChunkedUpload.Text.Quoted
import ChunkedUpload.Text.Scan
import ChunkedUpload.Text.Shown
import ChunkedUpload.Upload.Session
import ChunkedUpload.Upload.Uploader
