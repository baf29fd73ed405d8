import MiniDropbox.Lib.Transition
import MiniDropbox.Lib.Splice
import MiniDropbox.Lib.Rounding
import MiniDropbox.Chunk
import MiniDropbox.Path
import MiniDropbox.File
import MiniDropbox.Transfer
import MiniDropbox.Transfer.Phases
import MiniDropbox.StopAndWait
import MiniDropbox.UserMap
import MiniDropbox.User
import MiniDropbox.UserLookup
import MiniDropbox.Storage
import MiniDropbox.Walks
import MiniDropbox.Server
import MiniDropbox.Boundary
import MiniDropbox.UploadOutcome
import MiniDropbox.Normalize
import MiniDropbox.Edits
import MiniDropbox.Confinement
import MiniDropbox.EventLoop
import MiniDropbox.Transfer.Ends
import MiniDropbox.Client
import MiniDropbox.Upload
import MiniDropbox.UploadDeadlock
import MiniDropbox.UploadIntegrity
import MiniDropbox.Download
import MiniDropbox.ResumedDownload
import MiniDropbox.Transfer.Exchange
import MiniDropbox.UploadResume
import MiniDropbox.Descriptors
import MiniDropbox.Registry
import MiniDropbox.Gate
import MiniDropbox.Conservation
import MiniDropbox.Places
import MiniDropbox.Footprint
import MiniDropbox.Isolation
import MiniDropbox.Registration
import MiniDropbox.Quota
import MiniDropbox.Lib.Keyed
import MiniDropbox.Sessions
import MiniDropbox.Bookings
import MiniDropbox.Assertions
import MiniDropbox.Stream
import MiniDropbox.Listing
import MiniDropbox.Spelling
import MiniDropbox.UserPaths
import MiniDropbox.Reception
import MiniDropbox.Tiling
import MiniDropbox.Arrivals
import MiniDropbox.Directories
import MiniDropbox.Creation
import MiniDropbox.Removal
import MiniDropbox.Truncation
import MiniDropbox.PayloadReads
import MiniDropbox.Reach
import MiniDropbox.SessionTable
import MiniDropbox.MapInvariant
import MiniDropbox.FreshMemory
import MiniDropbox.Startup
import MiniDropbox.ChecksumReads
import MiniDropbox.NormalizeBuffer
import MiniDropbox.Prefixes
import MiniDropbox.CutTransfer
import MiniDropbox.UploadProgress
import MiniDropbox.SendStats
import MiniDropbox.Workers
import MiniDropbox.TokenFile
import MiniDropbox.Lib.Noninterference
import MiniDropbox.Views
import MiniDropbox.Alike
import MiniDropbox.Independence
import MiniDropbox.Lib.TreeStore
import MiniDropbox.Store
import MiniDropbox.Box
import MiniDropbox.Restart
import MiniDropbox.Commands
import MiniDropbox.Delivery
import MiniDropbox.MainLoop
