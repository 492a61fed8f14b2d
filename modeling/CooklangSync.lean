import CooklangSync.System.DownloadWire
import CooklangSync.Server.Metadata
import CooklangSync.Client.Registry
import CooklangSync.Client.Storage
import CooklangSync.Client.Indexer
import CooklangSync.Theory.FileSystem
import CooklangSync.Client.Scan
import CooklangSync.Client.Syncer
import CooklangSync.Client.Cursor
import CooklangSync.Client.Echo
import CooklangSync.Client.Rows
import CooklangSync.Theory.Run
import CooklangSync.Client.Upload
import CooklangSync.System.Peers
import CooklangSync.System.Loops
import CooklangSync.Theory.OpenFiles
import CooklangSync.Server.ChunkId
import CooklangSync.Server.Chunks
import CooklangSync.Server.Turns
import CooklangSync.Server.Uploads
import CooklangSync.System.ChunkStore
import CooklangSync.System.Requests
import CooklangSync.Theory.Lexical
import CooklangSync.Server.Containment
import CooklangSync.System.Containment
import CooklangSync.Client.Hashing
import CooklangSync.Theory.FormData
import CooklangSync.System.Limits
import CooklangSync.Theory.History
import CooklangSync.System.Replica
import CooklangSync.System.Conflicts
import CooklangSync.Client.Answers
import CooklangSync.System.TwoPasses
import CooklangSync.Server.Notification
import CooklangSync.System.Polls
import CooklangSync.Theory.LatestMap
import CooklangSync.Server.UserMap
import CooklangSync.Client.PathMap
import CooklangSync.System.Dedup
import CooklangSync.System.Registrations
import CooklangSync.Client.Blocks
import CooklangSync.Client.IndexPass
import CooklangSync.Theory.Subtree
import CooklangSync.Client.Deletion
import CooklangSync.Client.DiskScan
import CooklangSync.Client.Fetch
import CooklangSync.Client.Sighting
import CooklangSync.System.Quiescence
import CooklangSync.Server.CappedStream
import CooklangSync.Client.Sharing
import CooklangSync.Theory.PathTree
import CooklangSync.Server.Placement
import CooklangSync.Server.Storing
import CooklangSync.Theory.Replicas
import CooklangSync.Client.StorageDir
import CooklangSync.Client.Once
import CooklangSync.System.InStep
import CooklangSync.System.Fleet
import CooklangSync.System.Convergence
import CooklangSync.System.UploadSteps
import CooklangSync.System.Rounds
import CooklangSync.Theory.Multipart
import CooklangSync.Theory.Service
import CooklangSync.Theory.Ranks
import CooklangSync.Server.Isolation
import CooklangSync.Server.Downloads
import CooklangSync.Server.Routes
import CooklangSync.Client.Requests
import CooklangSync.System.UploadWire
import CooklangSync.System.StreamWire
import CooklangSync.System.Host
import CooklangSync.System.HostPasses
import CooklangSync.Client.Lifecycle
import CooklangSync.Client.Shutdown
