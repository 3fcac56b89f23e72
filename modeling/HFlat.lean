import HFlat.Permission.Caching
import HFlat.Permission.Search
import HFlat.Database.Log
import HFlat.Database.Checks
import HFlat.PathMap.Refinement
import HFlat.PathMap.Termination
import HFlat.PathMap.TimeStamps
import HFlat.PathMap.History
import HFlat.PathMap.Overlap
import HFlat.Replication.WriteLog
import HFlat.Replication.Contenders
import HFlat.Fuse.InodeNumbers
import HFlat.Fuse.Versions
import HFlat.Fuse.Rename
import HFlat.Fuse.Memory
import HFlat.Fuse.Permissions
import HFlat.Fuse.Restrictions
import HFlat.Fuse.Rmdir
import HFlat.Data.Writers
import HFlat.Data.AppendRuns
import HFlat.Cache.Fill
import HFlat.Data.Merge
import HFlat.Intercept.PathChange
import HFlat.Fuse.Readdir
import HFlat.PathMap.Readlink
import HFlat.Fuse.Serial
import HFlat.Fuse.OneWinner
import HFlat.Fuse.Lone
import HFlat.Lib.View
import HFlat.Data.Resolve
import HFlat.Intercept.Ancestor
import HFlat.Intercept.Realpath
import HFlat.Data.Blocks
import HFlat.Fuse.Scans
import HFlat.Replication.Verdict
import HFlat.Replication.LastGreen
import HFlat.Fuse.Chown
import HFlat.Fuse.Termination
import HFlat.Fuse.TokenRefresh
import HFlat.Lib.Ring
import HFlat.Cache.Nodes
import HFlat.Lib.Sweep
import HFlat.Cache.Capacity
import HFlat.Intercept.Transparent
import HFlat.PathMap.Flat
import HFlat.Fuse.Coherence
import HFlat.Fuse.LoneSession
import HFlat.Fuse.Fsck
import HFlat.Fuse.FlatSession
import HFlat.Fuse.Listing
import HFlat.Replication.SingleDrive
import HFlat.Fuse.Contents
import HFlat.Fuse.Recovery
import HFlat.Fuse.Moving
import HFlat.Fuse.RenameRecovery
import HFlat.Fuse.HandlerModels
