import NixSrv.Auth
import NixSrv.Cache.Expiry
import NixSrv.Cache.Stats
import NixSrv.Cache.Threads
import NixSrv.Client.Survival
import NixSrv.Client.Wire
import NixSrv.Debug.Stop
import NixSrv.Document
import NixSrv.Getters
import NixSrv.JobQueue.Alone
import NixSrv.JobQueue.Blocking
import NixSrv.JobQueue.Capacity
import NixSrv.JobQueue.Conservation
import NixSrv.JobQueue.HandOver
import NixSrv.JobQueue.LiveIds
import NixSrv.JobQueue.ManageEffect
import NixSrv.JobQueue.Ownership
import NixSrv.JobQueue.Progress
import NixSrv.JobQueue.Registration
import NixSrv.JobQueue.Status
import NixSrv.JobQueue.Switching
import NixSrv.ObjectPool
import NixSrv.Periodic.Shutdown
import NixSrv.Queue.Closing
import NixSrv.Queue.Refinement
import NixSrv.Removal
import NixSrv.Resolver.Integrity
import NixSrv.Resolver.NodeCheck
import NixSrv.Resolver.Removals
import NixSrv.Resolver.ServiceCheck
import NixSrv.Schema.Generation
import NixSrv.Server.ListRoutes
import NixSrv.Server.Projection
import NixSrv.StoredNames
import NixSrv.Util.SplitLoop
import NixSrv.Yami.RoundTrip
