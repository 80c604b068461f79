import Narad.Consumer.History
import Narad.Consumer.CapsReach
import Narad.Storage.TornTail
import Narad.Storage.FailedCommit
import Narad.Messaging.GroupCommit
import Narad.Ingress.Manager
import Narad.Wal.Tear
import Narad.Metastore.Remotes
import Narad.Messaging.FreezeFence
import Narad.Metastore.Restart
import Narad.Cluster.Finalize
import Narad.Metastore.SchemaRun
import Narad.Runtime.OneLog
import Narad.Cluster.FlipUndo
import Narad.Security.Refusal
import Narad.Cluster.AckCoalesced
import Narad.Runtime.RetentionFollow
import Narad.Consumer.AheadBound
import Narad.Metastore.DomainVersions
import Narad.Storage.AheadCodec
import Narad.Security.Delegation
import Narad.Metastore.NameFold
