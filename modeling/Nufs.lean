import Nufs.Proofs.Storage.Deleted
import Nufs.Proofs.Datanode.Restart
import Nufs.Proofs.Datanode.Generations
import Nufs.Proofs.Storage.CompactedReads
import Nufs.Proofs.Storage.Life
import Nufs.Proofs.Storage.ChangeJournal
import Nufs.Proofs.Metadata.LogCodec
import Nufs.Proofs.Metadata.KvStream
import Nufs.Proofs.Metadata.Purge
import Nufs.Proofs.Metadata.Usage
import Nufs.Proofs.Metadata.EcConversion
import Nufs.Proofs.Gateway.Auth
import Nufs.Proofs.Chunkstore.EcRead
import Nufs.Proofs.Metadata.InodeIds
import Nufs.Proofs.Metadata.ChunkIds
import Nufs.Proofs.Metadata.Rebalance
import Nufs.Proofs.Datanode.Heartbeat
import Nufs.Proofs.Storage.Handoff
import Nufs.Proofs.Storage.Watermark
import Nufs.Proofs.Metadata.CatchUp
import Nufs.Proofs.Storage.Listing
import Nufs.Proofs.Chunkstore.Buffered
import Nufs.Proofs.Gateway.Signing
import Nufs.Proofs.Metadata.ReadDir
import Nufs.Proofs.Metadata.NodeThrottle
import Nufs.Proofs.Resilience.Breaker
