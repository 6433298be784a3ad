import MemoryLayer.Meta.DataRows
import MemoryLayer.Coord.Changefeed
import MemoryLayer.Fuse.ContentHash
import MemoryLayer.Coord.Handoff
import MemoryLayer.Fileio.Takeover
import MemoryLayer.Meta.Scopes
import MemoryLayer.Meta.Entries
import MemoryLayer.Snapshot.AssocLive
import MemoryLayer.Pack.Agree
import MemoryLayer.Pack.Cache
import MemoryLayer.Local.Latest
import MemoryLayer.Csi.Holders
import MemoryLayer.Csi.Staging
import MemoryLayer.Edge.Revoked
import MemoryLayer.Controlplane.Isolation
import MemoryLayer.Edge.Accounting
import MemoryLayer.Snapshot.Manifests
import MemoryLayer.Pack.Bounds
import MemoryLayer.Snapshot.TenantGc
import MemoryLayer.Snapshot.Reclaim
import MemoryLayer.Wal.Sequence
import MemoryLayer.Pack.Compressing
import MemoryLayer.Gateway.Failures
import MemoryLayer.Snapshot.Reuse
import MemoryLayer.Fileio.Visible
import MemoryLayer.Meta.Ranges
