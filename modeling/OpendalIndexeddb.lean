import OpendalIndexeddb.PageBoundary
import OpendalIndexeddb.Limit
import OpendalIndexeddb.Pagination
import OpendalIndexeddb.StartAfter
import OpendalIndexeddb.Orphans
import OpendalIndexeddb.Conditions
import OpendalIndexeddb.Migration
import OpendalIndexeddb.Coherence
import OpendalIndexeddb.RangedRead
import OpendalIndexeddb.Refinement
import OpendalIndexeddb.Clients
import OpendalIndexeddb.Agreement
import OpendalIndexeddb.Deletion
import OpendalIndexeddb.Carrying
import OpendalIndexeddb.Termination
import OpendalIndexeddb.LiveListing
import OpendalIndexeddb.ForeignKeys
import OpendalIndexeddb.Model.Builder
import OpendalIndexeddb.Model.Opening
import OpendalIndexeddb.Upgrades
import OpendalIndexeddb.ConnectionCache
import OpendalIndexeddb.Model.Tasks
import OpendalIndexeddb.SharedRealm
import OpendalIndexeddb.Common.Noninterference
import OpendalIndexeddb.Model.ObjectStores
import OpendalIndexeddb.Locality
import OpendalIndexeddb.Tenants
import OpendalIndexeddb.Common.Program
import OpendalIndexeddb.Common.Cursor
import OpendalIndexeddb.Common.Serializable
import OpendalIndexeddb.Model.Requests
import OpendalIndexeddb.Atomicity
import OpendalIndexeddb.Model.Database
import OpendalIndexeddb.Interleaving
import OpendalIndexeddb.PrefixDeletion
import OpendalIndexeddb.StableKeys
import OpendalIndexeddb.Common.Commutation
import OpendalIndexeddb.Conflicts
import OpendalIndexeddb.Model.Handles
import OpendalIndexeddb.Writers
import OpendalIndexeddb.ListerFaults
import OpendalIndexeddb.ForeignRecords
import OpendalIndexeddb.Sweep
import OpendalIndexeddb.Walks
import OpendalIndexeddb.ChunkedReads
import OpendalIndexeddb.Common.Compaction
import OpendalIndexeddb.Composition
import OpendalIndexeddb.Directories
import OpendalIndexeddb.Common.Asking
import OpendalIndexeddb.Contents
import OpendalIndexeddb.TaskProgress
