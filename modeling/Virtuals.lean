import Virtuals.Lib.PyDict
import Virtuals.Lib.ScanOrder
import Virtuals.Lib.Bisect
import Virtuals.Lib.Cursor
import Virtuals.Lib.Tally
import Virtuals.Lib.Delimited
import Virtuals.Lib.Text
import Virtuals.Lib.Inverse
import Virtuals.Lib.Json
import Virtuals.Lib.Ledger
import Virtuals.Lib.Overlay
import Virtuals.Lib.Touched
import Virtuals.Lib.Flock
import Virtuals.Lib.OrderCode
import Virtuals.Lib.Utf8
import Virtuals.Lib.Sharing
import Virtuals.Lib.Walk
import Virtuals.Mem.SortedKeys
import Virtuals.Mem.MergePages
import Virtuals.Mem.Store
import Virtuals.Mem.StoreInv
import Virtuals.Mem.Snapshots
import Virtuals.Mem.Context
import Virtuals.Mem.Storage
import Virtuals.Mem.Serial
import Virtuals.WriteSlot.WriterLock
import Virtuals.WriteSlot.System
import Virtuals.WriteSlot.Invariant
import Virtuals.WriteSlot.Steps
import Virtuals.WriteSlot.Turn
import Virtuals.WriteSlot.Exclusion
import Virtuals.WriteSlot.Grants
import Virtuals.Observer.Client
import Virtuals.Observer.System
import Virtuals.Observer.Accounts
import Virtuals.Observer.Channel
import Virtuals.Observer.Moves
import Virtuals.Observer.Unconfirmed
import Virtuals.Observer.Live
import Virtuals.Observer.Settles
import Virtuals.Observer.Reregister
import Virtuals.Observer.Generations
import Virtuals.Observer.Accounting
import Virtuals.Routing.Hints
import Virtuals.Routing.Filter
import Virtuals.Routing.SortKey
import Virtuals.Routing.Canonical
import Virtuals.Routing.KeyEnc
import Virtuals.Routing.Index
import Virtuals.Routing.Consistent
import Virtuals.Routing.Route
import Virtuals.Routing.Candidates
import Virtuals.Routing.Messages
import Virtuals.Routing.Soundness
import Virtuals.Routing.Server
import Virtuals.Publisher.System
import Virtuals.Publisher.Account
import Virtuals.Publisher.Steps
import Virtuals.Publisher.Accounting
import Virtuals.Lmdb.Transaction
import Virtuals.Lmdb.LazyBegin
import Virtuals.Notify.Unit
import Virtuals.Lmdb.WriteBatch
import Virtuals.Lmdb.Touched
import Virtuals.Mem.Touched
import Virtuals.Sqlite.Context
import Virtuals.Sqlite.Ending
import Virtuals.Sqlite.EndsOnce
import Virtuals.Sqlite.Touched
import Virtuals.Rocksdb.Context
import Virtuals.Rocksdb.Touched
import Virtuals.Rocksdb.Secondary
import Virtuals.Rocksdb.Untorn
import Virtuals.Notify.Complete
import Virtuals.Lmdb.WriterGate
import Virtuals.Lmdb.GateFlight
import Virtuals.Lmdb.GateWaiters
import Virtuals.Lmdb.GateAccounting
import Virtuals.Lmdb.GateRuns
import Virtuals.Lmdb.WriterThread
import Virtuals.Lmdb.Delivered
import Virtuals.Lmdb.EndedOnce
import Virtuals.KeyCodec.Binary
import Virtuals.KeyCodec.BinaryOrder
import Virtuals.KeyCodec.BinaryDecode
import Virtuals.KeyCodec.Cython
import Virtuals.Lib.Numeral
import Virtuals.KeyCodec.StringKey
import Virtuals.KeyCodec.StringOrder
import Virtuals.WriteSlot.Events
import Virtuals.WriteSlot.Alternation
import Virtuals.Views.StoredCount
import Virtuals.Views.IndexedDict
import Virtuals.Views.LogIndexedRebuild
import Virtuals.FractionalIndex.Between
import Virtuals.FractionalIndex.Suffixed
import Virtuals.FractionalIndex.Bulk
import Virtuals.Views.LogIndexedOrder
import Virtuals.Observer.Registry
import Virtuals.Observer.RegistryExact
import Virtuals.Observer.RegistryMatch
import Virtuals.Routing.Junction
import Virtuals.Routing.Rearranged
import Virtuals.Routing.Told
import Virtuals.Routing.FromDict
import Virtuals.Routing.NormalForm
import Virtuals.Lib.Paging
import Virtuals.FractionalIndex.Length
import Virtuals.Views.FractionalIndexedDictView
import Virtuals.Views.FractionalRows
import Virtuals.Mem.SortedSet
import Virtuals.Mem.MergedPages
import Virtuals.Lib.Placement
import Virtuals.Views.OrderedModel
import Virtuals.Views.FractionalIndexedDict
import Virtuals.Views.FractionalRefines
import Virtuals.Routing.KeySpace
import Virtuals.Views.Kh57Range
import Virtuals.Lib.Subtree
import Virtuals.Container.Tree
import Virtuals.Container.Metadata
import Virtuals.Container.Frame
import Virtuals.ValueCodec.Json
import Virtuals.Views.ByteArrayView
import Virtuals.Views.FractionalRebuild
import Virtuals.Views.FractionalInsert
import Virtuals.Views.FractionalRuns
import Virtuals.Views.Invariants
import Virtuals.Views.IndexedPaging
import Virtuals.Views.ListView
import Virtuals.Views.ListRows
import Virtuals.Views.ListExact
import Virtuals.MemberKey.Pickle
import Virtuals.MemberKey.Dumps
import Virtuals.MemberKey.Member
import Virtuals.MemberKey.Twin
import Virtuals.Scan.Options
import Virtuals.Lib.Halving
import Virtuals.Scan.Binary
import Virtuals.Rocksdb.Scan
import Virtuals.Lmdb.Scan
import Virtuals.Sqlite.Scan
import Virtuals.Mem.Scan
import Virtuals.Mem.ScanRuns
import Virtuals.Scan.Agree
import Virtuals.Loc.PathNav
