import MiniDbms.Api.Answers
import MiniDbms.Api.Buffer
import MiniDbms.Api.CacheLru
import MiniDbms.Api.CacheMap
import MiniDbms.Api.CacheRep
import MiniDbms.Api.CacheSpec
import MiniDbms.Api.Connection
import MiniDbms.Api.Counters
import MiniDbms.Api.Document
import MiniDbms.Api.Encode
import MiniDbms.Api.Fields
import MiniDbms.Api.Framing
import MiniDbms.Api.Host
import MiniDbms.Api.Http
import MiniDbms.Api.IdealServer
import MiniDbms.Api.Page
import MiniDbms.Api.Queries
import MiniDbms.Api.QueryCache
import MiniDbms.Api.Refines
import MiniDbms.Api.Render
import MiniDbms.Api.Replies
import MiniDbms.Api.Response
import MiniDbms.Api.Rounds
import MiniDbms.Api.Route
import MiniDbms.Api.Routed
import MiniDbms.Api.Served
import MiniDbms.Api.Unrelated
import MiniDbms.Api.Wire
import MiniDbms.Bptree.Alloc
import MiniDbms.Bptree.Basic
import MiniDbms.Bptree.Build
import MiniDbms.Bptree.Delete
import MiniDbms.Bptree.FailedBuild
import MiniDbms.Bptree.Map
import MiniDbms.Bptree.Order
import MiniDbms.Bptree.Spec
import MiniDbms.Bptree.StringFree
import MiniDbms.Bptree.StringMap
import MiniDbms.Bptree.StringSpec
import MiniDbms.Bptree.StringTree
import MiniDbms.Cli.FastParse
import MiniDbms.Cli.FastPath
import MiniDbms.Cli.Main
import MiniDbms.Cli.Reference
import MiniDbms.Cli.Split
import MiniDbms.Conc.Accounts
import MiniDbms.Conc.Aside
import MiniDbms.Conc.Atomic
import MiniDbms.Conc.Follow
import MiniDbms.Conc.Fresh
import MiniDbms.Conc.Inv
import MiniDbms.Conc.Kept
import MiniDbms.Conc.Machine
import MiniDbms.Conc.Once
import MiniDbms.Conc.Restart
import MiniDbms.Conc.Retry
import MiniDbms.Conc.Sections
import MiniDbms.Conc.Serial
import MiniDbms.Conc.Snapshots
import MiniDbms.Conc.Steps
import MiniDbms.Conc.Work
import MiniDbms.Db.AutoId
import MiniDbms.Db.Batch
import MiniDbms.Db.Calls
import MiniDbms.Db.Capacity
import MiniDbms.Db.Chains
import MiniDbms.Db.Commit
import MiniDbms.Db.CommitFail
import MiniDbms.Db.Constraint
import MiniDbms.Db.Csv
import MiniDbms.Db.Effect
import MiniDbms.Db.Failed
import MiniDbms.Db.Header
import MiniDbms.Db.Ideal
import MiniDbms.Db.Index
import MiniDbms.Db.Invariant
import MiniDbms.Db.Isolation
import MiniDbms.Db.Lines
import MiniDbms.Db.Mvcc
import MiniDbms.Db.Number
import MiniDbms.Db.Onward
import MiniDbms.Db.Reach
import MiniDbms.Db.Redo
import MiniDbms.Db.Registry
import MiniDbms.Db.Saved
import MiniDbms.Db.Select
import MiniDbms.Db.Session
import MiniDbms.Db.Shape
import MiniDbms.Db.Store
import MiniDbms.Db.Table
import MiniDbms.Db.Text
import MiniDbms.Db.Twin
import MiniDbms.Db.Txn
import MiniDbms.Db.Visible
import MiniDbms.Db.Wf
import MiniDbms.Db.World
import MiniDbms.Legacy.Append
import MiniDbms.Legacy.Coherence
import MiniDbms.Legacy.Csv
import MiniDbms.Legacy.Delete
import MiniDbms.Legacy.DeltaLog
import MiniDbms.Legacy.Denote
import MiniDbms.Legacy.Entries
import MiniDbms.Legacy.Fallback
import MiniDbms.Legacy.Fields
import MiniDbms.Legacy.Frame
import MiniDbms.Legacy.Indexes
import MiniDbms.Legacy.Insert
import MiniDbms.Legacy.Intact
import MiniDbms.Legacy.Limit
import MiniDbms.Legacy.Line
import MiniDbms.Legacy.Load
import MiniDbms.Legacy.Opened
import MiniDbms.Legacy.Placed
import MiniDbms.Legacy.Reach
import MiniDbms.Legacy.Rebuild
import MiniDbms.Legacy.Recovery
import MiniDbms.Legacy.Rewrites
import MiniDbms.Legacy.RowCache
import MiniDbms.Legacy.Schema
import MiniDbms.Legacy.Select
import MiniDbms.Legacy.Snapshot
import MiniDbms.Legacy.TableCache
import MiniDbms.Legacy.Text
import MiniDbms.Legacy.TornLog
import MiniDbms.Legacy.Update
import MiniDbms.Legacy.Where
import MiniDbms.Lib.CString
import MiniDbms.Lib.Chunks
import MiniDbms.Lib.Heap
import MiniDbms.Lib.Json
import MiniDbms.Lib.JsonData
import MiniDbms.Lib.JsonPrint
import MiniDbms.Lib.Ledger
import MiniDbms.Lib.LinkedQueue
import MiniDbms.Lib.Links
import MiniDbms.Lib.Lists
import MiniDbms.Lib.Outcome
import MiniDbms.Lib.Run
import MiniDbms.Lib.Slots
import MiniDbms.Lib.Versions
import MiniDbms.Sql.Exact
import MiniDbms.Sql.Faithful
import MiniDbms.Sql.Lexer
import MiniDbms.Sql.Parser
import MiniDbms.Sql.Render
import MiniDbms.Sql.RoundTrip
import MiniDbms.Sql.Tokens
import MiniDbms.Sql.Types
import MiniDbms.Thr.Pool
