import VaeDb.Cache.Coherence
import VaeDb.Cache.Faults
import VaeDb.Cache.Isolation
import VaeDb.Cache.Operations
import VaeDb.Cache.WriteBack
import VaeDb.Cpp
import VaeDb.Handler.Alignment
import VaeDb.Handler.Changes
import VaeDb.Handler.Completion
import VaeDb.Handler.Freshness
import VaeDb.Handler.Handles
import VaeDb.Handler.Identity
import VaeDb.Handler.Isolation
import VaeDb.Handler.Lifetime
import VaeDb.Handler.Loading
import VaeDb.Handler.Rejection
import VaeDb.Handler.Reload
import VaeDb.Handler.SecretKeys
import VaeDb.Handler.Serving
import VaeDb.Handler.Sessions
import VaeDb.Handler.Sites
import VaeDb.Mysql.Kvstore
import VaeDb.Mysql.Locks
import VaeDb.Mysql.SessionData
import VaeDb.Proxy.Connections
import VaeDb.QueryCache.FetchQuery
import VaeDb.QueryCache.LruCache
import VaeDb.QueryCache.Sharing
import VaeDb.QueryLog.Entry
import VaeDb.QueryLog.Escaping
import VaeDb.QueryLog.Replay
import VaeDb.S3
import VaeDb.S3.Fallback
import VaeDb.Schemes.Calls
import VaeDb.Schemes.Chains
import VaeDb.Schemes.Cuts
import VaeDb.Schemes.Deadlock
import VaeDb.Schemes.Ends
import VaeDb.Schemes.Escaping
import VaeDb.Schemes.Faults
import VaeDb.Schemes.Firsts
import VaeDb.Schemes.Forests
import VaeDb.Schemes.Hierarchy
import VaeDb.Schemes.Levels
import VaeDb.Schemes.Literals
import VaeDb.Schemes.Lru
import VaeDb.Schemes.Memo
import VaeDb.Schemes.Mutex
import VaeDb.Schemes.Pattern
import VaeDb.Schemes.Pool
import VaeDb.Schemes.Reading
import VaeDb.Schemes.Recency
import VaeDb.Schemes.Regex
import VaeDb.Schemes.Regions
import VaeDb.Schemes.Rounding
import VaeDb.Schemes.Runs
import VaeDb.Schemes.Siblings
import VaeDb.Schemes.Slice
import VaeDb.Schemes.Table
import VaeDb.Session.Arithmetic
import VaeDb.Session.CreateInfo
import VaeDb.Session.FilterMatch
import VaeDb.Session.Filtering
import VaeDb.Session.Groups
import VaeDb.Session.Orders
import VaeDb.Session.Paging
import VaeDb.Session.Pointers
import VaeDb.Session.Request
import VaeDb.Session.Response
import VaeDb.Session.ResponseIds
import VaeDb.Session.Session
import VaeDb.Session.Sorting
import VaeDb.Session.Unique
import VaeDb.Site.Accounting
import VaeDb.Site.Allocation
import VaeDb.Site.Answers
import VaeDb.Site.Associations
import VaeDb.Site.AttrLists
import VaeDb.Site.Attributes
import VaeDb.Site.Caches
import VaeDb.Site.ContextCalls
import VaeDb.Site.Destruction
import VaeDb.Site.Elements
import VaeDb.Site.FirstSlash
import VaeDb.Site.Freeing
import VaeDb.Site.Identity
import VaeDb.Site.Ids
import VaeDb.Site.Indexes
import VaeDb.Site.Invariant
import VaeDb.Site.Joins
import VaeDb.Site.Keys
import VaeDb.Site.Kids
import VaeDb.Site.Literals
import VaeDb.Site.Liveness
import VaeDb.Site.Load
import VaeDb.Site.LoadSafety
import VaeDb.Site.Mirroring
import VaeDb.Site.Modes
import VaeDb.Site.NormalForm
import VaeDb.Site.Permalinks
import VaeDb.Site.PointerNodes
import VaeDb.Site.Progress
import VaeDb.Site.Query
import VaeDb.Site.Resolving
import VaeDb.Site.Rewriting
import VaeDb.Site.Shape
import VaeDb.Site.Staging
import VaeDb.Site.Surroundings
import VaeDb.Site.Tangles
import VaeDb.Site.Teardown
import VaeDb.Site.Turns
import VaeDb.Site.Walk
import VaeDb.Thrift.Calls
import VaeDb.Thrift.Evolution
import VaeDb.Thrift.Processor
import VaeDb.Thrift.RoundTrip
import VaeDb.Thrift.TBinaryProtocol
import VaeDb.Thrift.Types
import VaeDb.Util
import VaeDb.Util.Natural
import VaeDb.Util.Numbers
import VaeDb.Util.Tokens
import VaeDb.Xml
