import Tvntd.Lib.Machine
import Tvntd.Lib.Chained
import Tvntd.Ctype.Dhash
import Tvntd.Ctype.DhashRehash
import Tvntd.Ctype.DhashFifo
import Tvntd.Ctype.Shash
import Tvntd.Cpptype.Object
import Tvntd.Cpptype.Uint64KvMap
import Tvntd.Cpptype.StringKvMap
import Tvntd.Cpptype.DHashObj
import Tvntd.Cpptype.DHashObjFind
import Tvntd.Cpptype.DHashObjRun
import Tvntd.Di.Module
import Tvntd.Cpptype.Key64
import Tvntd.Cpptype.LruResident
import Tvntd.Cpptype.LruRecency
import Tvntd.Cpptype.LruHash
import Tvntd.Cpptype.LruRace
import Tvntd.Ctype.UuidMap
import Tvntd.Ctype.UuidMapRun
import Tvntd.Ctype.UuidMapPlaces
import Tvntd.Lib.Bytes
import Tvntd.Lib.Stride
import Tvntd.Ctype.ShmSlistCrash
import Tvntd.Ctype.ShmSegRec
import Tvntd.Ctype.ShmSeg
import Tvntd.Ctype.ShmSegAttach
import Tvntd.Util.PageWalk
import Tvntd.Util.PageLockRun
import Tvntd.Lib.Placement
import Tvntd.Lib.Proto3
import Tvntd.Lib.OrderedMap
import Tvntd.Di.ThreadPool.Accounting
import Tvntd.Di.ThreadPool.BarrierOrder
import Tvntd.Di.ThreadPool.WakeUp
import Tvntd.Di.ThreadPool.Shutdown
import Tvntd.Di.ThreadPool.Completion
import Tvntd.Di.ThreadPool.Audit
import Tvntd.Di.Task
import Tvntd.Di.LifecycleRun
import Tvntd.Di.ModuleLife
import Tvntd.Di.RsContainer
import Tvntd.Java.Module
import Tvntd.Java.Profile
import Tvntd.Java.ObjStore
import Tvntd.Util.AsyncRpc
import Tvntd.App.KeyServiceAll
import Tvntd.Tools.Json2Cpp
import Tvntd.Tools.ConvNames
import Tvntd.Di.LogModule
import Tvntd.Crypto.Agreement
import Tvntd.Crypto.KeyRun
import Tvntd.Json.VariableOrder
import Tvntd.Java.DomainService
import Tvntd.Java.ArticleRank
import Tvntd.Java.MenuItemService
import Tvntd.Java.AdsDelete
import Tvntd.Java.UserPath
import Tvntd.Lib.Loop
import Tvntd.Lib.LinkedCells
import Tvntd.Lib.Transition
import Tvntd.Lib.Compare
import Tvntd.Lib.Buckets
import Tvntd.Lib.Halving
import Tvntd.Lib.Selection
import Tvntd.Ctype.ListRun
import Tvntd.Ctype.ListFilter
import Tvntd.Ctype.ShashCount
import Tvntd.Ctype.HashFilter
import Tvntd.Ctype.DhashGrowth
import Tvntd.Java.BatchQuery
import Tvntd.Java.UserPosts
import Tvntd.Lib.TwoWay
import Tvntd.Ctype.ListMerge
import Tvntd.Ctype.Dlist
import Tvntd.Ctype.DlistSorted
import Tvntd.Ctype.ShmDlist
import Tvntd.Ctype.Bitmap
import Tvntd.Ctype.DataStateFsm
import Tvntd.Cpptype.ListObj
import Tvntd.Json.DecodeIter
import Tvntd.Json.ArrayNames
import Tvntd.Json.SubstText
import Tvntd.Json.SubstTyped
import Tvntd.Lib.Unicode
import Tvntd.Lib.Dealing
import Tvntd.Lib.Words
import Tvntd.Lib.Printing
import Tvntd.Lib.Arrays
import Tvntd.Json.KeyValue
import Tvntd.Java.FileService
import Tvntd.Java.RawByte
import Tvntd.Cpptype.LruLookup
import Tvntd.Cpptype.SyncLock
import Tvntd.Util.BaseBlob
import Tvntd.Di.ToString
import Tvntd.Json.DecodeAll
import Tvntd.Json.JsOutput
import Tvntd.Bindings.ShScript
import Tvntd.Bindings.ScriptFile
import Tvntd.Lib.Forest
import Tvntd.Lib.HashMap
import Tvntd.Lib.Sorting
import Tvntd.Java.SubTags
import Tvntd.Java.MenuForest
import Tvntd.Java.PublicUrl
import Tvntd.Java.TagRanks
import Tvntd.Java.TagRanking
import Tvntd.Java.QuestionSvc
import Tvntd.Front.BoundArray
import Tvntd.Front.SortedArray
import Tvntd.Front.RankedTags
import Tvntd.Front.ArticleTagStore
import Tvntd.Front.ArticleTagRuns
import Tvntd.Lib.Acyclic
import Tvntd.Front.TagLinks
import Tvntd.Front.TagWalks
import Tvntd.Front.TagEdits
import Tvntd.Lib.Properties
import Tvntd.Front.AuthorTagMgr
import Tvntd.Front.AuthorTagRuns
import Tvntd.Front.ArticleSort
import Tvntd.Front.AuthorShelf
import Tvntd.Front.AuthorShelfRuns
import Tvntd.Front.TagArticles
import Tvntd.Front.TagArticleRuns
import Tvntd.Front.CommentStore
import Tvntd.Cpptype.ClearLoops
import Tvntd.Di.Config
import Tvntd.Cpptype.IntrusivePtr
import Tvntd.Lib.Expiring
import Tvntd.Java.LoginAttempt
