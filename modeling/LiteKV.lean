import LiteKV.AccessTheorems
import LiteKV.Alloc
import LiteKV.AllocTheorems
import LiteKV.Compare
import LiteKV.CompareTheorems
import LiteKV.Config
import LiteKV.ConfigTheorems
import LiteKV.Core
import LiteKV.CoreTheorems
import LiteKV.DList
import LiteKV.DListTheorems
import LiteKV.Encoding
import LiteKV.EvictionTheorems
import LiteKV.ExpirationTheorems
import LiteKV.Hash
import LiteKV.HashTheorems
import LiteKV.Ipv4Theorems
import LiteKV.Lib.AssocList
import LiteKV.Lib.Blocks
import LiteKV.Lib.Buckets
import LiteKV.Lib.Chain
import LiteKV.Lib.Cursor
import LiteKV.Lib.Decoder
import LiteKV.Lib.Distinct
import LiteKV.Lib.Ledger
import LiteKV.Lib.Region
import LiteKV.Lib.Run
import LiteKV.Lib.Words
import LiteKV.Lkvdb
import LiteKV.LkvdbTheorems
import LiteKV.LoadTheorems
import LiteKV.Mapping
import LiteKV.MappingTheorems
import LiteKV.Net.Buffer
import LiteKV.Net.BufferTheorems
import LiteKV.Net.CommandCache
import LiteKV.Net.Commands
import LiteKV.Net.CommandsTheorems
import LiteKV.Net.CompactionTheorems
import LiteKV.Net.ConverterTheorems
import LiteKV.Net.CountTheorems
import LiteKV.Net.DeadlineTheorems
import LiteKV.Net.EntryTheorems
import LiteKV.Net.EventLoop
import LiteKV.Net.EventLoopTheorems
import LiteKV.Net.FiringTheorems
import LiteKV.Net.FrameTheorems
import LiteKV.Net.IntegerTheorems
import LiteKV.Net.LogTheorems
import LiteKV.Net.NumberScanTheorems
import LiteKV.Net.ParserTheorems
import LiteKV.Net.Protocol
import LiteKV.Net.ProtocolTheorems
import LiteKV.Net.PubSub
import LiteKV.Net.PubSubTheorems
import LiteKV.Net.RecoverTheorems
import LiteKV.Net.ReplayTheorems
import LiteKV.Net.ReplyTheorems
import LiteKV.Net.Restart
import LiteKV.Net.RestartDeadlineTheorems
import LiteKV.Net.RestartTheorems
import LiteKV.Net.Saving
import LiteKV.Net.SavingTheorems
import LiteKV.Net.Server
import LiteKV.Net.ServerTheorems
import LiteKV.Net.ServingTheorems
import LiteKV.Net.StoreSpec
import LiteKV.Net.StoreSpecTheorems
import LiteKV.Net.TextTheorems
import LiteKV.Net.TimeEvent
import LiteKV.Net.TimeEventTheorems
import LiteKV.Net.TimerTheorems
import LiteKV.Net.TtlTheorems
import LiteKV.Net.Utils
import LiteKV.Net.UtilsTheorems
import LiteKV.Net.WaitTheorems
import LiteKV.Net.WrongTypeTheorems
import LiteKV.Num
import LiteKV.NumTheorems
import LiteKV.Persistence
import LiteKV.PersistenceTheorems
import LiteKV.RangeTheorems
import LiteKV.Redundancy
import LiteKV.RedundancyTheorems
import LiteKV.RehashTheorems
import LiteKV.RewriteTheorems
import LiteKV.ScanTheorems
import LiteKV.Skiplist
import LiteKV.SkiplistTheorems
import LiteKV.Store
import LiteKV.Str
import LiteKV.StrAlloc
import LiteKV.StrAllocTheorems
import LiteKV.TornTheorems
import LiteKV.TrimTheorems
import LiteKV.TruncationTheorems
import LiteKV.ValueObject
import LiteKV.VarintTheorems
