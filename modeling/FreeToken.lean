import FreeToken.KvCache.Equiv.RadixCaches
import FreeToken.KvCache.Equiv.PoolRebuild
import FreeToken.KvCache.Equiv.DSV4PagedPool
import FreeToken.Moe.Equiv.OffloadCache
import FreeToken.Scheduler.Equiv.Cache
import FreeToken.Scheduler.Equiv.Mm
import FreeToken.Scheduler.Equiv.Prefill
import FreeToken.Scheduler.Equiv.TreeCount
import FreeToken.Server.Equiv.Streams
import FreeToken.Tokenizer.Equiv.StopStrings
import FreeToken.Server.Equiv.BaseReasoning
import FreeToken.Server.Equiv.MiniMaxM3Verbatim
import FreeToken.Server.Equiv.HarmonyReasoning
import FreeToken.Server.Equiv.Qwen3Coder
import FreeToken.Server.Equiv.GenerateFull
import FreeToken.Attention.Equiv.IndexReads
import FreeToken.Kernel.Qsa.Equiv.Topk
import FreeToken.Attention.Equiv.Dsv4Candidates
import FreeToken.Attention.Equiv.DsaIndexerKpool
import FreeToken.Message.Equiv.RoundTrip
import FreeToken.Kernel.Equiv.Df11
import FreeToken.Checkpoint.Equiv.Ftw
import FreeToken.Kernel.PleStore.Equiv.Flush
import FreeToken.Models.Qwen4Exp.Equiv.PleAgree
import FreeToken.Scheduler.Equiv.ChunkEnd
import FreeToken.KvCache.Equiv.Dsv4CostModel
import FreeToken.Moe.Equiv.HostBanks
import FreeToken.Server.Equiv.MaintenanceGate
import FreeToken.Daemon.Equiv.LogStream
import FreeToken.Moe.Equiv.WatchdogTicks
import FreeToken.Kernel.Equiv.SamplingDraw
import FreeToken.Kernel.Equiv.BitonicTiles
import FreeToken.Kernel.Equiv.MinimaxM3Sparse
import FreeToken.Kernel.Equiv.MoeAlign
import FreeToken.KvCache.QuantCodec
import FreeToken.Mm.Equiv.Processor
import FreeToken.Models.Qwen35Moe.Equiv.Gguf
import FreeToken.Models.Qwen4Exp.Equiv.PleConv
import FreeToken.Scheduler.Equiv.CacheRebuild
import FreeToken.Models.Qwen4Exp.Equiv.GdnReference
