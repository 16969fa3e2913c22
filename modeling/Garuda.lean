import Garuda.Infra.LittleEndian
import Garuda.Infra.Utf8
import Garuda.Infra.Utf8Prefix
import Garuda.Infra.Pages
import Garuda.Core.Types
import Garuda.Cache.KvCache
import Garuda.Cache.KvSteps
import Garuda.Cache.KvList
import Garuda.Infra.Runs
import Garuda.Cache.KvRun
import Garuda.Cache.Seq
import Garuda.Cache.SpillFiles
import Garuda.Cache.Rollback
import Garuda.Cache.Pass
import Garuda.Cache.PromptCache
import Garuda.Infra.Recency
import Garuda.Cache.PromptBounds
import Garuda.Cache.RefusedCut
import Garuda.Cache.RefusedAppend
import Garuda.Cache.Rewind
import Garuda.Cache.OwnFiles
import Garuda.Dense.Kernels
import Garuda.Stream.Streamer
import Garuda.Runtime.Sampling
import Garuda.Runtime.Session
import Garuda.Runtime.PromptLookup
import Garuda.Runtime.SharedStorage
import Garuda.Runtime.Speculative
import Garuda.Runtime.RoundRollback
import Garuda.Runtime.Contract
import Garuda.Runtime.Stands
import Garuda.Runtime.InStep
import Garuda.Runtime.RoundInStep
import Garuda.Runtime.Greedy
import Garuda.Runtime.StopReasons
import Garuda.Runtime.StopRuns
import Garuda.Runtime.Prefill
import Garuda.Runtime.StubConforms
import Garuda.Runtime.Service
import Garuda.Runtime.CacheInvisible
import Garuda.Infra.Rejection
import Garuda.Runtime.Distribution
import Garuda.Infra.RowMajor
import Garuda.Infra.Workers
import Garuda.Infra.Selection
import Garuda.Runtime.Candidates
import Garuda.Runtime.Support
import Garuda.Runtime.Batch
import Garuda.Infra.MaxQueue
import Garuda.Scheduler.Queue
import Garuda.Scheduler.Machine
import Garuda.Scheduler.Ledger
import Garuda.Scheduler.Lives
import Garuda.Scheduler.Conservation
import Garuda.Scheduler.UserLimit
import Garuda.Scheduler.Admission
import Garuda.Scheduler.LastEvents
import Garuda.Gguf.Document
import Garuda.Tokenizer.Stream
import Garuda.Tokenizer.Byte
import Garuda.Tokenizer.Spm
import Garuda.Tokenizer.Bpe
import Garuda.Infra.Regex
import Garuda.Tokenizer.Split
import Garuda.Tokenizer.Pattern
import Garuda.Tokenizer.BpeEncode
import Garuda.Tokenizer.BpeLossless
import Garuda.Tokenizer.BpeStream
import Garuda.Infra.Parser
import Garuda.Gguf.Parse
import Garuda.Gguf.HeaderOnly
import Garuda.Gguf.RoundTrip
import Garuda.Infra.Build
import Garuda.Quant.Layout
import Garuda.Quant.Dequant
import Garuda.Quant.Matmul
import Garuda.Quant.Activations
import Garuda.Infra.Windows
import Garuda.Quant.Int8
import Garuda.Infra.BitLayout
import Garuda.Quant.Scales
import Garuda.Gguf.Tensor
import Garuda.Llama.Weight
import Garuda.Llama.Experts
import Garuda.Infra.Grouping
import Garuda.Llama.Mixture
import Garuda.Qwen35.Convolution
import Garuda.Qwen35.DeltaRule
import Garuda.Qwen35.Load
import Garuda.Qwen35.Spans
import Garuda.Qwen35.Placement
import Garuda.Memory.Expert
import Garuda.Cache.ExpertCache
import Garuda.Memory.Tiers
import Garuda.Cache.ExpertLru
import Garuda.Memory.Counts
import Garuda.Memory.Herd
import Garuda.Infra.Merging
import Garuda.Infra.NaiveMerge
import Garuda.Tokenizer.SpmEncode
import Garuda.Tokenizer.SpmLossless
import Garuda.Tokenizer.SpmThreads
import Garuda.Tokenizer.SpmMerge
import Garuda.Tokenizer.SpmPieces
import Garuda.Tokenizer.ScoreOrder
import Garuda.Tokenizer.SpmControl
import Garuda.Tokenizer.SpmNaive
import Garuda.Chat.Encode
import Garuda.Chat.Placement
import Garuda.Chat.Start
import Garuda.Infra.Calendar
import Garuda.Ollama.Timestamp
import Garuda.Session.Reply
import Garuda.Storage.Local
import Garuda.Infra.Attempt
import Garuda.Infra.Causal
import Garuda.Dense.Layers
import Garuda.Attention.Heads
import Garuda.Runtime.Fleet
import Garuda.Runtime.Served
import Garuda.Runtime.Decoder
import Garuda.Runtime.Passes
import Garuda.Llama.FeedForward
import Garuda.Llama.Forward
import Garuda.Llama.Meaning
import Garuda.Llama.Pass
import Garuda.Llama.Whole
import Garuda.Llama.Load
import Garuda.Qwen35.DeltaNet
import Garuda.Qwen35.Forward
import Garuda.Qwen35.Meaning
import Garuda.Qwen35.Blocks
import Garuda.Qwen35.Pass
import Garuda.Qwen35.Whole
