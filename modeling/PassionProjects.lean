import PassionProjects.ForgeLM.Tokenizer.Lossless
import PassionProjects.ForgeLM.Evaluation.Perplexity
import PassionProjects.ForgeLM.Generation.Sampling
import PassionProjects.ForgeLM.Model.Rope
import PassionProjects.ForgeLM.Training.Loop
import PassionProjects.ReleaseGuard.Audit.Jsonl
import PassionProjects.ReleaseGuard.Evaluator.Guardrail
import PassionProjects.ReleaseGuard.Rollout.Deadline
import PassionProjects.ReleaseGuard.Rollout.Reference
import PassionProjects.ReleaseGuard.Rollout.Progress
import PassionProjects.ReleaseGuard.Rollout.Decisions
import PassionProjects.MiniPaged.Kv.Accounting
import PassionProjects.MiniPaged.Scheduler.Fairness
import PassionProjects.MiniPaged.Simulation.Life
import PassionProjects.MiniPaged.Simulation.Monotone
import PassionProjects.Flashlite.CudaFused.Attention
import PassionProjects.Flashlite.CudaOnlineSoftmax.Softmax
import PassionProjects.Kernelforge.Gemm.Product
import PassionProjects.Lib.Warps.Trees
import PassionProjects.Kernelforge.LaunchValidate
import PassionProjects.Arcserve.Server.Responses
import PassionProjects.Arcserve.Server.Stranded
import PassionProjects.Arcserve.Server.Reuse
import PassionProjects.Arcserve.Server.Wakeups
import PassionProjects.Arcserve.Protocol.Streams
import PassionProjects.PebbleDB.Db.CounterUnderflow
import PassionProjects.PebbleDB.Db.LogRotation
import PassionProjects.PebbleDB.Db.SingleByteDamage
import PassionProjects.PebbleDB.Db.TableCount
import PassionProjects.PebbleDB.Db.BlockReads
import PassionProjects.Lib.Sorted
import PassionProjects.PebbleDB.Sstable.ReaderSafety
import PassionProjects.PebbleDB.Sstable.WriterSpec
import PassionProjects.PebbleDB.Sstable.Reader
import PassionProjects.PebbleDB.Db.FileNumbers
import PassionProjects.PebbleDB.Db.PowerLoss
import PassionProjects.PebbleDB.Db.WalErrors
import PassionProjects.PebbleDB.Db.CrashSafety
import PassionProjects.PebbleDB.Db.Run
import PassionProjects.PebbleDB.Db.Recover
import PassionProjects.PebbleDB.Db.Write
import PassionProjects.PebbleDB.Db.Flush
import PassionProjects.PebbleDB.Db.Invariant
import PassionProjects.PebbleDB.Db.Layering
import PassionProjects.PebbleDB.Wal.WriterSpec
import PassionProjects.PebbleDB.Manifest.ManifestSpec
import PassionProjects.PebbleDB.Util.PosixFileSpec
import PassionProjects.PebbleDB.Wal.Damage
import PassionProjects.PebbleDB.Db.DB
import PassionProjects.Xv6Plus.Kernel.LotteryPeriod
import PassionProjects.Xv6Plus.Kernel.Telemetry
import PassionProjects.Xv6Plus.Kernel.Xvstat
import PassionProjects.Arcserve.Server.DefaultHandlers
import PassionProjects.Kernelforge.Reduction.Rungs
import PassionProjects.Kernelforge.Histogram.Rungs
import PassionProjects.Kernelforge.Softmax.Rungs
import PassionProjects.Arcserve.Reactor.OutputPath
import PassionProjects.PebbleDB.Cache.Recency
import PassionProjects.Arcserve.Concurrency.WorkerPool
import PassionProjects.Kernelforge.Scan.Rungs
import PassionProjects.Kernelforge.Norm.Rungs
