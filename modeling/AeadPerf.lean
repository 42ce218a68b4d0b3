import AeadPerf.Lib.Checked
import AeadPerf.Lib.KeyStream
import AeadPerf.Lib.Words
import AeadPerf.Lib.BinField
import AeadPerf.Aes.Bytes
import AeadPerf.Aes.Fips197
import AeadPerf.Aes.Refine
import AeadPerf.Aes.Perm
import AeadPerf.Aes.Ctr
import AeadPerf.Aes.CtrStream
import AeadPerf.Aes.Diffusion
import AeadPerf.Aes.CtrMode
import AeadPerf.Aes.CtrReuse
import AeadPerf.ChaCha.Core
import AeadPerf.ChaCha.Rfc8439
import AeadPerf.ChaCha.Scalar
import AeadPerf.Lib.Simd
import AeadPerf.ChaCha.Rows
import AeadPerf.ChaCha.Perm
import AeadPerf.ChaCha.Sse
import AeadPerf.ChaCha.Avx
import AeadPerf.Lib.Pieces
import AeadPerf.ChaCha.Session
import AeadPerf.ChaCha.AvxStream
import AeadPerf.Aes.CtrLeaks
import AeadPerf.Lib.Register
import AeadPerf.Aes.KeyRecovery
import AeadPerf.Ciphers
import AeadPerf.Lib.Overlap
import AeadPerf.InPlace
import AeadPerf.Lib.Heap
import AeadPerf.Bench.Queue
import AeadPerf.Bench.QueueRuns
import AeadPerf.Bench.QueueFree
import AeadPerf.Bench.QueueFifo
import AeadPerf.Lib.Exchange
import AeadPerf.Bench.QueueOwns
import AeadPerf.Lib.Monitor
import AeadPerf.Bench.Mailbox
import AeadPerf.Bench.MailboxWake
import AeadPerf.Lib.Progress
import AeadPerf.Bench.MailboxProgress
import AeadPerf.Bench.MailboxEnd
import AeadPerf.Bench.MailboxOwns
import AeadPerf.Lib.Linear
import AeadPerf.Bench.MailboxLinear
import AeadPerf.Bench.MailboxDelivers
import AeadPerf.Bench.Transfer
import AeadPerf.Bench.ReadAll
import AeadPerf.Bench.Timer
import AeadPerf.Bench.Samples
import AeadPerf.Tests.Hex
