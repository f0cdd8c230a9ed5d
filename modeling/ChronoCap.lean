import ChronoCap.Foundation.LittleEndian
import ChronoCap.Foundation.ByteStore
import ChronoCap.Foundation.Machine
import ChronoCap.Foundation.Loop
import ChronoCap.Foundation.SlotWindow
import ChronoCap.Foundation.ReleaseAcquire
import ChronoCap.Foundation.Handover
import ChronoCap.Foundation.Framing
import ChronoCap.Foundation.Dispatch
import ChronoCap.Foundation.Deadlines
import ChronoCap.Foundation.Fifo
import ChronoCap.Foundation.Decimal
import ChronoCap.Foundation.Directory
import ChronoCap.WireFormat
import ChronoCap.Ring.MpscRingBuffer
import ChronoCap.Ring.Ledger
import ChronoCap.Ring.DropCount
import ChronoCap.Ring.PopOrder
import ChronoCap.Ring.Progress
import ChronoCap.Ring.Interleaving
import ChronoCap.Ring.SlotOwnership
import ChronoCap.Ring.WaitFreedom
import ChronoCap.Ring.Accounting
import ChronoCap.Ring.ClaimOrder
import ChronoCap.Ring.QueueRefinement
import ChronoCap.Ring.WeakMemory
import ChronoCap.Ring.DataRaces
import ChronoCap.Ring.InterleavedRaces
import ChronoCap.RecordWriter
import ChronoCap.RecordReader
import ChronoCap.RecordGrammar
import ChronoCap.FileGrammar
import ChronoCap.ReaderSafety
import ChronoCap.ReplayTiming
import ChronoCap.NameField
import ChronoCap.Truncation
import ChronoCap.RoundTrip
import ChronoCap.WriteFailure
import ChronoCap.WriterThread
import ChronoCap.Shutdown
import ChronoCap.PayloadCodec
import ChronoCap.GenericReplayer
import ChronoCap.LoggerConfig
import ChronoCap.GenericRecorder
import ChronoCap.I2wRecorder
import ChronoCap.ReplayFidelity
import ChronoCap.Containment
import ChronoCap.SessionIsolation
import ChronoCap.ReaderReuse
import ChronoCap.WalkAgreement
import ChronoCap.PeriodicFlush
import ChronoCap.ConfigLoading
import ChronoCap.CodecInverse
import ChronoCap.SmallTargets
import ChronoCap.CrashRecovery
import ChronoCap.CloseReturns
import ChronoCap.CompleteSession
import ChronoCap.ReplayClock
import ChronoCap.ReplayerMain
import ChronoCap.RecorderMain
import ChronoCap.MainReturns
import ChronoCap.RecordThenReplay
import ChronoCap.SessionName
import ChronoCap.SharedDirectory
