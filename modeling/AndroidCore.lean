import AndroidCore.Proofs.Adb.Isolation
import AndroidCore.Proofs.Adb.Refinement
import AndroidCore.Proofs.Audio.StartOrder
import AndroidCore.Proofs.Debuggerd.OutputFiles
import AndroidCore.Proofs.Init.Action
import AndroidCore.Proofs.Init.Parser
import AndroidCore.Proofs.Liblog.EventRoundTrip
import AndroidCore.Proofs.Liblog.LogPrint
import AndroidCore.Proofs.Libmemunreachable.FoldLeaks
import AndroidCore.Proofs.Libmemunreachable.HeapRuns
import AndroidCore.Proofs.Libsparse.Checksum
import AndroidCore.Proofs.Libsparse.NormalOutput
import AndroidCore.Proofs.Libsparse.ReadNormal
import AndroidCore.Proofs.Libsparse.ResparseBound
import AndroidCore.Proofs.Libsysutils.FrameworkListener
import AndroidCore.Proofs.Libsysutils.QuoteArg
import AndroidCore.Proofs.Libunwindstack.DwarfCfa
import AndroidCore.Proofs.Libunwindstack.DwarfEhFrame
import AndroidCore.Proofs.Libunwindstack.DwarfMemory
import AndroidCore.Proofs.Libunwindstack.DwarfSection
import AndroidCore.Proofs.Libunwindstack.OpSafety
import AndroidCore.Proofs.Libunwindstack.Unwinder
import AndroidCore.Proofs.Libutils.Dispatch
import AndroidCore.Proofs.Libutils.LruCache
import AndroidCore.Proofs.Libutils.Unicode
import AndroidCore.Proofs.Libziparchive.Alignment
import AndroidCore.Proofs.Logd.Accounting
import AndroidCore.Proofs.Logd.Clear
import AndroidCore.Proofs.Logd.LogBuffer
import AndroidCore.Proofs.Logd.TimeOrder
