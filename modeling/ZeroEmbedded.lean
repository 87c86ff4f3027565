import ZeroEmbedded.Storage.NvsPowerLoss
import ZeroEmbedded.Storage.NvsAddressing
import ZeroEmbedded.Storage.NvsCapacity
import ZeroEmbedded.Storage.NvsIntegrity
import ZeroEmbedded.Storage.NvsInterrupted
import ZeroEmbedded.Storage.NvsWear
import ZeroEmbedded.Storage.OtaUpdate
import ZeroEmbedded.Storage.OtaLifecycle
import ZeroEmbedded.Storage.OtaImage
import ZeroEmbedded.Protocol.ZeroWireResync
import ZeroEmbedded.Protocol.ZeroWireIntegrity
import ZeroEmbedded.Protocol.RustProtocol
import ZeroEmbedded.Protocol.DispatcherServer
import ZeroEmbedded.Protocol.ZeroWireLink
import ZeroEmbedded.Hal.WatchdogIsr
import ZeroEmbedded.Hal.CrashDump
import ZeroEmbedded.Hal.CrashRetention
import ZeroEmbedded.Hal.CrashReport
import ZeroEmbedded.Hal.Timer
import ZeroEmbedded.Hal.Power
import ZeroEmbedded.Hal.Dma
import ZeroEmbedded.Hal.SerialLink
import ZeroEmbedded.Hal.Gpio
import ZeroEmbedded.Hal.Cache
import ZeroEmbedded.Hal.Timeout
import ZeroEmbedded.Sync.Spsc
import ZeroEmbedded.Sync.SpscQuery
import ZeroEmbedded.Sync.RustSpsc
import ZeroEmbedded.Sync.TaskletDrain
import ZeroEmbedded.Sync.Hook
import ZeroEmbedded.Fsm.Fsm
import ZeroEmbedded.Core.InitEngine
import ZeroEmbedded.Diag.LogLine
import ZeroEmbedded.Diag.Monitor
import ZeroEmbedded.Diag.BootGuard
import ZeroEmbedded.Diag.StackPaint
import ZeroEmbedded.Dsp.Filter
import ZeroEmbedded.Memory.HubReserve
import ZeroEmbedded.Memory.HubAccounting
import ZeroEmbedded.Memory.HubIsolation
import ZeroEmbedded.Memory.HubSpace
import ZeroEmbedded.Memory.PoolLayout
import ZeroEmbedded.Memory.ArenaRun
import ZeroEmbedded.Memory.ArenaContents
import ZeroEmbedded.Memory.Span
import ZeroEmbedded.Memory.StringView
import ZeroEmbedded.Memory.Buffer
import ZeroEmbedded.Crypto.ChaCha20
import ZeroEmbedded.Crypto.Sha256Stream
import ZeroEmbedded.Tooling.SvdCodegen
import ZeroEmbedded.Tooling.AnalyzerExact
