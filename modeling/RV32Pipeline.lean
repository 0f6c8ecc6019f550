import RV32Pipeline.Pipeline.CsrHazard
import RV32Pipeline.Pipeline.Forwarding
import RV32Pipeline.Pipeline.Invisible
import RV32Pipeline.Pipeline.Progress
import RV32Pipeline.Pipeline.Transactions
import RV32Pipeline.Host.Difftest
import RV32Pipeline.Host.ExitStatus
import RV32Pipeline.Host.Uart
import RV32Pipeline.Host.Sdb
import RV32Pipeline.Pipeline.Speculation
import RV32Pipeline.Uart.Link
import RV32Pipeline.Pipeline.Reset
import RV32Pipeline.Pipeline.EvenPc
import RV32Pipeline.Rtl.Execution
import RV32Pipeline.Am.Switch
import RV32Pipeline.Rtl.CsrFile
import RV32Pipeline.Host.RegCompare
import RV32Pipeline.Host.Ftrace
import RV32Pipeline.Host.ByteAccess
import RV32Pipeline.Host.Bounds
import RV32Pipeline.Uart.Drain
import RV32Pipeline.Rtl.MExtension
import RV32Pipeline.Host.ExprFault
import RV32Pipeline.Host.ExprPrecedence
import RV32Pipeline.Klib.Memmove
import RV32Pipeline.Am.Timer
import RV32Pipeline.Klib.Malloc
import RV32Pipeline.Host.CallTrace
import RV32Pipeline.Host.InstrRing
import RV32Pipeline.Klib.Stdio
import RV32Pipeline.Klib.FormatScan
import RV32Pipeline.Klib.FormatOutput
import RV32Pipeline.Klib.FormatInteger
import RV32Pipeline.Klib.FormatAgrees
import RV32Pipeline.Klib.Atoi
import RV32Pipeline.Pipeline.Bubble
import RV32Pipeline.Pipeline.Isa
import RV32Pipeline.Pipeline.Libgcc
import RV32Pipeline.Pipeline.Cycles
import RV32Pipeline.Host.DifftestRun
import RV32Pipeline.Klib.Int64
import RV32Pipeline.Host.BatchRun
import RV32Pipeline.Uart.Spacing
import RV32Pipeline.Uart.Top
