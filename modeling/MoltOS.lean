import MoltOS.EevdfBounds
import MoltOS.EevdfFair
import MoltOS.EevdfShare
import MoltOS.Kernel
import MoltOS.KernelMove
import MoltOS.KernelAgree
import MoltOS.KernelSwitch
import MoltOS.KMutexOwner
import MoltOS.EevdfBlocked
import MoltOS.KernelSleep
import MoltOS.KernelAwake
import MoltOS.KMutexDeadlock
import MoltOS.KMutexWedge
import MoltOS.KMutexTokens
import MoltOS.KMutexPop
import MoltOS.KMutexWake
import MoltOS.KMutexLost
import MoltOS.X86.Machine
import MoltOS.X86.Stack
import MoltOS.Context
import MoltOS.IrqFrame
import MoltOS.IrqPreempt
import MoltOS.ContextResume
import MoltOS.ContextTransparent
import MoltOS.EevdfRewind
import MoltOS.EevdfEnvelope
import MoltOS.ArrayQueue
import MoltOS.Executor
import MoltOS.Syscall
import MoltOS.ExecutorWake
import MoltOS.ExecutorBurst
import MoltOS.Bytes
import MoltOS.Fs
import MoltOS.FsSafe
import MoltOS.FsRoundTrip
import MoltOS.RawMemory
import MoltOS.Allocator
import MoltOS.AllocatorSafe
import MoltOS.AllocatorRaw
import MoltOS.AllocatorRefine
import MoltOS.AllocatorFrame
import MoltOS.IrqMutex
import MoltOS.LineTerminal
import MoltOS.Vga
import MoltOS.VgaTerminal
import MoltOS.ShellScreen
import MoltOS.LinkedList
import MoltOS.LinkedListSafe
import MoltOS.ExecutorTasks
import MoltOS.ExecutorDrain
import MoltOS.ExecutorSleep
import MoltOS.Malloc
import MoltOS.MallocSafe
import MoltOS.MallocKernel
import MoltOS.HeapLock
import MoltOS.EevdfCharge
import MoltOS.EevdfElapsed
import MoltOS.AllocatorReuse
import MoltOS.Bump
import MoltOS.Frames
import MoltOS.LinkedListRaw
import MoltOS.Playpal
import MoltOS.ThreadStart
import MoltOS.LinkedListFirstFit
import MoltOS.Ata
import MoltOS.AtaReadAll
import MoltOS.RoundRobin
import MoltOS.RingBuffer
import MoltOS.DoomKeys
import MoltOS.CInt
import MoltOS.CString
import MoltOS.Machine
import MoltOS.Numeral
import MoltOS.Printf
import MoltOS.PrintfText
import MoltOS.PrintfRun
import MoltOS.PrintfEnds
import MoltOS.PrintfBuffer
import MoltOS.PrintfInt
import MoltOS.Strtol
import MoltOS.Scanf
import MoltOS.PrintfParse
import MoltOS.Cursor
import MoltOS.Stdio
import MoltOS.StringFns
import MoltOS.EevdfWait
import MoltOS.Storage
import MoltOS.MallocStore
import MoltOS.KernelPrivate
import MoltOS.KMutexOrder
import MoltOS.ExecutorQuiet
import MoltOS.NodeTree
import MoltOS.Paging
import MoltOS.PagingMap
import MoltOS.PagingMapper
import MoltOS.PagingBoot
import MoltOS.DeviceAtomic
import MoltOS.DeviceCalls
import MoltOS.Mode13
import MoltOS.Pic
import MoltOS.SerialText
import MoltOS.Words
import MoltOS.ShellCommand
import MoltOS.ShellSession
