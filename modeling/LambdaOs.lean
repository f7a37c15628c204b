import LambdaOs.Run
import LambdaOs.LastWrite
import LambdaOs.Word
import LambdaOs.Errno
import LambdaOs.Window
import LambdaOs.Ring
import LambdaOs.MemProg
import LambdaOs.Lz77
import LambdaOs.Llist
import LambdaOs.LlistRefine
import LambdaOs.Alloc
import LambdaOs.AllocTable
import LambdaOs.AllocInv
import LambdaOs.AllocRun
import LambdaOs.AllocSum
import LambdaOs.AllocCall
import LambdaOs.AllocLimit
import LambdaOs.AllocGrow
import LambdaOs.UserAlloc
import LambdaOs.FirstLeast
import LambdaOs.FindHole
import LambdaOs.Paging
import LambdaOs.AllocPages
import LambdaOs.PagingStep
import LambdaOs.PagingMap
import LambdaOs.PagingClone
import LambdaOs.PagingRoom
import LambdaOs.PagingGlobal
import LambdaOs.PagingRefused
import LambdaOs.Mmap
import LambdaOs.SeqCopy
import LambdaOs.RemapPage
import LambdaOs.PhysMem
import LambdaOs.MmuData
import LambdaOs.CopyData
import LambdaOs.CopyExact
import LambdaOs.ForkData
import LambdaOs.ForkCopy
import LambdaOs.Elf
import LambdaOs.ElfExec
import LambdaOs.SchedQueue
import LambdaOs.SchedLoad
import LambdaOs.TimeBlocks
import LambdaOs.Cond
import LambdaOs.Proc
import LambdaOs.ProcTree
import LambdaOs.ProcFiles
import LambdaOs.Tasks
import LambdaOs.SchedNext
import LambdaOs.TaskFail
import LambdaOs.Execve
import LambdaOs.TaskCalls
import LambdaOs.TaskIdents
import LambdaOs.TaskIds
import LambdaOs.ThreadDestroy
import LambdaOs.Cbuff
import LambdaOs.Tlock
import LambdaOs.Stream
import LambdaOs.Fs
import LambdaOs.FsWalk
import LambdaOs.FsNames
import LambdaOs.Devfs
import LambdaOs.Environ
import LambdaOs.ExecArgs
import LambdaOs.Lzo
import LambdaOs.LzoSafe
import LambdaOs.LzoInput
import LambdaOs.LzoDecode
import LambdaOs.Lzop
import LambdaOs.LzopPasses
import LambdaOs.Initrd
import LambdaOs.InitrdMount
import LambdaOs.Module
import LambdaOs.ModuleLink
import LambdaOs.Layout
import LambdaOs.ModulePlace
import LambdaOs.ModuleMem
import LambdaOs.ModuleFill
import LambdaOs.ModuleReloc
import LambdaOs.Symlink
import LambdaOs.ProcFs
import LambdaOs.InitrdRead
import LambdaOs.FileReads
import LambdaOs.ProcOpen
import LambdaOs.DirStream
import LambdaOs.ElfBounds
import LambdaOs.VgaConsole
import LambdaOs.Multiboot
import LambdaOs.BootHeap
import LambdaOs.InputDevs
import LambdaOs.StrCompare
import LambdaOs.StrCopy
import LambdaOs.MemMove
import LambdaOs.Cmdline
import LambdaOs.PrintInt
import LambdaOs.Strtoul
import LambdaOs.KernelPrint
import LambdaOs.ShellSplit
import LambdaOs.ShellWords
import LambdaOs.ShellReplace
import LambdaOs.UserRealloc
import LambdaOs.UserPrint
import LambdaOs.ForkMmap
import LambdaOs.ThreadStack
import LambdaOs.StackGuard
import LambdaOs.ArmMmu
import LambdaOs.Turns
import LambdaOs.TaskFrame
import LambdaOs.TaskSwitch
import LambdaOs.Records
import LambdaOs.InputEvents
import LambdaOs.InputQueues
import LambdaOs.Delay
import LambdaOs.InitTask
import LambdaOs.RecordWalk
import LambdaOs.Acpi
import LambdaOs.Madt
import LambdaOs.Pieces
import LambdaOs.Execvp
import LambdaOs.Preload
import LambdaOs.CatFile
import LambdaOs.StackTrace
import LambdaOs.IntrStub
import LambdaOs.Slots
import LambdaOs.IntrTable
import LambdaOs.ProgramStart
