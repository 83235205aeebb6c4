import RiscvOs.Kernel.CpageFree
import RiscvOs.Kernel.Kzalloc
import RiscvOs.Kernel.KmallocSorted
import RiscvOs.Kernel.ElfImage
import RiscvOs.Kernel.RbtreeDelete
import RiscvOs.Sbi.HartRuns
import RiscvOs.Kernel.RingbuffQueue
import RiscvOs.Kernel.VirtioRng
import RiscvOs.Kernel.VirtioblkReads
import RiscvOs.Kernel.VirtioInpRuns
import RiscvOs.Kernel.VirtioGpuRuns
import RiscvOs.Kernel.Teardown
import RiscvOs.Kernel.SchedulingExclusive
import RiscvOs.Kernel.LockSemaphore
import RiscvOs.Kernel.LockBarrier
import RiscvOs.Kernel.MapRuns
import RiscvOs.Kernel.NcpageRuns
import RiscvOs.Kernel.PciRuns
import RiscvOs.Kernel.BlockReads
import RiscvOs.Kernel.MmuMultiple
import RiscvOs.Kernel.MmuFailure
import RiscvOs.Kernel.MmuPages
import RiscvOs.Kernel.MmuSpaces
import RiscvOs.Kernel.MmuKernel
import RiscvOs.Kernel.UaccessRights
import RiscvOs.Kernel.ElfBounds
import RiscvOs.Kernel.Spawn
import RiscvOs.Kernel.Syscall
import RiscvOs.Kernel.Minix3Offsets
import RiscvOs.Kernel.Minix3Ends
import RiscvOs.Kernel.Ext4Root
import RiscvOs.Kernel.RbtreePages
import RiscvOs.Sbi.Svccall
import RiscvOs.Sbi.RingBuffRuns
import RiscvOs.Kernel.FillRect
import RiscvOs.Kernel.Vfs
import RiscvOs.Kernel.ConsoleRuns
import RiscvOs.User.Console
import RiscvOs.Kernel.PrintfDirectives
import RiscvOs.Kernel.PciCapes
import RiscvOs.User.String
import RiscvOs.Sbi.Plic
import RiscvOs.Sbi.Ctrap
import RiscvOs.Sbi.CtrapTimers
import RiscvOs.Sbi.TrapVector
import RiscvOs.Kernel.ContextSwitch
import RiscvOs.Sbi.BootStatements
import RiscvOs.Sbi.BootRuns
