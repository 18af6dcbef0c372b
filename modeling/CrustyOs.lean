import CrustyOs.Abalone.BuddySafety
import CrustyOs.Abalone.BuddyCapacity
import CrustyOs.Abalone.BuddyCuts
import CrustyOs.Abalone.BuddyLists
import CrustyOs.Abalone.BuddyAccounts
import CrustyOs.Abalone.BuddyCanonical
import CrustyOs.Abalone.BuddyDecomposition
import CrustyOs.Abalone.BuddyReserve
import CrustyOs.Abalone.TlsfReuse
import CrustyOs.Abalone.TlsfSearch
import CrustyOs.Abalone.SlabAccounts
import CrustyOs.Abalone.SlabLayout
import CrustyOs.Abalone.SlabLists
import CrustyOs.Mantle.WalkerRefines
import CrustyOs.Mantle.HugePages
import CrustyOs.Mantle.MapProgress
import CrustyOs.Kernel.BootPages
import CrustyOs.Kernel.BootBase
import CrustyOs.Kernel.MmioSwitch
import CrustyOs.Kernel.StackGuard
import CrustyOs.Kernel.BootSeed
import CrustyOs.Writers.Console
import CrustyOs.Abalone.AllocatorStack
import CrustyOs.Abalone.StackRegions
import CrustyOs.Kernel.KernelHeap
import CrustyOs.Kernel.KernelMain
import CrustyOs.Kernel.BootCompletes
import CrustyOs.Kernel.LiveKernel
import CrustyOs.Kernel.PostStackState
import CrustyOs.Interrupts.InterruptRuns
