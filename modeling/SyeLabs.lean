import SyeLabs.Memreplace.Lru
import SyeLabs.Memreplace.WorkingSet
import SyeLabs.Memreplace.Input
import SyeLabs.Tictactoe.Outcome
import SyeLabs.Tictactoe.Piped
import SyeLabs.Tictactoe.Search
import SyeLabs.Tictactoe.Player
import SyeLabs.Socket.Pairing
import SyeLabs.Memsim.SelfTest
import SyeLabs.Threads.Counting
import SyeLabs.Threads.Sizes
import SyeLabs.Shell.Plumbing
import SyeLabs.Ls
import SyeLabs.Mmu.Ownership
import SyeLabs.Kernel.Duplicate
import SyeLabs.Kernel.Exec
import SyeLabs.Kernel.Boot
import SyeLabs.Kernel.Delivery
import SyeLabs.Kernel.Parentage
import SyeLabs.Kernel.Names
import SyeLabs.Kernel.Interrupts
import SyeLabs.Kernel.ArgsPage
import SyeLabs.Kernel.Loading
import SyeLabs.Kernel.KernelSpace
import SyeLabs.Kernel.Queries
import SyeLabs.Kernel.Leaks
