import SyeLabs.Theory.Descriptors

/-!
# The file descriptors of a process

`fd_array` in the PCB; -1 is `none` here.
-/

namespace SyeLabs.Kernel
open Descriptors

variable {F : Type*}

abbrev FD_MAX : ℕ := 64

def STDIN : Fin FD_MAX := 0
def STDOUT : Fin FD_MAX := 1
def STDERR : Fin FD_MAX := 2

/-- `fd_array`. -/
abbrev Files (F : Type*) := Table F FD_MAX

def proc_new_fd (fd_array : Files F) : Option (Fin FD_MAX) := fd_array.unused

def proc_register_fd (fd_array : Files F) (gfd : F) : Option (Fin FD_MAX × Files F) :=
  (proc_new_fd fd_array).map fun fd => (fd, Function.update fd_array fd (some gfd))

theorem proc_register_fd_eq (fd_array : Files F) (gfd : F) :
    proc_register_fd fd_array gfd = fd_array.register gfd := rfl

/-- The descriptors that `create_root_process` sets, where `std` are the files of the console. -/
def rootFiles (std : Fin FD_MAX → F) : Files F :=
  let fd_array : Files F := fun _ => none
  let fd_array := Function.update fd_array STDOUT (some (std STDOUT))
  let fd_array := Function.update fd_array STDIN (some (std STDIN))
  Function.update fd_array STDERR (some (std STDERR))

/-- The loop of `do_exit`. -/
def exitFiles (fd_array : Files F) : Files F := (List.finRange FD_MAX).foldl Table.close fd_array

theorem exitFiles_eq (fd_array : Files F) : exitFiles fd_array = fun _ => none :=
  Table.foldl_close fd_array

end SyeLabs.Kernel
