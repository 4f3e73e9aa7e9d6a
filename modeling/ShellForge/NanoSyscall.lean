import ShellForge.NanoProc

/-! # NanoBoot system calls

    `kernel/uart.c` and `kernel/ramfs.c` as far as the kernel prints through
    them, and the dispatcher of `kernel/syscall.c`.

    What the UART receives during a call is an input of the call: `rx i` is
    the `i`-th byte `uart_getc` returns in it. -/

namespace NanoSyscall

open ByteMemory NanoVm NanoProc

/-! ## UART output (`kernel/uart.c`) -/

/-- The bytes `uart_putc` sends for one character. -/
def uartBytes (c : UInt8) : List UInt8 := if c = 10 then [13, 10] else [c]

def uartPutc (k : Kernel) (c : UInt8) : Kernel :=
  { k with uart := k.uart ++ uartBytes c }

/-- `uart_puts`: a C string ends at its first NUL. -/
def uartPuts (k : Kernel) (s : List UInt8) : Kernel :=
  (s.takeWhile (· ≠ 0)).foldl uartPutc k

def uartText (k : Kernel) (s : String) : Kernel :=
  uartPuts k s.toUTF8.toList

/-- The decimal digits of `x`, least significant first, as the loop of
    `uart_print_u64` fills `buf` (32 places are enough for 64 bits). -/
def digits : Nat → Nat → List UInt8
  | 0, _ => []
  | fuel + 1, x => if x = 0 then [] else UInt8.ofNat (48 + x % 10) :: digits fuel (x / 10)

def uartPrintU64 (k : Kernel) (x : Nat) : Kernel :=
  if x = 0 then uartPutc k 48
  else (digits 32 x).reverse.foldl uartPutc k

def uartPrintInt (k : Kernel) (x : Int) : Kernel :=
  if x < 0 then uartPrintU64 (uartPutc k 45) (-x).toNat
  else uartPrintU64 k x.toNat

/-! ## The RAM file system (`kernel/ramfs.c`) -/

/-- `files[]` -/
def files : List (String × String) :=
  [("README.txt", "NanoBoot RAMFS\nThis file is stored in kernel memory.\n"),
   ("hello.txt", "Hello from the NanoBoot in-memory filesystem!\n"),
   ("design.txt", "RISC-V + QEMU virt + Sv39 + traps + syscalls + round-robin.\n")]

def ramfsLs (k : Kernel) : Kernel :=
  files.foldl (fun k f => uartPutc (uartText (uartText k "  ") f.1) 10)
    (uartText k "Files:\n")

/-- `ramfs_cat` of the C string in `name`. -/
def ramfsCat (k : Kernel) (name : List UInt8) : Int × Kernel :=
  match files.find? fun f => name.takeWhile (· ≠ 0) = f.1.toUTF8.toList with
  | some f => (0, uartText k f.2)
  | none => (-1, uartText k "cat: file not found\n")

/-! ## The process list -/

def procStateName : ProcState → String
  | .unused => "UNUSED"
  | .runnable => "RUNNABLE"
  | .running => "RUNNING"
  | .sleeping => "SLEEPING"
  | .zombie => "ZOMBIE"

def procPs (k : Kernel) : Kernel :=
  (List.finRange nproc).foldl (fun k i =>
    if (k.procTable i).state = .unused then k
    else
      let k := uartPrintInt k (k.procTable i).pid
      let k := uartText k "\t"
      let k := uartText k (procStateName (k.procTable i).state)
      uartPutc k 10) (uartText k "PID\tSTATE\n")

/-! ## The calls (`kernel/syscall.c`) -/

/-- `current_proc->pagetable` (every caller runs with a current process). -/
def currentPagetable (k : Kernel) : Nat :=
  match k.currentProc with
  | some p => (k.procTable p).pagetable
  | none => 0

def sysWrite (k : Kernel) (tf : TfPtr) : Int × Kernel :=
  let uva := ((k.trapframes tf).regs 10).toNat
  let len := ((k.trapframes tf).regs 11).toNat
  let len := if len > 1024 then 1024 else len
  let (r, buf) := copyin k.vm.mem (currentPagetable k) uva len
  if r < 0 then (-1, k) else (len, uartPuts k (buf ++ [0]))

/-- The loop of `sys_read`, with `n` bytes left, at byte `i`. -/
def sysReadLoop (rx : Nat → UInt8) (pt uva : Nat) : Nat → Nat → Vm → Int × Vm
  | 0, i, v => (i, v)
  | n + 1, i, v =>
      let c := rx i
      let (r, v) := copyout v pt ((uva + i) % wordSize) [c]
      if r < 0 then (-1, v)
      else if c = 10 then ((i + 1 : Nat), v)
      else sysReadLoop rx pt uva n (i + 1) v

def sysRead (rx : Nat → UInt8) (k : Kernel) (tf : TfPtr) : Int × Kernel :=
  let uva := ((k.trapframes tf).regs 10).toNat
  let len := ((k.trapframes tf).regs 11).toNat
  if len = 0 ∨ len > 256 then (-1, k)
  else
    let (r, vm) := sysReadLoop rx (currentPagetable k) uva len 0 k.vm
    (r, { k with vm := vm })

def sysFork (L : Layout) (k : Kernel) (tf : TfPtr) : Int × Kernel := procFork L k tf

def sysWait (L : Layout) (k : Kernel) : Int × Kernel := procWait L k

def sysGetpid (k : Kernel) : Int :=
  match k.currentProc with
  | some p => (k.procTable p).pid
  | none => -1

/-- The number of ticks `sys_sleep` sleeps for argument `n`. -/
def clampTicks (n : Word) : Word := if n > 1000000 then 1000000 else n

def sysSleep (k : Kernel) (tf : TfPtr) : Int × Kernel :=
  let n := clampTicks ((k.trapframes tf).regs 10)
  if n = 0 then (0, k) else (0, procSleep k n)

def sysPs (k : Kernel) : Int × Kernel := (0, procPs k)

def sysLs (k : Kernel) : Int × Kernel := (0, ramfsLs k)

def sysCat (k : Kernel) (tf : TfPtr) : Int × Kernel :=
  let (r, name) := copyinstr k.vm.mem (currentPagetable k)
    ((k.trapframes tf).regs 10).toNat 32
  if r < 0 then (-1, k) else ramfsCat k name

/-- The call numbers of `include/sysnum.h`. -/
inductive Sysnum
  | read | write | fork | exit | wait | getpid | sleep | ps | ls | cat | unknown
  deriving DecidableEq, Repr

def sysnum (n : Word) : Sysnum :=
  if n = 0 then .read else if n = 1 then .write else if n = 2 then .fork
  else if n = 3 then .exit else if n = 4 then .wait else if n = 5 then .getpid
  else if n = 6 then .sleep else if n = 7 then .ps else if n = 8 then .ls
  else if n = 9 then .cat else .unknown

/-- `(int)x`: the low 32 bits, signed. -/
def toInt32 (x : Word) : Int := (x.setWidth 32).toInt

/-- The `switch` of `syscall_dispatch`. -/
def syscallRun (L : Layout) (rx : Nat → UInt8) (k : Kernel) (tf : TfPtr) :
    Int × Kernel :=
  match sysnum ((k.trapframes tf).regs 17) with
  | .read => sysRead rx k tf
  | .write => sysWrite k tf
  | .fork => sysFork L k tf
  | .exit => (0, procExit L k (toInt32 ((k.trapframes tf).regs 10)))
  | .wait => sysWait L k
  | .getpid => (sysGetpid k, k)
  | .sleep => sysSleep k tf
  | .ps => sysPs k
  | .ls => sysLs k
  | .cat => sysCat k tf
  | .unknown => (-1, k)

def syscallDispatch (L : Layout) (rx : Nat → UInt8) (k : Kernel) (tf : TfPtr) :
    Kernel :=
  let (ret, k) := syscallRun L rx k tf
  k.setTf tf fun t => t.setA0 (BitVec.ofInt 64 ret)

end NanoSyscall
