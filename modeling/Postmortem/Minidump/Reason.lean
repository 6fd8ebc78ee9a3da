import Postmortem.Minidump.System

/-!
# Reasons of crashes

What the operating systems call the codes with which they end a process.  A code says what happened
and flags say more of it; how the two are read depends on the system.
-/

set_option autoImplicit false

namespace Postmortem.Minidump.Reason

abbrev Names := List (Nat × String)

/-- A number of 32 bits without a name. -/
def unnamed (n : Nat) : String := Text.hexPrefixedPadded 8 n

def unknown (code flags : Nat) : String := "unknown " ++ unnamed code ++ " / " ++ unnamed flags

/-! ## Linux -/

def signals : Names :=
  [(1, "SIGHUP"), (2, "SIGINT"), (3, "SIGQUIT"), (4, "SIGILL"), (5, "SIGTRAP"), (6, "SIGABRT"),
    (7, "SIGBUS"), (8, "SIGFPE"), (9, "SIGKILL"), (10, "SIGUSR1"), (11, "SIGSEGV"),
    (12, "SIGUSR2"), (13, "SIGPIPE"), (14, "SIGALRM"), (15, "SIGTERM"), (16, "SIGSTKFLT"),
    (17, "SIGCHLD"), (18, "SIGCONT"), (19, "SIGSTOP"), (20, "SIGTSTP"), (21, "SIGTTIN"),
    (22, "SIGTTOU"), (23, "SIGURG"), (24, "SIGXCPU"), (25, "SIGXFSZ"), (26, "SIGVTALRM"),
    (27, "SIGPROF"), (28, "SIGWINCH"), (29, "SIGIO"), (30, "SIGPWR"), (31, "SIGSYS"),
    (0xffffffff, "DUMP_REQUESTED")]

def signalKinds : Nat → Names
  | 4 => [(1, "ILL_ILLOPC"), (2, "ILL_ILLOPN"), (3, "ILL_ILLADR"), (4, "ILL_ILLTRP"),
      (5, "ILL_PRVOPC"), (6, "ILL_PRVREG"), (7, "ILL_COPROC"), (8, "ILL_BADSTK"),
      (9, "ILL_BADIADDR")]
  | 5 => [(1, "TRAP_BRKPT"), (2, "TRAP_TRACE"), (3, "TRAP_BRANCH"), (4, "TRAP_HWBKPT"),
      (5, "TRAP_UNK")]
  | 7 => [(1, "BUS_ADRALN"), (2, "BUS_ADRERR"), (3, "BUS_OBJERR"), (4, "BUS_MCEERR_AR"),
      (5, "BUS_MCEERR_AO")]
  | 8 => [(1, "FPE_INTDIV"), (2, "FPE_INTOVF"), (3, "FPE_FLTDIV"), (4, "FPE_FLTOVF"),
      (5, "FPE_FLTUND"), (6, "FPE_FLTRES"), (7, "FPE_FLTINV"), (8, "FPE_FLTSUB"),
      (14, "FPE_FLTUNK"), (15, "FPE_CONDTRAP")]
  | 11 => [(1, "SEGV_MAPERR"), (2, "SEGV_ACCERR"), (3, "SEGV_BNDERR"), (4, "SEGV_PKUERR")]
  | 31 => [(1, "SYS_SECCOMP"), (2, "SYS_USER_DISPATCH")]
  | _ => []

/-- What the flags of any signal say of its sender.  The negative ones have 32 bits. -/
def signalSenders : Names :=
  [(0x80, "SI_KERNEL"), (0xffffffff, "SI_QUEUE"), (0xfffffffe, "SI_TIMER"),
    (0xfffffffd, "SI_MESGQ"), (0xfffffffc, "SI_ASYNCIO"), (0xfffffffb, "SI_SIGIO"),
    (0xfffffffa, "SI_TKILL"), (0xfffffff9, "SI_DETHREAD"), (0xffffffc4, "SI_ASYNCNL")]

/-- The signal that ended a process on Linux or Android.  A signal without flags comes from another
process, of which nothing is said. -/
def linux (code flags : Nat) : String :=
  match signals.lookup code with
  | none => unknown code flags
  | some signal =>
    if flags = 0 then signal
    else
      let detail := ((signalKinds code).lookup flags).or (signalSenders.lookup flags)
      signal ++ " / " ++ detail.getD (unnamed flags)

/-! ## macOS and iOS -/

def machExceptions : Names :=
  [(1, "EXC_BAD_ACCESS"), (2, "EXC_BAD_INSTRUCTION"), (3, "EXC_ARITHMETIC"), (4, "EXC_EMULATION"),
    (5, "EXC_SOFTWARE"), (6, "EXC_BREAKPOINT"), (7, "EXC_SYSCALL"), (8, "EXC_MACH_SYSCALL"),
    (9, "EXC_RPC_ALERT"), (10, "EXC_CRASH"), (11, "EXC_RESOURCE"), (12, "EXC_GUARD")]

/-- The code of a dump that was asked for as if there had been an exception. -/
def machSimulated : Nat := 0x43507378

def kernelKinds : Names :=
  [(1, "KERN_INVALID_ADDRESS"), (2, "KERN_PROTECTION_FAILURE"), (8, "KERN_NO_ACCESS"),
    (9, "KERN_MEMORY_FAILURE"), (10, "KERN_MEMORY_ERROR"), (50, "KERN_CODESIGN_ERROR")]

def softwareKinds : Names :=
  [(0x10002, "SIGABRT"), (0xdeadc0de, "UNCAUGHT_NS_EXCEPTION"), (1, "EXC_PPC_TRAP"),
    (0x10100, "EXC_PPC_MIGRATE")]

def intelKinds : Nat → Names
  | 1 => [(13, "EXC_I386_GPFLT")]
  | 2 => [(1, "EXC_I386_INVOP"), (10, "EXC_INVTSSFLT"), (11, "EXC_SEGNPFLT"), (12, "EXC_STKFLT"),
      (13, "EXC_GPFLT"), (17, "EXC_ALIGNFLT")]
  | 3 => [(1, "EXC_I386_DIV"), (2, "EXC_I386_INTO"), (3, "EXC_I386_NOEXT"),
      (4, "EXC_I386_EXTOVR"), (5, "EXC_I386_EXTERR"), (6, "EXC_I386_EMERR"),
      (7, "EXC_I386_BOUND"), (8, "EXC_I386_SSEEXTERR")]
  | 6 => [(1, "EXC_I386_SGL"), (2, "EXC_I386_BPT")]
  | _ => []

def arm64Kinds : Nat → Names
  | 1 => [(0x101, "EXC_ARM_DA_ALIGN"), (0x102, "EXC_ARM_DA_DEBUG")]
  | 2 => [(1, "EXC_ARM_UNDEFINED")]
  | 6 => [(1, "EXC_ARM_BREAKPOINT"), (0x101, "EXC_ARM_DA_ALIGN"), (0x102, "EXC_ARM_DA_DEBUG")]
  | _ => []

def commonKinds : Nat → Names
  | 1 => kernelKinds
  | 5 => softwareKinds
  | _ => []

/-- What the flags of an exception say, first on any processor and then on this one. -/
def machKinds (p : Processor) (code : Nat) : Names :=
  commonKinds code ++
    match p with
    | .x86 | .amd64 => intelKinds code
    | .arm64 | .arm64Old => arm64Kinds code
    | _ => []

def mach (p : Processor) (code flags : Nat) : String :=
  if code = machSimulated then "Simulated Exception"
  else
    match machExceptions.lookup code with
    | none => unknown code flags
    | some exception =>
      exception ++ " / " ++ ((machKinds p code).lookup flags).getD (unnamed flags)

/-! ## Windows -/

def accessViolation : Nat := 0xc0000005

def inPageError : Nat := 0xc0000006

def windowsExceptions : Names :=
  [(0x80000001, "EXCEPTION_GUARD_PAGE"), (0x80000002, "EXCEPTION_DATATYPE_MISALIGNMENT"),
    (0x80000003, "EXCEPTION_BREAKPOINT"),
    (0x80000004, "EXCEPTION_SINGLE_STEP"), (accessViolation, "EXCEPTION_ACCESS_VIOLATION"),
    (inPageError, "EXCEPTION_IN_PAGE_ERROR"), (0xc0000008, "EXCEPTION_INVALID_HANDLE"),
    (0xc000001d, "EXCEPTION_ILLEGAL_INSTRUCTION"),
    (0xc0000025, "EXCEPTION_NONCONTINUABLE_EXCEPTION"),
    (0xc0000026, "EXCEPTION_INVALID_DISPOSITION"), (0xc000008c, "EXCEPTION_ARRAY_BOUNDS_EXCEEDED"),
    (0xc000008d, "EXCEPTION_FLT_DENORMAL_OPERAND"), (0xc000008e, "EXCEPTION_FLT_DIVIDE_BY_ZERO"),
    (0xc000008f, "EXCEPTION_FLT_INEXACT_RESULT"), (0xc0000090, "EXCEPTION_FLT_INVALID_OPERATION"),
    (0xc0000091, "EXCEPTION_FLT_OVERFLOW"), (0xc0000092, "EXCEPTION_FLT_STACK_CHECK"),
    (0xc0000093, "EXCEPTION_FLT_UNDERFLOW"), (0xc0000094, "EXCEPTION_INT_DIVIDE_BY_ZERO"),
    (0xc0000095, "EXCEPTION_INT_OVERFLOW"), (0xc0000096, "EXCEPTION_PRIV_INSTRUCTION"),
    (0xc00000fd, "EXCEPTION_STACK_OVERFLOW"), (0xc0000194, "EXCEPTION_POSSIBLE_DEADLOCK"),
    (0xe0000008, "Out of Memory"), (0xe06d7363, "Unhandled C++ Exception"),
    (0x0517a7ed, "Simulated Exception")]

/-- The errors of Windows that stand for a failed call, by their numbers from zero on. -/
def windowsErrors : List String :=
  ["SUCCESS", "INVALID_FUNCTION", "FILE_NOT_FOUND", "PATH_NOT_FOUND", "TOO_MANY_OPEN_FILES",
    "ACCESS_DENIED", "INVALID_HANDLE", "ARENA_TRASHED", "NOT_ENOUGH_MEMORY", "INVALID_BLOCK",
    "BAD_ENVIRONMENT", "BAD_FORMAT", "INVALID_ACCESS", "INVALID_DATA", "OUTOFMEMORY",
    "INVALID_DRIVE", "CURRENT_DIRECTORY", "NOT_SAME_DEVICE", "NO_MORE_FILES", "WRITE_PROTECT",
    "BAD_UNIT", "NOT_READY", "BAD_COMMAND", "CRC", "BAD_LENGTH", "SEEK", "NOT_DOS_DISK",
    "SECTOR_NOT_FOUND", "OUT_OF_PAPER", "WRITE_FAULT", "READ_FAULT", "GEN_FAILURE",
    "SHARING_VIOLATION", "LOCK_VIOLATION", "WRONG_DISK"]

def accessKinds : Names := [(0, "READ"), (1, "WRITE"), (8, "EXEC")]

/-- What an exception of Windows says in its parameters, after its name.  An access violation has
the kind of access, and an error in reading a page in has the status of that as the third
parameter. -/
def windowsDetail (code : Nat) (parameters : List UInt64) : String :=
  let access := (parameters.head?.bind fun p => accessKinds.lookup p.toNat).map ("_" ++ ·)
  if code = accessViolation then access.getD ""
  else if code = inPageError then
    match access, parameters[2]? with
    | some access, some status => access ++ " / " ++ unnamed status.toUInt32.toNat
    | _, _ => ""
  else ""

def windows (code flags : Nat) (parameters : List UInt64) : String :=
  match windowsExceptions.lookup code, windowsErrors[code]? with
  | some exception, _ => exception ++ windowsDetail code parameters
  | none, some error => "ERROR_" ++ error
  | none, none => unknown code flags

end Postmortem.Minidump.Reason
