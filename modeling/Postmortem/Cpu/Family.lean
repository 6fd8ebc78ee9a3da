import Postmortem.Cpu.RegisterNames

/-!
# CPU families

What all variants of an architecture share: the width of a pointer, the size of an instruction, and
the names of the registers that matter for walking a stack.  Thread contexts use plain names such
as `rsp` or `fp`; unwind rules spell registers as debug information does, such as `$rsp` or `x29`.
-/

set_option autoImplicit false

namespace Postmortem.Cpu

/-- A family of CPUs with one instruction set, pointer width and register file. -/
inductive Family where
  | unknown
  | intel32
  | amd64
  | arm32
  | arm64
  | ppc32
  | ppc64
  | mips32
  | mips64
  | arm64_32
  deriving DecidableEq, Repr, Inhabited

namespace Family

def code : Family → Nat
  | unknown => 0
  | intel32 => 1
  | amd64 => 2
  | arm32 => 3
  | arm64 => 4
  | ppc32 => 5
  | ppc64 => 6
  | mips32 => 7
  | mips64 => 8
  | arm64_32 => 9

def label : Family → String
  | unknown => "Unknown"
  | intel32 => "Intel32"
  | amd64 => "Amd64"
  | arm32 => "Arm32"
  | arm64 => "Arm64"
  | ppc32 => "Ppc32"
  | ppc64 => "Ppc64"
  | mips32 => "Mips32"
  | mips64 => "Mips64"
  | arm64_32 => "Arm64_32"

def pointerSize? : Family → Option Nat
  | unknown => none
  | amd64 | arm64 | ppc64 | mips64 => some 8
  | intel32 | arm32 | ppc32 | mips32 | arm64_32 => some 4

def alignment? : Family → Option UInt64
  | arm32 => some 2
  | arm64 | arm64_32 | ppc32 | mips32 | mips64 => some 4
  | ppc64 => some 8
  | intel32 | amd64 | unknown => none

def instructionPointer? : Family → Option String
  | intel32 => some "eip"
  | amd64 => some "rip"
  | arm32 | arm64 | arm64_32 | mips32 | mips64 => some "pc"
  | ppc32 | ppc64 => some "srr0"
  | unknown => none

def stackPointer? : Family → Option String
  | intel32 => some "esp"
  | amd64 => some "rsp"
  | arm32 | arm64 | arm64_32 | mips32 | mips64 => some "sp"
  | ppc32 | ppc64 => some "r1"
  | unknown => none

/-- The frame pointer in a thread context, where frames are chained by one. -/
def framePointer? : Family → Option String
  | intel32 => some "ebp"
  | amd64 => some "rbp"
  | arm32 => some "r11"
  | arm64 | arm64_32 | mips32 | mips64 => some "fp"
  | ppc32 | ppc64 | unknown => none

/-- The link register that holds the return address, where a call does not push it. -/
def linkRegister? : Family → Option String
  | arm32 | arm64 | arm64_32 => some "lr"
  | mips32 | mips64 => some "ra"
  | _ => none

def calleeSaved : Family → List String
  | intel32 => ["ebx", "esi", "edi", "ebp"]
  | amd64 => ["rbx", "rbp", "r12", "r13", "r14", "r15"]
  | arm32 => ["r4", "r5", "r6", "r7", "r8", "r9", "r10", "r11"]
  | arm64 | arm64_32 =>
    ["x19", "x20", "x21", "x22", "x23", "x24", "x25", "x26", "x27", "x28", "fp"]
  | mips32 | mips64 => ["s0", "s1", "s2", "s3", "s4", "s5", "s6", "s7", "gp", "fp"]
  | _ => []

/-- The name in a thread context of a register that an unwind rule names. -/
def contextName (family : Family) (name : String) : String :=
  let name := match name.toList with
    | '$' :: rest => String.ofList rest
    | _ => name
  match family, name with
  | arm64, "x29" | arm64_32, "x29" => "fp"
  | arm64, "x30" | arm64_32, "x30" => "lr"
  | arm32, "r13" => "sp"
  | arm32, "r14" => "lr"
  | arm32, "r15" => "pc"
  | mips32, "s8" | mips64, "s8" => "fp"
  | _, name => name

def ruleNames (family : Family) (name : String) : List String :=
  let extra := match family, name with
    | arm64, "fp" | arm64_32, "fp" => ["x29"]
    | arm64, "lr" | arm64_32, "lr" => ["x30"]
    | arm32, "sp" => ["r13"]
    | arm32, "lr" => ["r14"]
    | arm32, "pc" => ["r15"]
    | mips32, "fp" | mips64, "fp" => ["$s8"]
    | _, _ => []
  name :: ("$" ++ name) :: extra

def registerNames : Family → Array String
  | intel32 => intel32Registers
  | amd64 => amd64Registers
  | arm64 | arm64_32 => arm64Registers
  | arm32 => arm32Registers
  | mips32 | mips64 => mipsRegisters
  | _ => #[]

def ruleName? (family : Family) (number : UInt16) : Option String :=
  (family.registerNames[number.toNat]?).filter (!·.isEmpty)

end Family

end Postmortem.Cpu
