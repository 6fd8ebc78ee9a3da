import Postmortem.Crash.Frame
import Postmortem.Minidump.System

/-!
# Thread contexts

The registers of a thread as a dump holds them.  Each architecture has a layout of its own, and a
word of flags that names the architecture.
-/

set_option autoImplicit false

namespace Postmortem.Minidump

structure RegisterField where
  name : String
  offset : Nat
  width : Nat
  deriving DecidableEq, Repr

structure ContextLayout where
  size : Nat
  /-- The bits that name the architecture. -/
  tag : Nat
  flagsOffset : Nat := 0
  flagsWidth : Nat := 4
  fields : List RegisterField
  deriving DecidableEq, Repr

namespace ContextLayout

/-- Registers that lie one behind the other; a place without name is skipped. -/
def run (offset width : Nat) (names : List String) : List RegisterField :=
  (names.zipIdx.map fun (name, i) => ⟨name, offset + i * width, width⟩).filter (·.name ≠ "")

def numbered (letter : String) (count : Nat) : List String :=
  (List.range count).map fun i => letter ++ Text.decimal i

def x86 : ContextLayout where
  size := 716
  tag := 0x10000
  fields := run 156 4
    ["edi", "esi", "ebx", "edx", "ecx", "eax", "ebp", "eip", "", "eflags", "esp"]

def amd64 : ContextLayout where
  size := 1232
  tag := 0x100000
  flagsOffset := 48
  fields := run 120 8
    ["rax", "rcx", "rdx", "rbx", "rsp", "rbp", "rsi", "rdi", "r8", "r9", "r10", "r11", "r12",
      "r13", "r14", "r15", "rip"]

def arm : ContextLayout where
  size := 368
  tag := 0x40000000
  fields := run 4 4 (numbered "r" 13 ++ ["sp", "lr", "pc"])

def arm64Registers : List String := numbered "x" 29 ++ ["fp", "lr", "sp", "pc"]

def arm64 : ContextLayout where
  size := 912
  tag := 0x400000
  fields := run 8 8 arm64Registers

def arm64Old : ContextLayout where
  size := 796
  tag := 0x80000000
  flagsWidth := 8
  fields := run 8 8 arm64Registers

def mips : ContextLayout where
  size := 600
  tag := 0x40000
  fields := run (8 + 16 * 8) 8 (numbered "s" 8) ++ run (8 + 28 * 8) 8 ["gp", "sp", "fp", "ra"] ++
    [⟨"pc", 312, 8⟩]

def ppc : ContextLayout where
  size := 1004
  tag := 0x20000000
  fields := run 4 4
    (["srr0", "srr1"] ++ numbered "r" 32 ++ ["cr", "xer", "lr", "ctr", "mq", "vrsave"])

def ppc64 : ContextLayout where
  size := 1160
  tag := 0x1000000
  flagsWidth := 8
  fields := run 8 8 (["srr0", "srr1"] ++ numbered "r" 32 ++ ["cr", "xer", "lr", "ctr", "vrsave"])

def of? : Processor → Option ContextLayout
  | .x86 => some x86
  | .amd64 => some amd64
  | .arm => some arm
  | .arm64 => some arm64
  | .arm64Old => some arm64Old
  | .mips => some mips
  | .ppc => some ppc
  | .ppc64 => some ppc64
  | .mips64 | .sparc | .unknown => none

def tagBits : Nat :=
  [0x80000, 0x20000, 0x100000, 0x40000000, 0x400000, 0x80000000, 0x40000, 0x20000000, 0x1000000,
    0x10000000, 0x10000].foldl (· ||| ·) 0

def read? (l : ContextLayout) (v : View) : Option Crash.RegisterFile := do
  let v ← v.part? ⟨l.size, 0⟩
  let flags ← v.number? l.flagsWidth l.flagsOffset
  if flags &&& tagBits ≠ l.tag then none
  let values ← l.fields.mapM fun f => (v.number? f.width f.offset).map fun n =>
    (f.name, UInt64.ofNat n)
  return .ofList values

end ContextLayout

def context? (file : View) (s : System) (l : Location) : Option Crash.RegisterFile := do
  let layout ← ContextLayout.of? s.processor
  layout.read? (← file.part? l)

end Postmortem.Minidump
