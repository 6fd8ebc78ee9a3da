import Postmortem.Cpu.Family

/-!
# Architectures

The variants of each CPU family.  A variant has a name and a number that caches store; reading
accepts some other spellings of a name too, in any letter case.
-/

set_option autoImplicit false

namespace Postmortem

/-- A CPU architecture.  The variants with `Unknown` in their name stand for an unrecognised member
of their family. -/
inductive Arch where
  | unknown
  | x86
  | x86Unknown
  | amd64
  | amd64h
  | amd64Unknown
  | arm
  | armV5
  | armV6
  | armV6m
  | armV7
  | armV7f
  | armV7s
  | armV7k
  | armV7m
  | armV7em
  | armUnknown
  | arm64
  | arm64V8
  | arm64e
  | arm64Unknown
  | ppc
  | ppc64
  | mips
  | mips64
  | arm64_32
  | arm64_32V8
  | arm64_32Unknown
  deriving DecidableEq, Repr, Inhabited

namespace Arch

def all : List Arch :=
  [.unknown, .x86, .x86Unknown, .amd64, .amd64h, .amd64Unknown, .arm, .armV5, .armV6,
    .armV6m, .armV7, .armV7f, .armV7s, .armV7k, .armV7m, .armV7em, .armUnknown, .arm64,
    .arm64V8, .arm64e, .arm64Unknown, .ppc, .ppc64, .mips, .mips64, .arm64_32, .arm64_32V8,
    .arm64_32Unknown]

def code : Arch → UInt32
  | unknown => 0
  | x86 => 101
  | x86Unknown => 199
  | amd64 => 201
  | amd64h => 202
  | amd64Unknown => 299
  | arm => 301
  | armV5 => 302
  | armV6 => 303
  | armV6m => 304
  | armV7 => 305
  | armV7f => 306
  | armV7s => 307
  | armV7k => 308
  | armV7m => 309
  | armV7em => 310
  | armUnknown => 399
  | arm64 => 401
  | arm64V8 => 402
  | arm64e => 403
  | arm64Unknown => 499
  | ppc => 501
  | ppc64 => 601
  | mips => 701
  | mips64 => 801
  | arm64_32 => 901
  | arm64_32V8 => 902
  | arm64_32Unknown => 999

def ofCode (n : UInt32) : Arch := (all.find? (·.code == n)).getD unknown

def name : Arch → String
  | unknown => "unknown"
  | x86 => "x86"
  | x86Unknown => "x86_unknown"
  | amd64 => "x86_64"
  | amd64h => "x86_64h"
  | amd64Unknown => "x86_64_unknown"
  | arm => "arm"
  | armV5 => "armv5"
  | armV6 => "armv6"
  | armV6m => "armv6m"
  | armV7 => "armv7"
  | armV7f => "armv7f"
  | armV7s => "armv7s"
  | armV7k => "armv7k"
  | armV7m => "armv7m"
  | armV7em => "armv7em"
  | armUnknown => "arm_unknown"
  | arm64 => "arm64"
  | arm64V8 => "arm64v8"
  | arm64e => "arm64e"
  | arm64Unknown => "arm64_unknown"
  | ppc => "ppc"
  | ppc64 => "ppc64"
  | mips => "mips"
  | mips64 => "mips64"
  | arm64_32 => "arm64_32"
  | arm64_32V8 => "arm64_32_v8"
  | arm64_32Unknown => "arm64_32_unknown"

def label : Arch → String
  | unknown => "Unknown"
  | x86 => "X86"
  | x86Unknown => "X86Unknown"
  | amd64 => "Amd64"
  | amd64h => "Amd64h"
  | amd64Unknown => "Amd64Unknown"
  | arm => "Arm"
  | armV5 => "ArmV5"
  | armV6 => "ArmV6"
  | armV6m => "ArmV6m"
  | armV7 => "ArmV7"
  | armV7f => "ArmV7f"
  | armV7s => "ArmV7s"
  | armV7k => "ArmV7k"
  | armV7m => "ArmV7m"
  | armV7em => "ArmV7em"
  | armUnknown => "ArmUnknown"
  | arm64 => "Arm64"
  | arm64V8 => "Arm64V8"
  | arm64e => "Arm64e"
  | arm64Unknown => "Arm64Unknown"
  | ppc => "Ppc"
  | ppc64 => "Ppc64"
  | mips => "Mips"
  | mips64 => "Mips64"
  | arm64_32 => "Arm64_32"
  | arm64_32V8 => "Arm64_32V8"
  | arm64_32Unknown => "Arm64_32Unknown"

def family : Arch → Cpu.Family
  | unknown => .unknown
  | x86 => .intel32
  | x86Unknown => .intel32
  | amd64 => .amd64
  | amd64h => .amd64
  | amd64Unknown => .amd64
  | arm => .arm32
  | armV5 => .arm32
  | armV6 => .arm32
  | armV6m => .arm32
  | armV7 => .arm32
  | armV7f => .arm32
  | armV7s => .arm32
  | armV7k => .arm32
  | armV7m => .arm32
  | armV7em => .arm32
  | armUnknown => .arm32
  | arm64 => .arm64
  | arm64V8 => .arm64
  | arm64e => .arm64
  | arm64Unknown => .arm64
  | ppc => .ppc32
  | ppc64 => .ppc64
  | mips => .mips32
  | mips64 => .mips64
  | arm64_32 => .arm64_32
  | arm64_32V8 => .arm64_32
  | arm64_32Unknown => .arm64_32

/-- Whether the exact variant is known, and not just its family. -/
def isExact : Arch → Bool
  | unknown | armUnknown | arm64Unknown | x86Unknown | amd64Unknown | arm64_32Unknown => false
  | _ => true

def aliases : List (String × Arch) :=
  [("i386", x86), ("amd64", amd64), ("x86-64", amd64), ("aarch64", arm64), ("arm-64", arm64)]

def parse? (s : String) : Option Arch :=
  let s := String.ofList (s.toList.map Char.toLower)
  match all.find? (·.name == s) with
  | some a => some a
  | none => aliases.lookup s

def unknownMessage : String := "unknown architecture"

end Arch

end Postmortem
