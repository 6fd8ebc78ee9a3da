import Postmortem.Crash.SystemInfo
import Postmortem.Minidump.Dump

/-!
# The system of a minidump

The processor and the operating system that a dump was written on.
-/

set_option autoImplicit false

namespace Postmortem.Minidump

/-- A processor architecture.  There are two layouts of thread contexts for ARM64. -/
inductive Processor where
  | x86
  | amd64
  | arm
  | arm64
  | arm64Old
  | mips
  | mips64
  | ppc
  | ppc64
  | sparc
  | unknown
  deriving DecidableEq, Repr, Inhabited

namespace Processor

def ofCode : Nat → Processor
  | 0 | 10 => x86
  | 9 => amd64
  | 5 => arm
  | 12 => arm64
  | 0x8003 => arm64Old
  | 1 => mips
  | 0x8004 => mips64
  | 3 => ppc
  | 0x8002 => ppc64
  | 0x8001 => sparc
  | _ => unknown

def arch : Processor → Arch
  | x86 => .x86
  | amd64 => .amd64
  | arm => .arm
  | arm64 | arm64Old => .arm64
  | mips => .mips
  | mips64 => .mips64
  | ppc => .ppc
  | ppc64 => .ppc64
  | sparc | unknown => .unknown

def isNarrow : Processor → Bool
  | x86 | arm | mips | ppc | sparc => true
  | _ => false

end Processor

inductive Platform where
  | windows
  | macOs
  | ios
  | linux
  | solaris
  | android
  | ps3
  | naCl
  | other (code : UInt32)
  deriving DecidableEq, Repr, Inhabited

namespace Platform

def ofCode (n : UInt32) : Platform :=
  match n.toNat with
  | 2 | 3 => windows
  | 0x8101 => macOs
  | 0x8102 => ios
  | 0x8201 => linux
  | 0x8202 => solaris
  | 0x8203 => android
  | 0x8204 => ps3
  | 0x8205 => naCl
  | _ => other n

def name : Platform → String
  | windows => "Windows NT"
  | macOs => "Mac OS X"
  | ios => "iOS"
  | linux => "Linux"
  | solaris => "Solaris"
  | android => "Android"
  | ps3 => "PS3"
  | naCl => "NaCl"
  | other n => "0x" ++ Text.hexPrefixedPadded 6 n.toNat

end Platform

structure System where
  processor : Processor
  platform : Platform
  level : Nat
  revision : Nat
  processorCount : UInt32
  version : Nat × Nat × Nat
  /-- The service pack, or nothing. -/
  servicePack : String
  /-- What the processor says of itself: six words. -/
  data : List Nat
  deriving DecidableEq, Repr, Inhabited

namespace System

def read? (file stream : View) : Option System := do
  let s ← stream.part? ⟨56, 0⟩
  let servicePackOffset ← s.number? 4 24
  return {
    processor := .ofCode (← s.number? 2 0)
    platform := .ofCode (← s.word32? 20)
    level := ← s.number? 2 2
    revision := ← s.number? 2 4
    processorCount := UInt32.ofNat (← s.number? 1 6)
    version := (← s.number? 4 8, ← s.number? 4 12, ← s.number? 4 16)
    servicePack := (file.text? servicePackOffset).getD ""
    data := ← (List.range 6).mapM fun i => s.number? 4 (32 + 4 * i) }

def intelModel (s : System) : String :=
  "family " ++ Text.decimal s.level ++ " model " ++ Text.decimal (s.revision / 256 % 256) ++
    " stepping " ++ Text.decimal (s.revision % 256)

def intelVendor (s : System) : String :=
  String.ofList ((s.data.take 3).flatMap fun w =>
    (Bytes.ofNatLE 4 w).map fun b => Char.ofNat b.toNat)

def armVendors : List (Nat × String) :=
  [(0x41, "ARM"), (0x51, "Qualcomm"), (0x56, "Marvell"), (0x69, "Intel/Marvell")]

def armParts : List (Nat × String) :=
  [(0x4100c050, "Cortex-A5"), (0x4100c080, "Cortex-A8"), (0x4100c090, "Cortex-A9"),
    (0x4100c0f0, "Cortex-A15"), (0x4100c140, "Cortex-R4"), (0x4100c150, "Cortex-R5"),
    (0x4100b360, "ARM1136"), (0x4100b560, "ARM1156"), (0x4100b760, "ARM1176"),
    (0x4100b020, "ARM11-MPCore"), (0x41009260, "ARM926"), (0x41009460, "ARM946"),
    (0x41009660, "ARM966"), (0x510006f0, "Krait"), (0x510000f0, "Scorpion")]

def armFeatures : List String :=
  ["swp", "half", "thumb", "26bit", "fastmult", "fpa", "vfpv2", "edsp", "java", "iwmmxt", "crunch",
    "thumbee", "neon", "vfpv3", "vfpv3d16", "tls", "vfpv4", "idiva", "idivt"]

/-- The bits of all known features, of which the highest three have no name. -/
def armFeatureBits : Nat := 0x3fffff

/-- The name of a code, or the kind of the code with its number. -/
def nameOr (kind : String) (names : List (Nat × String)) (code : Nat) : String :=
  (names.lookup code).getD (kind ++ "(" ++ Text.hexPrefixed code ++ ")")

/-- The vendor and the part that an identification word names, unless it is zero. -/
def armPart (id : Nat) : String :=
  if id = 0 then ""
  else
    " " ++ nameOr "vendor" armVendors (id / 0x1000000) ++
      " " ++ nameOr "part" armParts (id &&& 0xff00fff0)

def armFeatureText (bits : Nat) : String :=
  if bits &&& armFeatureBits = 0 then ""
  else
    let names := (armFeatures.zipIdx.filter fun f => bits.testBit f.2).map Prod.fst
    " features: " ++ ",".intercalate names

def armModel (s : System) : String :=
  "ARMv" ++ Text.decimal s.level ++ armPart (s.data.getD 0 0) ++ armFeatureText (s.data.getD 1 0)

def processorInfo (s : System) : String :=
  match s.processor with
  | .x86 => s.intelVendor ++ " " ++ s.intelModel
  | .amd64 => s.intelModel
  | .arm => s.armModel
  | _ => ""

def toSystemInfo (s : System) : Crash.SystemInfo :=
  let (major, minor, build) := s.version
  let version := Text.decimal major ++ "." ++ Text.decimal minor ++ "." ++ Text.decimal build
  ((Crash.SystemInfo.ofArch s.processor.arch).withOs s.platform.name version s.servicePack).withCpu
    s.processorInfo s.processorCount

end System

end Postmortem.Minidump
