import Postmortem.Cpu.Arch
import Postmortem.Text.Inspect
import Postmortem.Text.WordChar

/-!
# System information

The operating system and processor that a process ran on.  Where no version is known, it is read
from the build text of a Linux kernel, which looks like `Linux 5.10.0 #1 SMP x86_64 GNU/Linux`.
-/

set_option autoImplicit false

namespace Postmortem.Crash

structure SystemInfo where
  osName : String := ""
  osVersion : String := ""
  osBuild : String := ""
  cpuFamily : String := ""
  cpuInfo : String := ""
  cpuCount : UInt32 := 0
  deriving DecidableEq, Repr, Inhabited

namespace SystemInfo

def familyName : Cpu.Family → String
  | .intel32 => "x86"
  | .amd64 => "amd64"
  | .arm32 => "arm"
  | .arm64 => "arm64"
  | .arm64_32 => "arm64_32"
  | .ppc32 => "ppc"
  | .ppc64 => "ppc64"
  | .mips32 => "mips"
  | .mips64 => "mips64"
  | .unknown => ""

def ofArch (arch : Arch) : SystemInfo :=
  { osVersion := "0.0.0", cpuFamily := familyName arch.family, cpuCount := 1 }

def withOs (s : SystemInfo) (name version build : String) : SystemInfo :=
  { s with osName := name, osVersion := version, osBuild := build }

def withCpu (s : SystemInfo) (info : String) (count : UInt32) : SystemInfo :=
  { s with cpuInfo := info, cpuCount := count }

/-- The text after another one at the front. -/
def after? : (front text : List Char) → Option (List Char)
  | [], text => some text
  | _ :: _, [] => none
  | c :: front, d :: text => if c = d then after? front text else none

def splitLastSpace? (cs : List Char) : Option (List Char × List Char) :=
  match cs.reverse.dropWhile (· ≠ ' ') with
  | [] => none
  | _ :: front => some (front.reverse, (cs.reverse.takeWhile (· ≠ ' ')).reverse)

def beforeWord? (cs : List Char) : Option (List Char) := do
  let (front, word) ← splitLastSpace? cs
  if !word.isEmpty && word.all Text.isWordChar then some front else none

/-- The text without `GNU/Linux` at its end, if it is there. -/
def dropVendor (cs : List Char) : List Char :=
  match splitLastSpace? cs with
  | some (front, last) => if last = "GNU/Linux".toList then front else cs
  | none => cs

/-- The version and build in the build text of a Linux kernel: after `Linux` come the version up to
the next space, the build in one line, the name of the machine, and perhaps `GNU/Linux`. -/
def linuxParts? (text : List Char) : Option (List Char × List Char) := do
  let text ← after? "Linux ".toList text
  let version := text.takeWhile (· ≠ ' ')
  let rest ← after? [' '] (text.dropWhile (· ≠ ' '))
  let build ← beforeWord? (dropVendor rest)
  if version.isEmpty || build.contains '\n' then none else some (version, build)

def osParts (s : SystemInfo) : String × String :=
  let version := if s.osVersion.isEmpty then "0.0.0" else s.osVersion
  if version = "0.0.0" then
    match linuxParts? s.osBuild.toList with
    | some (v, b) => (String.ofList v, String.ofList b)
    | none => (version, s.osBuild)
  else (version, s.osBuild)

def arch (s : SystemInfo) : Arch := (Arch.parse? s.cpuFamily).getD .unknown

def inspect (s : SystemInfo) : Text.Inspect :=
  let (version, build) := s.osParts
  .record "SystemInfo"
    [("os_name", .quoted s.osName), ("os_version", .quoted version), ("os_build", .quoted build),
      ("cpu_family", .quoted s.cpuFamily), ("cpu_info", .quoted s.cpuInfo),
      ("cpu_count", .nat s.cpuCount.toNat)]

end SystemInfo

end Postmortem.Crash
