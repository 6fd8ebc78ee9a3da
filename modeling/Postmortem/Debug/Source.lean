import Postmortem.Path
import Postmortem.Text.Inspect
import Postmortem.Text.Utf8

/-!
# Source files and lines

Where code comes from: files by name and directory, as bytes in no certain encoding, and line
records that say which line of which file some code was made from.
-/

set_option autoImplicit false

namespace Postmortem.Debug

/-- A file by its name and its directory, which is usually relative to a compilation directory. -/
structure FileInfo where
  name : Bytes := []
  dir : Bytes := []
  deriving DecidableEq, Repr, Inhabited

namespace FileInfo

def nameText (f : FileInfo) : String := Utf8.lossy f.name

def dirText (f : FileInfo) : String := Utf8.lossy f.dir

def path (f : FileInfo) : String := Path.join f.dirText f.nameText

def inspect (f : FileInfo) : Text.Inspect :=
  .record "FileInfo" [("name", .quoted f.nameText), ("dir", .quoted f.dirText)]

end FileInfo

structure FileEntry where
  compDir : Bytes := []
  info : FileInfo
  deriving DecidableEq, Repr, Inhabited

namespace FileEntry

def compDirText (f : FileEntry) : String := Utf8.lossy f.compDir

def absolutePath (f : FileEntry) : String :=
  Path.join (Path.join f.compDirText f.info.dirText) f.info.nameText

def inspect (f : FileEntry) : Text.Inspect :=
  .record "FileEntry"
    [("compilation_dir", .quoted f.compDirText), ("name", .quoted f.info.nameText),
      ("dir", .quoted f.info.dirText)]

end FileEntry

structure LineInfo where
  address : UInt64
  /-- The size of the code, if it is known. -/
  size : Option UInt64 := none
  file : FileInfo := {}
  /-- The line number from 1 on, or zero for none. -/
  line : UInt64 := 0
  deriving DecidableEq, Repr, Inhabited

def LineInfo.inspect (l : LineInfo) : Text.Inspect :=
  .record "LineInfo"
    [("address", .address l.address),
      ("size", match l.size with
        | some size => .address size
        | none => .plain "None"),
      ("file", l.file.inspect), ("line", .nat l.line.toNat)]

end Postmortem.Debug
