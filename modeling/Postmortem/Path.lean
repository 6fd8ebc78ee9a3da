/-!
# Paths

Joining a file path onto a directory when it is not known which system either comes from.  An
absolute path on the right replaces the directory; a backslash anywhere, a drive letter or a share
tells Windows from UNIX.
-/

set_option autoImplicit false

namespace Postmortem.Path

def isSeparator (c : Char) : Bool := c == '/' || c == '\\'

/-- Whether a path starts at a drive or a share. -/
def isDriveAbsolute : List Char → Bool
  | '\\' :: '\\' :: _ => true
  | '/' :: '/' :: _ => true
  | [d, ':'] => d.isAlpha
  | d :: ':' :: s :: _ => d.isAlpha && isSeparator s
  | _ => false

def isWindows (cs : List Char) : Bool := isDriveAbsolute cs || cs.contains '\\'

/-- Whether a name such as `<stdin>` stands for no file. -/
def isPseudo (cs : List Char) : Bool := cs.head? == some '<' && cs.getLast? == some '>'

def trimEnd (cs : List Char) : List Char := (cs.reverse.dropWhile isSeparator).reverse

def joinChars (base other : List Char) : List Char :=
  if isPseudo other then other
  else if base.isEmpty || other.head? == some '/' || isDriveAbsolute other then other
  else if other.isEmpty then base
  else if other.head? == some '\\' then
    if isDriveAbsolute base then base.take 2 ++ other else other
  else
    let separator := if isWindows base || isWindows other then '\\' else '/'
    trimEnd base ++ separator :: other.dropWhile isSeparator

/-- A path relative to a directory. -/
def join (base other : String) : String := String.ofList (joinChars base.toList other.toList)

end Postmortem.Path
