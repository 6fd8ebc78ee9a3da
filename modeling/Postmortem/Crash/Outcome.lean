import Postmortem.FaultClass

/-!
# Outcomes

How the processing of a captured process may end.
-/

set_option autoImplicit false

namespace Postmortem.Crash

inductive Outcome where
  | ok
  /-- There was nothing to process. -/
  | notFound
  | noHeader
  | noThreadList
  | invalidThreadIndex
  | invalidThreadId
  /-- Several threads are the one that crashed. -/
  | duplicateThreads
  | interrupted
  deriving DecidableEq, Repr, Inhabited

namespace Outcome

def all : List Outcome :=
  [ok, notFound, noHeader, noThreadList, invalidThreadIndex, invalidThreadId, duplicateThreads,
    interrupted]

def rank (o : Outcome) : Nat := all.idxOf o

def name : Outcome → String
  | ok => "Ok"
  | notFound => "MinidumpNotFound"
  | noHeader => "NoMinidumpHeader"
  | noThreadList => "NoThreadList"
  | invalidThreadIndex => "InvalidThreadIndex"
  | invalidThreadId => "InvalidThreadId"
  | duplicateThreads => "DuplicateRequestingThreads"
  | interrupted => "SymbolSupplierInterrupted"

def parse? (s : String) : Option Outcome := all.find? (·.name == s)

def describe : Outcome → String
  | ok => "dump processed successfully"
  | notFound => "file could not be opened"
  | noHeader => "minidump header missing"
  | noThreadList => "minidump has no thread list"
  | invalidThreadIndex => "could not get thread data"
  | invalidThreadId => "could not get a thread by id"
  | duplicateThreads => "multiple requesting threads"
  | interrupted => "processing was interrupted (not fatal)"

/-- Whether there is a state of the process that can be used. -/
def isUsable : Outcome → Bool
  | ok | noThreadList => true
  | _ => false

def message (o : Outcome) : String := "minidump processing failed: " ++ o.describe

def faultClass (_ : Outcome) : FaultClass := .corruptedSnapshot

end Outcome

end Postmortem.Crash
