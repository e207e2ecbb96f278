import RigLowering.Pin

namespace RigLowering

inductive Severity
  | note
  | warning
  | error
  deriving DecidableEq, Repr

namespace Severity

def label : Severity → String
  | .note => "note"
  | .warning => "warning"
  | .error => "error"

end Severity

structure Diagnostic where
  severity : Severity
  node : Option NodeId
  message : String
  deriving DecidableEq, Repr

namespace Diagnostic

def display (diagnostic : Diagnostic) : String :=
  match diagnostic.node with
  | some node => s!"{diagnostic.severity.label} [{node}]: {diagnostic.message}"
  | none => s!"{diagnostic.severity.label}: {diagnostic.message}"

end Diagnostic

structure MessageLog where
  entries : List Diagnostic
  deriving DecidableEq, Repr

namespace MessageLog

def empty : MessageLog := ⟨[]⟩

def push (log : MessageLog) (diagnostic : Diagnostic) : MessageLog :=
  ⟨log.entries ++ [diagnostic]⟩

def errorCount (log : MessageLog) : Nat :=
  log.entries.countP (·.severity = .error)

def hasErrors (log : MessageLog) : Bool :=
  0 < log.errorCount

def forNode (log : MessageLog) (node : NodeId) : List Diagnostic :=
  log.entries.filter (·.node = some node)

def size (log : MessageLog) : Nat :=
  log.entries.length

@[simp] theorem size_push (log : MessageLog) (diagnostic : Diagnostic) :
    (log.push diagnostic).size = log.size + 1 := by
  simp [size, push]

end MessageLog

end RigLowering
