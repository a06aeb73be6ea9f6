import ErrorContracts.Text.Quoted

/-!
# Diagnostics

Diagnostics tell about the analysis, not about the analysed program, and never stop it.  A log keeps
the first occurrence of each record, in the order of emission.
-/

namespace ErrorContracts

inductive Severity where
  | error
  | warning
  | information
  | debug
  deriving DecidableEq

namespace Severity

def all : List Severity := [error, warning, information, debug]

def word : Severity → String
  | error => "error"
  | warning => "warning"
  | information => "information"
  | debug => "debug"

def read : String → Except Text.UnknownWord Severity :=
  Text.readWord "DiagnosticSeverity" all word

end Severity

/-- A program point: a function, and a block unless its name is empty. -/
structure Location where
  function : String := ""
  block : String := ""
  deriving DecidableEq

def Location.render (location : Location) : String :=
  if location.block.isEmpty then location.function
  else s!"{location.function}:{location.block}"

structure Diagnostic where
  severity : Severity
  tag : String
  message : String
  location : Option Location
  deriving DecidableEq

namespace Diagnostic

def render (d : Diagnostic) : String :=
  let place := match d.location with
    | some location => s!"{location.render}: "
    | none => ""
  s!"{place}{d.severity.word}: [{d.tag}] {d.message}"

def warning (location : Option Location) (tag message : String) : Diagnostic :=
  ⟨.warning, tag, message, location⟩

/-- Adds a record at the end of a log that does not have it yet. -/
def emit (d : Diagnostic) (log : List Diagnostic) : List Diagnostic :=
  if d ∈ log then log else log ++ [d]

theorem mem_emit {d e : Diagnostic} {log : List Diagnostic} :
    e ∈ emit d log ↔ e = d ∨ e ∈ log := by
  grind [emit]

theorem nodup_emit {d : Diagnostic} {log : List Diagnostic} (h : log.Nodup) :
    (emit d log).Nodup := by
  unfold emit
  split
  · exact h
  · rename_i fresh
    exact List.nodup_append.2 ⟨h, by simp, by grind⟩

/-- The records of severity warning, in order. -/
def warnings (log : List Diagnostic) : List Diagnostic :=
  log.filter fun d => d.severity = .warning

def describeLog (log : List Diagnostic) : String :=
  s!"Diagnostics({log.length} items)"

end Diagnostic

end ErrorContracts
