import ErrorContracts.Inference.Features

/-!
# About this library
-/

namespace ErrorContracts

def version : String := "0.1.0"

/-- The parts of the library, by name. -/
def parts : List String :=
  ["annotations", "classifier", "config", "ctrlflow", "diagnostics", "engine", "errors", "formula",
    "ir", "merge", "oracle", "summaries"]

inductive LogLevel where
  | warning
  | info
  | debug
  deriving DecidableEq

namespace LogLevel

/-- The level that a verbosity asks for. -/
def ofVerbosity (verbosity : Int) : LogLevel :=
  if verbosity ≤ 0 then warning else if verbosity = 1 then info else debug

def word : LogLevel → String
  | warning => "WARNING"
  | info => "INFO"
  | debug => "DEBUG"

end LogLevel

end ErrorContracts
