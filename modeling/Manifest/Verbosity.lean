/-! # Verbosity

How much the program logs: the configured level, or one that the number of flags asks for. -/

namespace Manifest

/-- The log level for a number of verbosity flags; without any the configured one. -/
def logLevel (flags : Nat) (configured : String) : String :=
  match flags with
  | 0 => configured
  | 1 => "info"
  | 2 => "debug"
  | _ => "trace"

end Manifest
