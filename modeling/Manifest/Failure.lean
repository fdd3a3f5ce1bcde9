/-! # Failures

What the program reports when it cannot go on: what it tried to do, and why that did not work, from
the nearest reason to the farthest. -/

namespace Manifest

/-- A message and the reasons behind it. -/
structure Failure where
  message : String
  causes : List String
deriving DecidableEq, Repr

namespace Failure

/-- The lines of a text. -/
def lines (s : String) : List String :=
  (s.toList.splitOnP (· == '\n')).map String.ofList

/-- A text behind a label; its lines but the first start with spaces in place of the label. -/
def hang (label : String) (s : String) : String :=
  label ++ ("\n" ++ String.ofList (List.replicate label.length ' ')).intercalate (lines s)

/-- A cause behind its number. -/
def numbered (cause : String) (number : Nat) : String :=
  let digits := toString number
  hang (String.ofList (List.replicate (5 - digits.length) ' ') ++ digits ++ ": ") cause

/-- The list of causes, numbered if there are several. -/
def causeList : List String → List String
  | [] => []
  | [cause] => ["", "Caused by:", hang "    " cause]
  | causes => "" :: "Caused by:" :: causes.zipIdx.map fun (cause, i) => numbered cause i

/-- The failure as the program reports it. -/
def report (f : Failure) : String :=
  "\n".intercalate (("Error: " ++ f.message) :: causeList f.causes)

/-- The message and the causes on one line. -/
def chain (f : Failure) : String := ": ".intercalate (f.message :: f.causes)

end Failure

end Manifest
