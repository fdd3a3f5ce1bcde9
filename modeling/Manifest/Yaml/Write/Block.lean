import Manifest.Json
import Manifest.Yaml.Write.Scalar

/-! # Writing values as YAML

Arrays and objects are written in block style: fields on lines of their own, two columns deeper than
the object around them; the dashes of an array stand in the column of the field that holds it. Empty
arrays and objects are written in flow style. Keys are words that can be written plain. -/

namespace Manifest.Yaml.Write

mutual

/-- What stands behind the colon of a field whose key stands in column `indent`. -/
def fieldValue (indent : Nat) : Json → List Char
  | .null => " null\n".toList
  | .bool true => " true\n".toList
  | .bool false => " false\n".toList
  | .nat n => ' ' :: ((toString n).toList ++ ['\n'])
  | .number text => ' ' :: (text.toList ++ ['\n'])
  | .string s => ' ' :: scalarLine (indent + 2) s
  | .array [] => " []\n".toList
  | .array (item :: items) => '\n' :: itemLines indent (item :: items)
  | .object [] => " {}\n".toList
  | .object (field :: fields) =>
    '\n' :: (spaces (indent + 2) ++ fieldLines (indent + 2) (field :: fields))

/-- The items of an array whose dashes stand in column `indent`. -/
def itemLines (indent : Nat) : List Json → List Char
  | [] => []
  | item :: items => spaces indent ++ '-' :: (itemValue indent item ++ itemLines indent items)

/-- What stands behind a dash in column `indent`. -/
def itemValue (indent : Nat) : Json → List Char
  | .object (field :: fields) => ' ' :: fieldLines (indent + 2) (field :: fields)
  | .null => " null\n".toList
  | .bool true => " true\n".toList
  | .bool false => " false\n".toList
  | .nat n => ' ' :: ((toString n).toList ++ ['\n'])
  | .number text => ' ' :: (text.toList ++ ['\n'])
  | .string s => ' ' :: scalarLine (indent + 2) s
  | .array [] => " []\n".toList
  | .array (item :: items) =>
    " -".toList ++ itemValue (indent + 2) item ++ itemLines (indent + 2) items
  | .object [] => " {}\n".toList

/-- The fields of an object in column `indent`, the first one from behind its indentation. -/
def fieldLines (indent : Nat) : List (String × Json) → List Char
  | [] => []
  | [(key, value)] => key.toList ++ ':' :: fieldValue indent value
  | (key, value) :: field :: fields =>
    key.toList ++ ':'
      :: (fieldValue indent value ++ spaces indent ++ fieldLines indent (field :: fields))

end

/-- A document that holds a value. -/
def document (j : Json) : String :=
  match j with
  | .object (field :: fields) => String.ofList (fieldLines 0 (field :: fields))
  | .array (item :: items) => String.ofList (itemLines 0 (item :: items))
  | other => String.ofList ((fieldValue 0 other).drop 1)

end Manifest.Yaml.Write
