import Treewalk.Decimal.Layout
import Treewalk.Text.Quoted

/-!
# Data dumps

**A dump is an ordered tree, written on one line or indented by two spaces.**  Objects keep the
order of their fields.  Numbers are natural numbers or doubles; a double that is not finite is
written as `null`.
-/

namespace Treewalk

open Text

/-- A tree of data. -/
inductive Json where
  | null
  | bool (value : Bool)
  | nat (value : Nat)
  | number (value : Float)
  | string (value : String)
  | array (items : List Json)
  | object (fields : List (String × Json))
deriving Inhabited

namespace Json

/-- An object with one field. -/
def tagged (tag : String) (value : Json) : Json :=
  .object [(tag, value)]

/-- The value, or `null` where there is none. -/
def ofOption : Option Json → Json
  | some value => value
  | none => .null

/-- The text of a double in a dump. -/
def numberText (x : Float) : String :=
  (Decimal.dataText? x).getD "null"

/-! ### On one line -/

mutual

/-- The dump on one line. -/
def compact : Json → String
  | .null => "null"
  | .bool value => if value then "true" else "false"
  | .nat value => toString value
  | .number value => numberText value
  | .string value => Quoted.data value
  | .array items => "[" ++ compactItems items ++ "]"
  | .object fields => "\x7b" ++ compactFields fields ++ "\x7d"

/-- The items of an array, separated by commas. -/
def compactItems : List Json → String
  | [] => ""
  | [item] => compact item
  | item :: items => compact item ++ "," ++ compactItems items

/-- The fields of an object, separated by commas. -/
def compactFields : List (String × Json) → String
  | [] => ""
  | [(name, value)] => Quoted.data name ++ ":" ++ compact value
  | (name, value) :: fields =>
    Quoted.data name ++ ":" ++ compact value ++ "," ++ compactFields fields

end

/-! ### Indented -/

/-- A line break and the indentation of `depth` levels. -/
def newline (depth : Nat) : String :=
  .ofList ('\n' :: List.replicate (2 * depth) ' ')

mutual

/-- The dump with one item or field on a line; the closing bracket stands at `depth`. -/
def prettyAt (depth : Nat) : Json → String
  | .null => "null"
  | .bool value => if value then "true" else "false"
  | .nat value => toString value
  | .number value => numberText value
  | .string value => Quoted.data value
  | .array [] => "[]"
  | .array (item :: items) =>
    "[" ++ prettyItems (depth + 1) (item :: items) ++ newline depth ++ "]"
  | .object [] => "\x7b\x7d"
  | .object (field :: fields) =>
    "\x7b" ++ prettyFields (depth + 1) (field :: fields) ++ newline depth ++ "\x7d"

/-- The items of an array, each on lines of its own. -/
def prettyItems (depth : Nat) : List Json → String
  | [] => ""
  | [item] => newline depth ++ prettyAt depth item
  | item :: items => newline depth ++ prettyAt depth item ++ "," ++ prettyItems depth items

/-- The fields of an object, each on lines of its own. -/
def prettyFields (depth : Nat) : List (String × Json) → String
  | [] => ""
  | [(name, value)] => newline depth ++ Quoted.data name ++ ": " ++ prettyAt depth value
  | (name, value) :: fields =>
    newline depth ++ Quoted.data name ++ ": " ++ prettyAt depth value ++ ","
      ++ prettyFields depth fields

end

/-- The dump indented by two spaces a level. -/
def pretty (value : Json) : String :=
  prettyAt 0 value

end Json

end Treewalk
