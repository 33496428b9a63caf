import Treewalk.Text.Shapeless

/-!
# Quoted text

**A quoted text shows every character that could be mistaken.**  Quotes, backslashes and the
common control characters get a letter after a backslash, other characters without a shape
their code point in hexadecimal.  Everything that can be seen stands for itself.

Two formats quote: names and paths in texts that are read by people, and data dumps.  They
differ in how they write code points, so each has its own function here.
-/

namespace Treewalk.Text.Quoted

/-- The lower-case hexadecimal digits of a number. -/
def hex (n : Nat) : List Char :=
  Nat.toDigits 16 n

/-! ### Names -/

/-- One character inside a quoted name.  The single quote stands for itself. -/
def nameChar (c : Char) : List Char :=
  match c with
  | '\x00' => ['\\', '0']
  | '\t' => ['\\', 't']
  | '\r' => ['\\', 'r']
  | '\n' => ['\\', 'n']
  | '"' => ['\\', '"']
  | '\\' => ['\\', '\\']
  | c =>
    if Shapeless.isShapeless c then '\\' :: 'u' :: '{' :: (hex c.toNat ++ ['}']) else [c]

/-- A name or path in double quotes. -/
def name (text : String) : String :=
  .ofList ('"' :: (text.toList.flatMap nameChar ++ ['"']))

/-- A list of quoted names in brackets. -/
def names (texts : List String) : String :=
  "[" ++ ", ".intercalate (texts.map name) ++ "]"

/-! ### Data dumps -/

/-- One character inside a quoted text of a data dump: only what the format forbids is
    replaced. -/
def dataChar (c : Char) : List Char :=
  match c with
  | '"' => ['\\', '"']
  | '\\' => ['\\', '\\']
  | '\x08' => ['\\', 'b']
  | '\x0c' => ['\\', 'f']
  | '\n' => ['\\', 'n']
  | '\r' => ['\\', 'r']
  | '\t' => ['\\', 't']
  | c =>
    if c.toNat < 0x20 then
      let digits := hex c.toNat
      '\\' :: 'u' :: (List.replicate (4 - digits.length) '0' ++ digits)
    else
      [c]

/-- A text of a data dump in double quotes. -/
def data (text : String) : String :=
  .ofList ('"' :: (text.toList.flatMap dataChar ++ ['"']))

end Treewalk.Text.Quoted
