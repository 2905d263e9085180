import ScopedValues.Text.Invisible

/-!
Contract: the inspected form of a string.

Owns the quotes, the short escapes and the spelling of a character by its code
point.

Does not own the plain form of a string value, which escapes nothing.
-/

set_option autoImplicit false

namespace ScopedValues.Text

/-- The lower-case hexadecimal digits of a code point, with no padding. -/
def hexDigits (code : Nat) : List Char :=
  Nat.toDigits 16 code

/-- One character inside quotes. -/
def quoteChar (c : Char) : List Char :=
  match c with
  | '"' => ['\\', '"']
  | '\\' => ['\\', '\\']
  | '\n' => ['\\', 'n']
  | '\r' => ['\\', 'r']
  | '\t' => ['\\', 't']
  | _ =>
      if c.toNat = 0 then ['\\', '0']
      else if isInvisible c then ['\\', 'u', '\x7b'] ++ hexDigits c.toNat ++ ['\x7d']
      else [c]

/-- A string in double quotes, every character in a visible form. -/
def quoted (text : String) : String :=
  String.ofList ('"' :: text.toList.flatMap quoteChar ++ ['"'])

end ScopedValues.Text
