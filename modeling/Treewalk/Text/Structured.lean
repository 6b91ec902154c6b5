/-!
# Structured text

Values and syntax trees have a structured text for people who inspect them: quoted strings, lists
in brackets, records and maps in braces. This module holds the pieces; the types that use them say
what their parts are.
-/

namespace Treewalk.Text

/-- A character of a quoted string. The quote, the backslash and characters without a glyph are
escaped. -/
def escaped (c : Char) : List Char :=
  match c with
  | '"' => ['\\', '"']
  | '\\' => ['\\', '\\']
  | '\n' => ['\\', 'n']
  | '\t' => ['\\', 't']
  | '\r' => ['\\', 'r']
  | '\x00' => ['\\', '0']
  | c =>
    if c.toNat < 0x20 ∨ 0x7f ≤ c.toNat ∧ c.toNat < 0xa0 then
      ['\\', 'u', '\x7b'] ++ Nat.toDigits 16 c.toNat ++ ['\x7d']
    else [c]

/-- A string between quotes. -/
def quoted (s : String) : String :=
  String.ofList ('"' :: s.toList.flatMap escaped ++ ['"'])

/-- Items between brackets. -/
def list (items : List String) : String := "[" ++ ", ".intercalate items ++ "]"

/-- Items between braces. -/
def braced (items : List String) : String := "\x7b" ++ ", ".intercalate items ++ "\x7d"

/-- A field or an entry: a name or key, then its content. -/
def entry (key content : String) : String := key ++ ": " ++ content

/-- A record with named fields. -/
def record (name : String) (fields : List String) : String :=
  name ++ " \x7b " ++ ", ".intercalate fields ++ " \x7d"

/-- A constructor applied to one argument. -/
def applied (name content : String) : String := name ++ "(" ++ content ++ ")"

/-- A part that may be missing. -/
def optional : Option String → String
  | none => "None"
  | some content => applied "Some" content

/-- A truth value. -/
def bool (b : Bool) : String := if b then "true" else "false"

end Treewalk.Text
