import Treewalk.Text.Structured
import Treewalk.Value.Basic

/-!
# The text of a value

`text` is what programs print: strings as they are, objects with their keys in the order of the
slots, functions by name. `inspect` is the structured text, which tells types apart.
-/

namespace Treewalk

open Text (quoted list braced entry record applied)

mutual

/-- The text that programs print for a value. -/
def Value.text : Value → String
  | .number n => n.text
  | .bool b => Text.bool b
  | .null => "null"
  | .string s => s
  | .object _ ⟨⟨slots⟩, count⟩ =>
    if count = 0 then "\x7b\x7d"
    else "\x7b " ++ ", ".intercalate (slotTexts slots) ++ " \x7d"
  | .native f => "[Native Function " ++ f.name ++ "]"
  | .function f => "[Function " ++ f.name ++ "]"

/-- The keys of live slots with the texts of their values. -/
def slotTexts : List (Slot Binding) → List String
  | [] => []
  | .occupied key ⟨_, _, value⟩ :: rest => entry key value.text :: slotTexts rest
  | _ :: rest => slotTexts rest

end

/-- The structured text of a native function. -/
def NativeFunction.inspect (f : NativeFunction) : String := applied "NativeFunction" f.name

/-- The structured text of a function, which leaves out its scope. -/
def Closure.inspect (f : Closure) : String :=
  record "UserFunction"
    [entry "name" (quoted f.name), entry "params" (list (f.code.params.map quoted)), ".."]

mutual

/-- The structured text of a value. -/
def Value.inspect : Value → String
  | .number n => applied "Number" n.text
  | .bool b => applied "Bool" (Text.bool b)
  | .null => "Null"
  | .string s => applied "Str" (quoted s)
  | .object _ ⟨⟨slots⟩, _⟩ => applied "Object" (braced (slotInspections slots))
  | .native f => f.inspect
  | .function f => f.inspect

/-- The keys of live slots with the structured texts of their bindings. -/
def slotInspections : List (Slot Binding) → List String
  | [] => []
  | .occupied key ⟨name, isConst, value⟩ :: rest =>
    entry (quoted key)
        (record "Binding" [entry "name" (quoted name), entry "is_const" (Text.bool isConst),
          entry "value" value.inspect]) ::
      slotInspections rest
  | _ :: rest => slotInspections rest

end

/-- The structured text of a table of values. -/
def Table.inspect (t : Table Value) : String :=
  braced (t.entries.map fun (key, value) => entry (quoted key) value.inspect)

end Treewalk
