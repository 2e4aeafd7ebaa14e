/-!
# Quoted text

Inside a container a string is written between double quotes, and the five characters that would
end it, start an escape or break the line are escaped. All other characters stand for themselves,
control characters included.
-/

namespace ScriptMachine.Quoted

/-- One character inside quotes. -/
def escape : Char → List Char
  | '"' => ['\\', '"']
  | '\\' => ['\\', '\\']
  | '\n' => ['\\', 'n']
  | '\t' => ['\\', 't']
  | '\r' => ['\\', 'r']
  | c => [c]

/-- A text in quotes. -/
def encode (text : List Char) : List Char :=
  '"' :: (text.flatMap escape ++ ['"'])

example : encode "a\"b\n".toList = "\"a\\\"b\\n\"".toList := by decide

end ScriptMachine.Quoted
