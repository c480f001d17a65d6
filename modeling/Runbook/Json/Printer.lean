import Runbook.Value.Basic

/-!
# Writing values as JSON

The compact form has no blanks; the wide form has a line for each item and field, indented by two spaces a level. Only quotes,
backslashes and control characters are escaped. Fields appear in the order of their keys.
-/

namespace Runbook.Json

def hexDigit (n : Nat) : Char := if n < 10 then Char.ofNat ('0'.toNat + n) else Char.ofNat ('a'.toNat + n - 10)

/-- A character as it is written inside quotes. -/
def escape (c : Char) : List Char :=
  match c with
  | '"' => ['\\', '"']
  | '\\' => ['\\', '\\']
  | '\n' => ['\\', 'n']
  | '\r' => ['\\', 'r']
  | '\t' => ['\\', 't']
  | c =>
    if c.toNat = 8 then ['\\', 'b']
    else if c.toNat = 12 then ['\\', 'f']
    else if c.toNat < 0x20 then ['\\', 'u', '0', '0', hexDigit (c.toNat / 16), hexDigit (c.toNat % 16)]
    else [c]

/-- A text in quotes. -/
def quote (s : String) : String := String.ofList ('"' :: s.toList.flatMap escape ++ ['"'])

mutual

/-- The compact text of a value. -/
def render : Value → String
  | .null => "null"
  | .bool true => "true"
  | .bool false => "false"
  | .num n => n.text
  | .str s => quote s
  | .arr items => "[" ++ ",".intercalate (renderItems items) ++ "]"
  | .obj fields => "\x7b" ++ ",".intercalate (renderFields fields) ++ "\x7d"

def renderItems : List Value → List String
  | [] => []
  | v :: vs => render v :: renderItems vs

def renderFields : List (String × Value) → List String
  | [] => []
  | (k, v) :: fs => (quote k ++ ":" ++ render v) :: renderFields fs

end

/-- Lines between two brackets, the lines indented one level deeper than the closing bracket. -/
def block (opening closing : String) (level : Nat) (lines : List String) : String :=
  if lines.isEmpty then opening ++ closing
  else
    let indent (n : Nat) : String := "\n" ++ "".pushn ' ' (2 * n)
    opening ++ indent (level + 1) ++ (("," ++ indent (level + 1)).intercalate lines) ++ indent level ++ closing

mutual

/-- The wide text of a value whose first line stands at a level of indentation. -/
def renderWide (level : Nat) : Value → String
  | .arr items => block "[" "]" level (renderWideItems (level + 1) items)
  | .obj fields => block "\x7b" "\x7d" level (renderWideFields (level + 1) fields)
  | .null => "null"
  | .bool b => render (.bool b)
  | .num n => n.text
  | .str s => quote s

def renderWideItems (level : Nat) : List Value → List String
  | [] => []
  | v :: vs => renderWide level v :: renderWideItems level vs

def renderWideFields (level : Nat) : List (String × Value) → List String
  | [] => []
  | (k, v) :: fs => (quote k ++ ": " ++ renderWide level v) :: renderWideFields level fs

end

end Runbook.Json
