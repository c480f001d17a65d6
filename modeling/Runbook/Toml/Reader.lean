import Runbook.Toml.Scalar
import Runbook.Toml.Table

/-!
# Reading TOML

A text is a list of lines that set keys and open tables. The whole text is read or none of it.
-/

namespace Runbook.Toml

/-- The rest after a comment; the characters of a comment are those of strings. -/
def skipComment? (s : List Char) : Option (List Char) :=
  match s with
  | '#' :: rest =>
    let rest := rest.dropWhile isTextChar
    match rest with
    | [] => some []
    | rest => if (lineEnd? rest).isSome then some rest else none
  | s => some s

/-- Blanks, comments and line ends between the items of an array. -/
def skipFiller? : Nat → List Char → Option (List Char)
  | 0, s => some s
  | fuel + 1, s =>
    match skipBlank s with
    | '#' :: rest => do
      let rest ← skipComment? ('#' :: rest)
      skipFiller? fuel rest
    | s => match lineEnd? s with
      | some rest => skipFiller? fuel rest
      | none => some s

/-- The items of an array up to its closing bracket; a comma may follow the last one. -/
def readItems (item : List Char → Option (Document × List Char)) : Nat → List Char → Option (List Document × List Char)
  | 0, _ => none
  | fuel + 1, s => do
    match ← skipFiller? s.length s with
    | ']' :: rest => return ([], rest)
    | s =>
      let (d, rest) ← item s
      match ← skipFiller? rest.length rest with
      | ',' :: rest => do
        let (ds, rest) ← readItems item fuel rest
        return (d :: ds, rest)
      | ']' :: rest => return ([d], rest)
      | _ => none

/-- The keys of an inline table up to its closing brace, on one line, at least one. -/
def readPairs (item : List Char → Option (Document × List Char)) :
    Nat → Entries → List Char → Option (Entries × List Char)
  | 0, _, _ => none
  | fuel + 1, entries, s => do
    let (path, rest) ← readKey s.length s
    let rest ← expect? '=' rest
    let (d, rest) ← item (skipBlank rest)
    let entries ← setKey path d .header entries
    match skipBlank rest with
    | ',' :: rest => readPairs item fuel entries rest
    | '\x7d' :: rest => return (entries, rest)
    | _ => none

/-- The value at the start of a text, with at most `depth` containers inside each other. -/
def readValue (depth : Nat) (s : List Char) : Option (Document × List Char) :=
  match s with
  | '"' :: _ | '\'' :: _ => (readString s).map fun (t, rest) => (.str (String.ofList t), rest)
  | '[' :: rest => match depth with
    | 0 => none
    | depth + 1 => (readItems (readValue depth) rest.length rest).map fun (items, rest) => (.arr items true, rest)
  | '\x7b' :: rest => match depth with
    | 0 => none
    | depth + 1 => match skipBlank rest with
      | '\x7d' :: rest => some (.obj [] true, rest)
      | rest => (readPairs (readValue depth) rest.length [] rest).map fun (entries, rest) =>
        (.obj (documentsOf entries) true, rest)
  | s => readToken s

/-- The most containers inside each other that a value may have, and the most parts of a key. -/
def maxDepth : Nat := 79

/-- The rest after the end of a line, or nothing at the end of the text. -/
def finishLine? (s : List Char) : Option (List Char) := do
  match ← skipComment? (skipBlank s) with
  | [] => return []
  | rest => lineEnd? rest

/-- The path of a table header up to its closing brackets. -/
def readHeader (closing : List Char) (s : List Char) : Option (List String × List Char) := do
  let (path, rest) ← readKey s.length s
  if closing.isPrefixOf rest && path.length ≤ maxDepth then return (path, rest.drop closing.length) else none

/-- Reads lines into the table that the last header opened. The fuel bounds the lines left. -/
def readLines : Nat → List String → Entries → List Char → Option Entries
  | 0, _, _, _ => none
  | fuel + 1, current, root, s =>
    match skipBlank s with
    | [] => some root
    | '[' :: '[' :: rest => do
      let (path, rest) ← readHeader [']', ']'] rest
      let root ← openItem path root
      readLines fuel path root (← finishLine? rest)
    | '[' :: rest => do
      let (path, rest) ← readHeader [']'] rest
      let root ← openTable path root
      readLines fuel path root (← finishLine? rest)
    | '#' :: rest => do readLines fuel current root (← finishLine? ('#' :: rest))
    | s => match lineEnd? s with
      | some rest => readLines fuel current root rest
      | none => do
        let (path, rest) ← readKey s.length s
        if path.length > maxDepth then failure
        let rest ← expect? '=' rest
        let (d, rest) ← readValue maxDepth (skipBlank rest)
        let root ← change false (setKey path d) current .header root
        readLines fuel current root (← finishLine? rest)

/-- The table that a whole text spells. A byte order mark at its start is no part of it. -/
def read? (text : String) : Option Document :=
  let s := match text.toList with
    | '\uFEFF' :: rest => rest
    | s => s
  (readLines (s.length + 1) [] [] s).map fun root => .obj (documentsOf root) true

/-- A reader of texts in the format, which gives nothing for a text that is not in it. -/
class Reader where
  read? : String → Option Document

/-- What reads texts unless another reader is given. -/
instance : Reader := ⟨read?⟩

end Runbook.Toml
