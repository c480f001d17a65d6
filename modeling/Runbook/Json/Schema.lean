import Runbook.Json.Document
import Runbook.Json.Printer
import Runbook.Text.Quoted

/-!
# Records read from documents

A record is written as an object, or as an array of its fields in their declared order. Fields are read in the order of the
document, so the first fault met there is the one reported; absent fields are looked for afterwards.
-/

namespace Runbook

/-- What a document is called where something else was expected. -/
def Document.describe : Document → String
  | .broken => "nothing"
  | .null => "null"
  | .bool b => s!"boolean \x60{Json.render (.bool b)}\x60"
  | .num (.int i) => s!"integer \x60{(Number.int i).text}\x60"
  | .num (.float x) => s!"floating point \x60{(Number.float x).text}\x60"
  | .nonFinite => "floating point"
  | .str s => s!"string {Text.quoted s}"
  | .arr _ _ => "sequence"
  | .obj _ _ => "map"

/-- Why a document is no record of a kind. -/
inductive DecodeError where
  | malformed
  | wrongType (found : String) (expected : String)
  | wrongValue (found : String) (expected : String)
  | unknownField (name : String) (known : List String)
  | unknownVariant (name : String) (known : List String)
  | missingField (name : String)
  | duplicateField (name : String)
  | wrongLength (found : Nat) (expected : String)
  deriving DecidableEq, Repr

namespace DecodeError

/-- Names in a message: one alone, two joined by `or`, more after `one of`. -/
def alternatives (names : List String) : String :=
  match names.map fun n => "\x60" ++ n ++ "\x60" with
  | [] => "there are none"
  | [a] => a
  | [a, b] => s!"{a} or {b}"
  | names => "one of " ++ ", ".intercalate names

def message : DecodeError → String
  | malformed => "malformed text"
  | wrongType found expected => s!"invalid type: {found}, expected {expected}"
  | wrongValue found expected => s!"invalid value: {found}, expected {expected}"
  | unknownField name known => s!"unknown field \x60{name}\x60, expected {alternatives known}"
  | unknownVariant name known => s!"unknown variant \x60{name}\x60, expected {alternatives known}"
  | missingField name => s!"missing field \x60{name}\x60"
  | duplicateField name => s!"duplicate field \x60{name}\x60"
  | wrongLength found expected => s!"invalid length {found}, expected {expected}"

end DecodeError

/-- Reads a document. -/
abbrev Decoder (α : Type) := Document → Except DecodeError α

namespace Decoder

/-- A document of another kind than expected. -/
def mismatch (expected : String) (d : Document) : Except DecodeError α :=
  match d with
  | .broken => .error .malformed
  | d => .error (.wrongType d.describe expected)

def string : Decoder String
  | .str s => .ok s
  | d => mismatch "a string" d

def bool : Decoder Bool
  | .bool b => .ok b
  | d => mismatch "a boolean" d

/-- A natural number below `bound`, which is called `name`. -/
def natBelow (bound : Nat) (name : String) : Decoder Nat
  | .num (.int i) =>
    if 0 ≤ i && i < bound then .ok i.toNat
    else .error (.wrongValue (Document.describe (.num (.int i))) name)
  | d => mismatch name d

def u64 : Decoder Nat := natBelow (2 ^ 64) "u64"
def u32 : Decoder Nat := natBelow (2 ^ 32) "u32"
def usize : Decoder Nat := natBelow (2 ^ 64) "usize"

/-- Any well-formed value. -/
def value : Decoder Value := fun d =>
  match d.value? with
  | some v => .ok v
  | none => .error .malformed

/-- Null stands for an absent value. -/
def option (item : Decoder α) : Decoder (Option α)
  | .null => .ok none
  | d => some <$> item d

/-- Null, which holds nothing. -/
def unit : Decoder Unit
  | .null => .ok ()
  | d => mismatch "unit" d

/-- An array or a table without content, which stands for nothing in formats that have no null. -/
def vacant : Decoder Unit
  | .arr [] true | .obj [] true => .ok ()
  | d => mismatch "an empty table" d

/-- One of some names, written as a string, or as an object that holds nothing under the name. -/
def variant (nothing : Decoder Unit) (choices : List (String × α)) : Decoder α
  | .str s => choose s
  | .obj [(s, d)] true => do
    let a ← choose s
    nothing d
    return a
  | .obj fields true => .error (.wrongValue (Document.describe (.obj fields true)) "map with a single key")
  | d => mismatch "string or map" d
where
  choose (s : String) : Except DecodeError α := match choices.find? (·.1 == s) with
    | some (_, a) => .ok a
    | none => .error (.unknownVariant s (choices.map (·.1)))

/-- All items of an array, read in order. -/
def list (item : Decoder α) : Decoder (List α)
  | .arr items closed => do
    let items ← items.mapM item
    if closed then return items else .error .malformed
  | d => mismatch "a sequence" d

/-- The entries of an object, read in order. -/
def entries (item : Decoder α) : Decoder (List (String × α))
  | .obj fields closed => do
    let fields ← fields.mapM fun (k, d) => (k, ·) <$> item d
    if closed then return fields else .error .malformed
  | d => mismatch "a map" d

end Decoder

/-- Whether a field may be absent. A field that may be null counts as null when an object leaves it out, but an array has to
give it. -/
inductive Presence where
  | required | defaulted | nullable
  deriving DecidableEq, Repr

/-- A field of a record: how its document changes the record. -/
structure Field (α : Type) where
  name : String
  presence : Presence
  read : Document → α → Except DecodeError α

namespace Field

/-- A field that is read by `item` and changes the record by `set`. -/
def of (name : String) (presence : Presence) (item : Decoder β) (set : β → α → α) : Field α :=
  ⟨name, presence, fun d a => (set · a) <$> item d⟩

/-- A field that must be there. -/
abbrev needed (name : String) (item : Decoder β) (set : β → α → α) : Field α := of name .required item set

/-- A field that keeps its default when it is absent. -/
abbrev optional (name : String) (item : Decoder β) (set : β → α → α) : Field α := of name .defaulted item set

/-- A field that may be null. -/
abbrev nullable (name : String) (item : Decoder β) (set : Option β → α → α) : Field α :=
  of name .nullable (Decoder.option item) set

end Field

/-- A number of elements in a message. -/
def elementCount (n : Nat) : String := if n = 1 then "1 element" else s!"{n} elements"

/-- A kind of record: its name, its fields in their declared order, and the record of which all fields have their defaults. -/
structure Schema (α : Type) where
  name : String
  fields : List (Field α)
  initial : α

namespace Schema

def fieldNames (s : Schema α) : List String := s.fields.map (·.name)

def field? (s : Schema α) (name : String) : Option (Field α) := s.fields.find? (·.name == name)

/-- Reads fields in the order of the document into a record of which the fields `seen` are set already. -/
def readFields (s : Schema α) (seen : List String) (record : α) :
    List (String × Document) → Except DecodeError (List String × α)
  | [] => .ok (seen, record)
  | (key, d) :: rest =>
    match s.field? key with
    | none => .error (.unknownField key s.fieldNames)
    | some field =>
      if seen.contains key then .error (.duplicateField key)
      else do
        let record ← field.read d record
        readFields s (key :: seen) record rest

/-- The first field, in declared order, that is required and not set. -/
def missing? (s : Schema α) (seen : List String) : Option String :=
  (s.fields.find? fun f => f.presence = .required && !seen.contains f.name).map (·.name)

/-- What an array of too few fields is told to be. -/
def shape (s : Schema α) : String := s!"{s.name} with {elementCount s.fields.length}"

/-- Reads fields in their declared order; the count of fields that were there is for the message. -/
def readItems (s : Schema α) (closed : Bool) (count : Nat) (record : α) :
    List (Field α) → List Document → Except DecodeError (α × List Document)
  | [], rest => .ok (record, rest)
  | field :: fields, d :: rest => do
    let record ← field.read d record
    readItems s closed (count + 1) record fields rest
  | field :: fields, [] =>
    if !closed then .error .malformed
    else if field.presence ≠ .defaulted then .error (.wrongLength count s.shape)
    else readItems s closed (count + 1) record fields []

/-- Reads a record from an object or an array. -/
def decode (s : Schema α) : Decoder α
  | .obj fields closed => do
    let (seen, record) ← s.readFields [] s.initial fields
    if !closed then .error .malformed
    else match s.missing? seen with
      | some name => .error (.missingField name)
      | none => return record
  | .arr items closed => do
    let (record, rest) ← s.readItems closed 0 s.initial s.fields items
    if !closed then .error .malformed
    else if rest.isEmpty then return record
    else .error (.wrongLength items.length "fewer elements in array")
  | d => Decoder.mismatch s.name d

end Schema

end Runbook
