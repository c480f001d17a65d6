import Runbook.Json.Document

/-!
# TOML tables under construction

While a text is read, a table remembers how it came to be: by a header of its own, by the header of a table inside it, or by a
dotted key. A header may turn the second kind into the first, and dotted keys may only add to the third kind; nothing is defined
twice.
-/

namespace Runbook.Toml

/-- How a table came to be. -/
inductive Origin where
  | header | subheader | dotted
  deriving DecidableEq, Repr

/-- What a key holds while a text is read. -/
inductive Node where
  | value (d : Document)
  | table (origin : Origin) (entries : List (String × Node))
  | tables (items : List (List (String × Node)))
  deriving Inhabited

/-- The keys of a table, in the order they came. -/
abbrev Entries := List (String × Node)

namespace Entries

def get? (entries : Entries) (key : String) : Option Node := (entries.find? (·.1 == key)).map (·.2)

/-- Sets a key, in its place or at the end. -/
def set (entries : Entries) (key : String) (node : Node) : Entries :=
  match entries with
  | [] => [(key, node)]
  | (k, n) :: rest => if k = key then (key, node) :: rest else (k, n) :: set rest key node

end Entries

/-- Changes the table at the end of a path, where missing tables are made; a table of an array is its last one. -/
def change (dotted : Bool) (f : Origin → Entries → Option Entries) :
    List String → Origin → Entries → Option Entries
  | [], origin, entries => f origin entries
  | key :: path, _, entries =>
    match entries.get? key with
    | none =>
      let origin := if dotted then Origin.dotted else .subheader
      (change dotted f path origin []).map fun made => entries.set key (.table origin made)
    | some (.value _) => none
    | some (.table origin inner) =>
      if dotted && origin = .header then none
      else (change dotted f path origin inner).map fun made => entries.set key (.table origin made)
    | some (.tables items) =>
      match items.getLast? with
      | none => none
      | some last => (change dotted f path .header last).map fun made => entries.set key (.tables (items.dropLast ++ [made]))

/-- Sets a key that may be dotted: the table before its last part must be made by dotted keys, or there is none. -/
def setKey (path : List String) (d : Document) (origin : Origin) (entries : Entries) : Option Entries :=
  match path.getLast? with
  | none => none
  | some key =>
    let before := path.dropLast
    change true (fun origin entries =>
      if before.isEmpty = (origin = .dotted : Bool) then none
      else if (entries.get? key).isSome then none
      else some (entries.set key (.value d))) before origin entries

/-- Opens a table by its header. -/
def openTable (path : List String) (entries : Entries) : Option Entries :=
  match path.getLast? with
  | none => none
  | some key =>
    change false (fun _ entries => match entries.get? key with
      | none => some (entries.set key (.table .header []))
      | some (.table .subheader inner) => some (entries.set key (.table .header inner))
      | some _ => none) path.dropLast .header entries

/-- Opens the next table of an array by its header. -/
def openItem (path : List String) (entries : Entries) : Option Entries :=
  match path.getLast? with
  | none => none
  | some key =>
    change false (fun _ entries => match entries.get? key with
      | none => some (entries.set key (.tables [[]]))
      | some (.tables items) => some (entries.set key (.tables (items ++ [[]])))
      | some _ => none) path.dropLast .header entries

mutual

/-- What a key holds in the end. -/
def Node.document : Node → Document
  | .value d => d
  | .table _ entries => .obj (documentsOf entries) true
  | .tables items => .arr (documentsOfItems items) true

def documentsOf : List (String × Node) → List (String × Document)
  | [] => []
  | (k, n) :: rest => (k, n.document) :: documentsOf rest

def documentsOfItems : List (List (String × Node)) → List Document
  | [] => []
  | entries :: rest => .obj (documentsOf entries) true :: documentsOfItems rest

end

end Runbook.Toml
