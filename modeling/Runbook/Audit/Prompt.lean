import Runbook.Text.Blank
import Runbook.Text.Word

/-!
# Suspicious prompts

Two patterns in the text of a prompt, in any case: a phrase that tells to set earlier instructions aside, and a line that
starts with the role `system:`.
-/

namespace Runbook.Prompt

/-- A letter without its case; the long s is an s. -/
def foldCase (c : Char) : Char := if c = 'ſ' then 's' else c.toLower

/-- What follows a word at the start of a text. -/
def afterWord? (word : List Char) (s : List Char) : Option (List Char) :=
  match word, s with
  | [], s => some s
  | w :: ws, c :: cs => if foldCase c = w then afterWord? ws cs else none
  | _ :: _, [] => none

/-- What follows any of some words at the start of a text. -/
def afterAny (words : List String) (s : List Char) : List (List Char) :=
  words.filterMap fun w => afterWord? w.toList s

/-- What follows any of some words and the blanks behind it, of which there is at least one. -/
def afterAnyAndGap (words : List String) (s : List Char) : List (List Char) :=
  (afterAny words s).filterMap fun rest => match rest with
    | c :: cs => if Text.isBlank c then some (cs.dropWhile Text.isBlank) else none
    | [] => none

/-- The same, where the words may also be left out. -/
def maybe (words : List String) (s : List Char) : List (List Char) := s :: afterAnyAndGap words s

/-- Whether a text starts with a phrase that sets instructions aside. -/
def startsOverride (s : List Char) : Bool :=
  (afterAnyAndGap ["ignore", "disregard", "forget"] s).any fun s =>
    (maybe ["all", "any"] s).any fun s =>
      (maybe ["the"] s).any fun s =>
        (afterAnyAndGap ["previous", "prior", "above", "earlier", "all"] s).any fun s =>
          !(afterAny ["instructions", "prompts", "rules", "directions"] s).isEmpty

/-- Whether such a phrase starts at a word boundary of a text; `inWord` tells whether a word character comes before. -/
def overrideFrom (inWord : Bool) : List Char → Bool
  | [] => false
  | c :: cs => (!inWord && startsOverride (c :: cs)) || overrideFrom (Text.isWord c) cs

/-- Whether a text holds a phrase that sets instructions aside. -/
def hasOverride (s : String) : Bool := overrideFrom false s.toList

/-- Whether a text starts, blanks left aside, with the role. -/
def startsRole (s : List Char) : Bool :=
  match afterWord? "system".toList (s.dropWhile Text.isBlank) with
  | some rest => (rest.dropWhile Text.isBlank).head? = some ':'
  | none => false

/-- Whether a line of a text starts with the role; `atStart` tells whether a line starts here. -/
def roleFrom (atStart : Bool) : List Char → Bool
  | [] => false
  | c :: cs => (atStart && startsRole (c :: cs)) || roleFrom (c = '\n') cs

/-- Whether a line of a text starts with the role `system:`. -/
def hasRole (s : String) : Bool := roleFrom true s.toList

end Runbook.Prompt
