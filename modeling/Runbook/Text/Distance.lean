/-!
# Edit distance

The least number of insertions, deletions and substitutions of single characters between two texts, computed row by row,
and the nearest of several candidates to a mistyped word.
-/

namespace Runbook.Text

/-- The cells of a row after its first: `left` is the cell before, the list holds the row above from the diagonal on. -/
def extendRow (a : Char) (left : Nat) : List Nat → List Char → List Nat
  | diagonal :: above :: row, b :: bs =>
    let cell := min (min (above + 1) (left + 1)) (diagonal + if a = b then 0 else 1)
    cell :: extendRow a cell (above :: row) bs
  | _, _ => []

/-- The row for one more character `a`, from the row above it. -/
def nextRow (bs : List Char) (row : List Nat) (a : Char) : List Nat :=
  match row with
  | [] => []
  | corner :: _ => (corner + 1) :: extendRow a (corner + 1) row bs

/-- The least number of single-character edits that turn one text into the other. -/
def editDistance (a b : List Char) : Nat :=
  ((a.foldl (nextRow b) (List.range (b.length + 1))).getLast?).getD 0

/-- The candidate nearest to `typo`, the earliest of equals; none when every candidate is farther than two edits and than
half the bytes of `typo`. -/
def closest? (typo : String) (candidates : List String) : Option String :=
  let allowed := max (typo.utf8ByteSize / 2) 2
  let best := candidates.foldl (fun (best : Option (String × Nat)) candidate =>
    let d := editDistance typo.toList candidate.toList
    let nearer := match best with
      | none => true
      | some (_, least) => d < least
    if nearer && d ≤ allowed then some (candidate, d) else best) none
  best.map (·.1)

end Runbook.Text
