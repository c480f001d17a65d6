/-!
# Byte positions

A text is a list of characters; positions in it are counted in bytes of its UTF-8 form.
-/

namespace Runbook.Text

/-- The number of bytes of a text. -/
def byteLength (s : List Char) : Nat := s.foldr (fun c n => c.utf8Size + n) 0

/-- What is left of a text from a byte position on. A position inside a character counts as the end of that character. -/
def fromByte : Nat → List Char → List Char
  | 0, s => s
  | _, [] => []
  | n, c :: s => fromByte (n - c.utf8Size) s

@[simp] theorem byteLength_nil : byteLength [] = 0 := rfl

@[simp] theorem byteLength_cons (c : Char) (s : List Char) : byteLength (c :: s) = c.utf8Size + byteLength s := rfl

@[simp] theorem byteLength_append (s t : List Char) : byteLength (s ++ t) = byteLength s + byteLength t := by
  induction s with
  | nil => simp
  | cons c s ih => simp [ih, Nat.add_assoc]

/-- The position after a first part is where the second part starts. -/
theorem fromByte_byteLength (s t : List Char) : fromByte (byteLength s) (s ++ t) = t := by
  induction s with
  | nil => cases t <;> rfl
  | cons c s ih =>
    have hc : 0 < c.utf8Size := Char.utf8Size_pos c
    obtain ⟨n, hn⟩ : ∃ n, c.utf8Size + byteLength s = n + 1 := ⟨c.utf8Size + byteLength s - 1, by omega⟩
    rw [byteLength_cons, List.cons_append, hn]
    simp only [fromByte]
    rw [show n + 1 - c.utf8Size = byteLength s by omega, ih]

end Runbook.Text
