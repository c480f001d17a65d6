import Mathlib.Data.List.Induction
import Mathlib.Order.Bounds.Basic
import Runbook.Text.Distance

/-!
# Edits and suggestions

The distance of two texts is the least number of edits that turn one into the other, and what is suggested for a mistyped word is the
first of the candidates that are nearest to it. An alignment puts two texts side by side, some characters of either alone; the table of
distances holds the least cost of an alignment of each two beginnings, and edits in any order come down to an alignment.
-/

namespace Runbook.Text

/-! ## Edits -/

/-- A single edit: a character is put in, taken out, or put in the place of another one, at the start or further on. -/
inductive Edit : List Char → List Char → Prop
  | insert (c : Char) (s : List Char) : Edit s (c :: s)
  | delete (c : Char) (s : List Char) : Edit (c :: s) s
  | substitute (c d : Char) (s : List Char) : Edit (c :: s) (d :: s)
  | behind (c : Char) {s t : List Char} (h : Edit s t) : Edit (c :: s) (c :: t)

/-- So many edits, one after the other, turn a text into another. -/
inductive Edits : Nat → List Char → List Char → Prop
  | none (s : List Char) : Edits 0 s s
  | next {n : Nat} {s t u : List Char} (h : Edits n s t) (edit : Edit t u) : Edits (n + 1) s u

/-- What is edited into something is so behind a common first character. -/
theorem Edits.behind (c : Char) {n : Nat} {s t : List Char} (h : Edits n s t) : Edits n (c :: s) (c :: t) := by
  induction h with
  | none s => exact .none _
  | next _ edit ih => exact .next ih (.behind c edit)

/-! ## Alignments -/

/-- What it costs to put one character over another. -/
def pairCost (c d : Char) : Nat := if c = d then 0 else 1

/-- Two texts side by side at a cost: a character alone costs one, and so do two different characters. -/
inductive Aligned : List Char → List Char → Nat → Prop
  | nil : Aligned [] [] 0
  | left (c : Char) {s t : List Char} {n : Nat} (h : Aligned s t n) : Aligned (c :: s) t (n + 1)
  | right (d : Char) {s t : List Char} {n : Nat} (h : Aligned s t n) : Aligned s (d :: t) (n + 1)
  | pair (c d : Char) {s t : List Char} {n : Nat} (h : Aligned s t n) : Aligned (c :: s) (d :: t) (n + pairCost c d)

namespace Aligned

variable {s t u s' t' : List Char} {m n : Nat}

theorem refl (s : List Char) : Aligned s s 0 := by
  induction s with
  | nil => exact .nil
  | cons c s ih => simpa [pairCost] using Aligned.pair c c ih

/-- Alignments one after the other add their costs. -/
theorem append (h : Aligned s t m) (h' : Aligned s' t' n) : Aligned (s ++ s') (t ++ t') (m + n) := by
  induction h with
  | nil => simpa using h'
  | left c _ ih => simpa [Nat.add_right_comm] using Aligned.left c ih
  | right d _ ih => simpa [Nat.add_right_comm] using Aligned.right d ih
  | pair c d _ ih => simpa [Nat.add_right_comm] using Aligned.pair c d ih

/-- Texts that are read backwards are aligned at the same cost. -/
theorem reverse (h : Aligned s t n) : Aligned s.reverse t.reverse n := by
  induction h with
  | nil => exact .nil
  | left c _ ih => simpa using ih.append (.left c .nil)
  | right d _ ih => simpa using ih.append (.right d .nil)
  | pair c d _ ih => simpa using ih.append (.pair c d .nil)

/-- An alignment can be made with as many edits as it costs. -/
theorem edits (h : Aligned s t n) : Edits n s t := by
  induction h with
  | nil => exact .none []
  | left c _ ih => exact .next (ih.behind c) (.delete c _)
  | right d _ ih => exact .next ih (.insert d _)
  | @pair c d s t n _ ih =>
    unfold pairCost
    split
    · rename_i heq
      exact heq ▸ ih.behind c
    · exact .next (ih.behind c) (.substitute c d t)

/-- An edit changes the cost of an alignment by one at most. -/
theorem edit (h : Aligned s t m) (hedit : Edit t u) : ∃ n ≤ m + 1, Aligned s u n := by
  induction h generalizing u with
  | nil =>
    cases hedit with
    | insert d => exact ⟨1, le_rfl, .right d .nil⟩
  | left c _ ih =>
    obtain ⟨n, hn, haligned⟩ := ih hedit
    exact ⟨n + 1, by omega, .left c haligned⟩
  | @right d s t m h ih =>
    cases hedit with
    | insert e => exact ⟨m + 2, le_rfl, .right e (.right d h)⟩
    | delete => exact ⟨m, by omega, h⟩
    | substitute _ e => exact ⟨m + 1, by omega, .right e h⟩
    | behind _ hedit =>
      obtain ⟨n, hn, haligned⟩ := ih hedit
      exact ⟨n + 1, by omega, .right d haligned⟩
  | @pair c d s t m h ih =>
    have hcost (e : Char) : pairCost c e ≤ 1 := by
      unfold pairCost
      split <;> omega
    cases hedit with
    | insert e => exact ⟨m + pairCost c d + 1, le_rfl, .right e (.pair c d h)⟩
    | delete => exact ⟨m + 1, by omega, .left c h⟩
    | substitute _ e => exact ⟨m + pairCost c e, by have := hcost e; omega, .pair c e h⟩
    | behind _ hedit =>
      obtain ⟨n, hn, haligned⟩ := ih hedit
      exact ⟨n + pairCost c d, by omega, .pair c d haligned⟩

end Aligned

/-- Edits in any order come down to an alignment that costs no more. -/
theorem Edits.aligned {n : Nat} {s t : List Char} (h : Edits n s t) : ∃ m ≤ n, Aligned s t m := by
  induction h with
  | none s => exact ⟨0, le_rfl, .refl s⟩
  | next _ edit ih =>
    obtain ⟨m, hm, haligned⟩ := ih
    obtain ⟨k, hk, haligned⟩ := haligned.edit edit
    exact ⟨k, by omega, haligned⟩

/-! ## The least cost -/

/-- The least cost of an alignment. -/
def leastCost : List Char → List Char → Nat
  | [], t => t.length
  | s, [] => s.length
  | c :: s, d :: t => min (min (leastCost s (d :: t) + 1) (leastCost (c :: s) t + 1)) (leastCost s t + pairCost c d)

@[simp] theorem leastCost_nil_left (t : List Char) : leastCost [] t = t.length := by rw [leastCost]

@[simp] theorem leastCost_nil_right (s : List Char) : leastCost s [] = s.length := by
  cases s <;> simp [leastCost]

/-- The least cost drops the first character of one text, or pairs those of both. -/
theorem leastCost_cons_cons (c d : Char) (s t : List Char) : leastCost (c :: s) (d :: t) =
    min (min (leastCost s (d :: t) + 1) (leastCost (c :: s) t + 1)) (leastCost s t + pairCost c d) := by
  rw [leastCost]

/-- One more character of the first text costs one more at most. -/
theorem leastCost_left (c : Char) (s t : List Char) : leastCost (c :: s) t ≤ leastCost s t + 1 := by
  cases t with
  | nil => simp
  | cons d t =>
    rw [leastCost_cons_cons]
    omega

/-- One more character of the second text costs one more at most. -/
theorem leastCost_right (d : Char) (s t : List Char) : leastCost s (d :: t) ≤ leastCost s t + 1 := by
  cases s with
  | nil => simp
  | cons c s =>
    rw [leastCost_cons_cons]
    omega

/-- Two more characters cost what their pair does at most. -/
theorem leastCost_pair (c d : Char) (s t : List Char) : leastCost (c :: s) (d :: t) ≤ leastCost s t + pairCost c d := by
  rw [leastCost_cons_cons]
  exact Nat.min_le_right _ _

/-- Texts are aligned at the least cost. -/
theorem aligned_leastCost (s t : List Char) : Aligned s t (leastCost s t) := by
  induction s generalizing t with
  | nil =>
    induction t with
    | nil => exact leastCost_nil_left [] ▸ .nil
    | cons d t ih => simpa using Aligned.right d ih
  | cons c s ihs =>
    induction t with
    | nil => simpa using Aligned.left c (ihs [])
    | cons d t iht =>
      have habove : Aligned (c :: s) (d :: t) (leastCost s (d :: t) + 1) := .left c (ihs (d :: t))
      have hleft : Aligned (c :: s) (d :: t) (leastCost (c :: s) t + 1) := .right d iht
      have hdiagonal : Aligned (c :: s) (d :: t) (leastCost s t + pairCost c d) := .pair c d (ihs t)
      rw [leastCost_cons_cons, Nat.min_def, Nat.min_def]
      split_ifs <;> assumption

/-- No alignment costs less than the least cost. -/
theorem isLeast_leastCost (s t : List Char) : IsLeast {n | Aligned s t n} (leastCost s t) := by
  refine ⟨aligned_leastCost s t, fun n (h : Aligned s t n) => ?_⟩
  induction h with
  | nil => simp
  | left c _ ih => exact (leastCost_left c _ _).trans (Nat.succ_le_succ ih)
  | right d _ ih => exact (leastCost_right d _ _).trans (Nat.succ_le_succ ih)
  | pair c d _ ih => exact (leastCost_pair c d _ _).trans (Nat.add_le_add_right ih _)

/-! ## The table, row by row -/

/-- The least costs of a text against the beginnings of another one, of which some characters, the last one first, are read
already. Both texts are given backwards, since a row is made from the beginnings. -/
def costRow (s : List Char) : List Char → List Char → List Nat
  | seen, [] => [leastCost s seen]
  | seen, d :: t => leastCost s seen :: costRow s (d :: seen) t

/-- A row begins with the cost of what has been seen. -/
theorem costRow_eq_cons (s seen t : List Char) : costRow s seen t = leastCost s seen :: (costRow s seen t).tail := by
  cases t <;> rfl

/-- The first row counts the characters of the text. -/
theorem costRow_nil (seen t : List Char) : costRow [] seen t = List.range' seen.length (t.length + 1) := by
  induction t generalizing seen with
  | nil => simp [costRow]
  | cons d t ih =>
    rw [costRow, ih, leastCost_nil_left, List.length_cons, List.length_cons]
    exact List.range'_succ.symm

/-- A row ends with the cost of the whole text. -/
theorem getLast?_costRow (s seen t : List Char) : (costRow s seen t).getLast? = some (leastCost s (t.reverse ++ seen)) := by
  induction t generalizing seen with
  | nil => rfl
  | cons d t ih =>
    rw [costRow, List.getLast?_cons, ih, List.reverse_cons, List.append_assoc]
    rfl

/-- A row is extended to that of one more character. -/
theorem extendRow_costRow (c : Char) (s seen t : List Char) :
    extendRow c (leastCost (c :: s) seen) (costRow s seen t) t = (costRow (c :: s) seen t).tail := by
  induction t generalizing seen with
  | nil => rfl
  | cons d t ih =>
    rw [costRow, costRow, costRow_eq_cons s, extendRow, ← pairCost, ← leastCost_cons_cons, ← costRow_eq_cons s, ih,
      ← costRow_eq_cons, List.tail_cons]

/-- A row leads to the row for one more character. -/
theorem nextRow_costRow (c : Char) (s t : List Char) : nextRow t (costRow s [] t) c = costRow (c :: s) [] t := by
  have hcorner : leastCost (c :: s) [] = leastCost s [] + 1 := by simp
  rw [costRow_eq_cons s, nextRow, ← costRow_eq_cons s, ← hcorner, extendRow_costRow, ← costRow_eq_cons]

/-- The rows of a text lead to the row of all of its characters. -/
theorem foldl_nextRow (a s b : List Char) : a.foldl (nextRow b) (costRow s [] b) = costRow (a.reverse ++ s) [] b := by
  induction a generalizing s with
  | nil => rfl
  | cons c a ih => rw [List.foldl_cons, nextRow_costRow, ih, List.reverse_cons, List.append_assoc, List.singleton_append]

/-- The distance is the least cost of the texts, read backwards. -/
theorem editDistance_eq (a b : List Char) : editDistance a b = leastCost a.reverse b.reverse := by
  have hfirst : List.range (b.length + 1) = costRow [] [] b := by
    rw [costRow_nil, List.range_eq_range']
    rfl
  rw [editDistance, hfirst, foldl_nextRow, getLast?_costRow, List.append_nil, List.append_nil, Option.getD_some]

/-- The distance is the least number of edits. -/
theorem isLeast_editDistance (a b : List Char) : IsLeast {n | Edits n a b} (editDistance a b) := by
  rw [editDistance_eq]
  obtain ⟨haligned, hleast⟩ := isLeast_leastCost a.reverse b.reverse
  constructor
  · simpa using haligned.reverse.edits
  · intro n hn
    obtain ⟨m, hm, haligned⟩ := Edits.aligned hn
    exact (hleast haligned.reverse).trans hm

/-! ## The nearest candidate -/

/-- The first of the candidates that are nearest by a measure. -/
def Nearest (distance : String → Nat) (candidates : List String) (c : String) : Prop :=
  ∃ before after, candidates = before ++ c :: after ∧ (∀ x ∈ before, distance c < distance x) ∧
    ∀ x ∈ after, distance c ≤ distance x

namespace Nearest

variable {distance : String → Nat} {candidates : List String} {c d x : String}

theorem mem (h : Nearest distance candidates c) : c ∈ candidates := by
  obtain ⟨before, after, rfl, -⟩ := h
  simp

theorem le (h : Nearest distance candidates c) (hx : x ∈ candidates) : distance c ≤ distance x := by
  obtain ⟨before, after, rfl, hbefore, hafter⟩ := h
  rcases List.mem_append.mp hx with hx | hx
  · exact (hbefore x hx).le
  · rcases List.mem_cons.mp hx with rfl | hx
    · exact le_rfl
    · exact hafter x hx

/-- There is one nearest candidate at most: neither of two stands before the other, where all is farther. -/
theorem unique (h : Nearest distance candidates c) (h' : Nearest distance candidates d) : c = d := by
  have heq : distance c = distance d := le_antisymm (h.le h'.mem) (h'.le h.mem)
  obtain ⟨before, after, rfl, hbefore, -⟩ := h
  obtain ⟨before', after', hsplit, hbefore', -⟩ := h'
  rcases List.append_eq_append_iff.mp hsplit with ⟨between, rfl, hrest⟩ | ⟨between, rfl, hrest⟩
  · cases between with
    | nil => exact (List.cons.inj hrest).1
    | cons e between =>
      obtain ⟨rfl, -⟩ := List.cons.inj hrest
      exact absurd heq (hbefore' c (by simp)).ne'
  · cases between with
    | nil => exact (List.cons.inj hrest).1.symm
    | cons e between =>
      obtain ⟨rfl, -⟩ := List.cons.inj hrest
      exact absurd heq (hbefore d (by simp)).ne

end Nearest

/-- What is the best of some candidates: nothing if all of them are too far, otherwise the first of the nearest with its distance. -/
def Best (distance : String → Nat) (allowed : Nat) (candidates : List String) : Option (String × Nat) → Prop
  | none => ∀ x ∈ candidates, allowed < distance x
  | some (c, d) => d = distance c ∧ Nearest distance candidates c ∧ distance c ≤ allowed

/-- The better one of the best so far and one more candidate. -/
def better (distance : String → Nat) (allowed : Nat) (best : Option (String × Nat)) (candidate : String) : Option (String × Nat) :=
  let d := distance candidate
  let nearer := match best with
    | none => true
    | some (_, least) => d < least
  if nearer && d ≤ allowed then some (candidate, d) else best

/-- The closest candidate is the best one of those within the allowed distance. -/
theorem closest?_eq (typo : String) (candidates : List String) :
    closest? typo candidates =
      (candidates.foldl (better (fun c => editDistance typo.toList c.toList) (max (typo.utf8ByteSize / 2) 2)) none).map (·.1) := rfl

section

variable {distance : String → Nat} {allowed : Nat} {candidates : List String}

/-- The best candidate so far is the best of one more when it is compared with it. -/
theorem Best.better {best : Option (String × Nat)} (h : Best distance allowed candidates best) (x : String) :
    Best distance allowed (candidates ++ [x]) (better distance allowed best x) := by
  cases best with
  | none =>
    simp only [Text.better, Bool.true_and, decide_eq_true_eq]
    split
    · rename_i hx
      exact ⟨rfl, ⟨candidates, [], rfl, fun y hy => lt_of_le_of_lt hx (h y hy), List.forall_mem_nil _⟩, hx⟩
    · rename_i hx
      exact List.forall_mem_append.mpr ⟨h, List.forall_mem_singleton.mpr (not_le.mp hx)⟩
  | some b =>
    obtain ⟨c, d⟩ := b
    obtain ⟨rfl, hnearest, hallowed⟩ := h
    simp only [Text.better, Bool.and_eq_true, decide_eq_true_eq]
    split
    · rename_i hx
      exact ⟨rfl, ⟨candidates, [], rfl, fun y hy => lt_of_lt_of_le hx.1 (hnearest.le hy), List.forall_mem_nil _⟩, hx.2⟩
    · rename_i hx
      have hfar : distance c ≤ distance x := by omega
      obtain ⟨before, after, rfl, hbefore, hafter⟩ := hnearest
      refine ⟨rfl, ⟨before, after ++ [x], by simp, hbefore, ?_⟩, hallowed⟩
      exact List.forall_mem_append.mpr ⟨hafter, List.forall_mem_singleton.mpr hfar⟩

/-- To compare candidates one after the other leaves the best one. -/
theorem best_foldl (distance : String → Nat) (allowed : Nat) (candidates : List String) :
    Best distance allowed candidates (candidates.foldl (better distance allowed) none) := by
  induction candidates using List.reverseRecOn with
  | nil => exact List.forall_mem_nil _
  | append_singleton candidates x ih =>
    rw [List.foldl_append]
    exact ih.better x

/-- The best candidate is the nearest one, if it is allowed. -/
theorem Best.eq_some_iff {best : Option (String × Nat)} (h : Best distance allowed candidates best) (c : String) :
    best.map (·.1) = some c ↔ Nearest distance candidates c ∧ distance c ≤ allowed := by
  cases best with
  | none =>
    simp only [Option.map_none, reduceCtorEq, false_iff, not_and, not_le]
    exact fun hnearest => h c hnearest.mem
  | some b =>
    obtain ⟨b, d⟩ := b
    obtain ⟨-, hnearest, hallowed⟩ := h
    simp only [Option.map_some, Option.some.injEq]
    exact ⟨fun heq => heq ▸ ⟨hnearest, hallowed⟩, fun hc => hnearest.unique hc.1⟩

/-- There is no best candidate exactly if none is allowed. -/
theorem Best.eq_none_iff {best : Option (String × Nat)} (h : Best distance allowed candidates best) :
    best.map (·.1) = none ↔ ∀ x ∈ candidates, allowed < distance x := by
  cases best with
  | none => exact ⟨fun _ => h, fun _ => rfl⟩
  | some b =>
    obtain ⟨-, hnearest, hallowed⟩ := h
    simp only [Option.map_some, reduceCtorEq, false_iff, not_forall, not_lt]
    exact ⟨b.1, hnearest.mem, hallowed⟩

end

/-- The distance of two texts is the least number of edits of single characters that turn the first into the second. For a mistyped
word the first one of the candidates that are nearest to it is suggested, if it is at most two edits away, or at most half as many as the
word has bytes; if all candidates are farther, none is. -/
theorem nearest_suggested :
    (∀ a b : List Char, IsLeast {n | Edits n a b} (editDistance a b)) ∧
    ∀ (typo : String) (candidates : List String),
      (∀ c, closest? typo candidates = some c ↔
        Nearest (fun c => editDistance typo.toList c.toList) candidates c ∧
          editDistance typo.toList c.toList ≤ max 2 (typo.utf8ByteSize / 2)) ∧
      (closest? typo candidates = none ↔
        ∀ c ∈ candidates, max 2 (typo.utf8ByteSize / 2) < editDistance typo.toList c.toList) := by
  refine ⟨isLeast_editDistance, fun typo candidates => ?_⟩
  have hbest := best_foldl (fun c => editDistance typo.toList c.toList) (max 2 (typo.utf8ByteSize / 2)) candidates
  rw [closest?_eq, max_comm]
  exact ⟨hbest.eq_some_iff, hbest.eq_none_iff⟩

/-- Of two candidates that are equally near the first one is suggested. -/
example : closest? "loap" ["embed", "loop", "soap"] = some "loop" := by decide

end Runbook.Text
