import Mathlib
import Runbook.Proofs.Fragments

/-!
# Fragments tile a text

A fragment begins at the first opening pair with a closing pair anywhere behind it, and ends at the next closing pair; behind it the
search goes on. The fragments of a text are the only ones that are found in this way. Between them the text is kept as it is, so with each
fragment in its own place it is the text again, and with the texts of the values in their places it is what the text resolves to.
-/

namespace Runbook

namespace Template

/-! ## Where a fragment is -/

/-- A text in three parts, with an opening pair of braces behind the first and a closing pair behind the second. -/
def Around (s before inner after : List Char) : Prop :=
  s = before ++ '\x7b' :: '\x7b' :: (inner ++ '\x7d' :: '\x7d' :: after)

/-- The first fragment of a text: none begins before it, and of those that begin where it does none ends before it. -/
structure First (s before inner after : List Char) : Prop where
  around : Around s before inner after
  leftmost : ∀ before' inner' after', Around s before' inner' after' → before.length ≤ before'.length
  shortest : ∀ inner' after', Around s before inner' after' → inner.length ≤ inner'.length

/-- The fragments of a text: the first one, then those of the text behind it, until there is none. -/
inductive Tiles : List Char → Template → Prop
  | rest {s : List Char} (h : ∀ before inner after, ¬Around s before inner after) : Tiles s ⟨[], s⟩
  | span {s before inner after rest : List Char} {spans : List Span} (h : First s before inner after) (ht : Tiles after ⟨spans, rest⟩) :
    Tiles s ⟨⟨before, inner⟩ :: spans, rest⟩

/-- There is one first fragment at most. -/
theorem First.unique {s before inner after before' inner' after' : List Char} (h : First s before inner after)
    (h' : First s before' inner' after') : before = before' ∧ inner = inner' ∧ after = after' := by
  have hlength : before.length = before'.length :=
    Nat.le_antisymm (h.leftmost _ _ _ h'.around) (h'.leftmost _ _ _ h.around)
  obtain ⟨rfl, hrest⟩ := List.append_inj (h.around.symm.trans h'.around) hlength
  have hinner : inner.length = inner'.length :=
    Nat.le_antisymm (h.shortest _ _ h'.around) (h'.shortest _ _ h.around)
  obtain ⟨rfl, hafter⟩ := List.append_inj (List.cons.inj (List.cons.inj hrest).2).2 hinner
  exact ⟨rfl, rfl, (List.cons.inj (List.cons.inj hafter).2).2⟩

/-! ## The scan -/

/-- A text is cut at the first pair. -/
theorem length_le_of_cutAtPair {c : Char} {s before after : List Char} (h : cutAtPair c s = some (before, after))
    {before' after' : List Char} (h' : s = before' ++ c :: c :: after') : before.length ≤ before'.length := by
  fun_induction cutAtPair c s generalizing before before' with
  | case1 a b rest hc =>
    obtain ⟨rfl, -⟩ := Prod.mk.inj (Option.some.inj h)
    exact Nat.zero_le _
  | case2 a b rest hc x y hr ih =>
    obtain ⟨rfl, rfl⟩ := Prod.mk.inj (Option.some.inj h)
    cases before' with
    | nil =>
      obtain ⟨rfl, hrest⟩ := List.cons.inj h'
      exact absurd ⟨rfl, (List.cons.inj hrest).1⟩ hc
    | cons a' before' => exact Nat.succ_le_succ (ih hr (List.cons.inj h').2)
  | case3 => cases h
  | case4 => cases h

/-- A text that is not cut has no pair. -/
theorem no_pair_of_cutAtPair {c : Char} {s : List Char} (h : cutAtPair c s = none) (before after : List Char) :
    s ≠ before ++ c :: c :: after := by
  fun_induction cutAtPair c s generalizing before with
  | case1 => cases h
  | case2 => cases h
  | case3 a b rest hc hr ih =>
    intro heq
    cases before with
    | nil =>
      obtain ⟨rfl, hrest⟩ := List.cons.inj heq
      exact hc ⟨rfl, (List.cons.inj hrest).1⟩
    | cons a' before => exact ih hr before (List.cons.inj heq).2
  | case4 s hshort =>
    rintro rfl
    cases before with
    | nil => exact hshort c c after rfl
    | cons a before =>
      cases before with
      | nil => exact hshort a c (c :: after) rfl
      | cons b before => exact hshort a b (before ++ c :: c :: after) rfl

/-- What a fragment is cut out of a text is the first one. -/
theorem first_of_cutFragment {s before inner after : List Char} (h : cutFragment s = some (before, inner, after)) :
    First s before inner after := by
  have hs := eq_of_cutFragment h
  unfold cutFragment at h
  split at h
  · cases h
  · rename_i hopen
    split at h
    · cases h
    · rename_i hclose
      obtain ⟨rfl, heq⟩ := Prod.mk.inj (Option.some.inj h)
      obtain ⟨rfl, rfl⟩ := Prod.mk.inj heq
      refine ⟨hs, ?_, ?_⟩
      · intro before' inner' after' h'
        exact length_le_of_cutAtPair hopen h'
      · intro inner' after' h'
        have hrest := List.append_cancel_left ((eq_of_cutAtPair hopen).symm.trans h')
        exact length_le_of_cutAtPair hclose (List.cons.inj (List.cons.inj hrest).2).2

/-- Where none is cut out there is none: every closing pair stands before the first opening pair. -/
theorem not_around_of_cutFragment {s : List Char} (h : cutFragment s = none) (before inner after : List Char) :
    ¬Around s before inner after := by
  intro h'
  unfold cutFragment at h
  split at h
  · rename_i hopen
    exact no_pair_of_cutAtPair hopen before _ h'
  · rename_i first rest hopen
    split at h
    · rename_i hclose
      have hle := length_le_of_cutAtPair hopen h'
      have hsuffix : inner ++ '\x7d' :: '\x7d' :: after <:+ rest := by
        have hfirst : first ++ ['\x7b', '\x7b'] ++ rest = before ++ ['\x7b', '\x7b'] ++ (inner ++ '\x7d' :: '\x7d' :: after) := by
          simpa using (eq_of_cutAtPair hopen).symm.trans h'
        have hrest : rest <:+ s := ⟨first ++ ['\x7b', '\x7b'], by simpa using (eq_of_cutAtPair hopen).symm⟩
        have hinner : inner ++ '\x7d' :: '\x7d' :: after <:+ s := ⟨before ++ ['\x7b', '\x7b'], by simpa using h'.symm⟩
        refine List.suffix_of_suffix_length_le hinner hrest ?_
        have hlength := congrArg List.length hfirst
        simp only [List.length_append, List.length_cons, List.length_nil] at hlength ⊢
        omega
      obtain ⟨skipped, hskipped⟩ := hsuffix
      exact no_pair_of_cutAtPair hclose (skipped ++ inner) after (by rw [← hskipped, List.append_assoc])
    · cases h

/-- The scan finds the fragments of a text. -/
theorem tiles_scan (s : List Char) : Tiles s (scan s) := by
  fun_induction scan s with
  | case1 s hcut => exact .rest (not_around_of_cutFragment hcut)
  | case2 s before inner after hcut t ih => exact .span (first_of_cutFragment hcut) ih

/-- A text has its fragments in one way only. -/
theorem Tiles.unique {s : List Char} {t t' : Template} (h : Tiles s t) (h' : Tiles s t') : t = t' := by
  induction h generalizing t' with
  | rest hnone =>
    cases h' with
    | rest => rfl
    | span hfirst => exact absurd hfirst.around (hnone _ _ _)
  | span hfirst _ ih =>
    cases h' with
    | rest hnone => exact absurd hfirst.around (hnone _ _ _)
    | span hfirst' ht' =>
      obtain ⟨rfl, rfl, rfl⟩ := hfirst.unique hfirst'
      obtain ⟨rfl, rfl⟩ := Template.mk.inj (ih ht')
      rfl

/-- The template of a text tiles it. -/
theorem tiles_ofString (source : String) : Tiles source.toList (ofString source) := tiles_scan source.toList

/-- Only the template that is found in a text tiles it. -/
theorem tiles_iff {s : List Char} {t : Template} : Tiles s t ↔ t = scan s :=
  ⟨fun h => h.unique (tiles_scan s), fun h => h ▸ tiles_scan s⟩

/-- A text has a fragment exactly when it has an opening pair with a closing pair anywhere behind it. -/
theorem Tiles.hasFragment_iff {s : List Char} {t : Template} (h : Tiles s t) :
    t.hasFragment = true ↔ ∃ before inner after, Around s before inner after := by
  cases h with
  | rest hnone => simpa [hasFragment] using hnone
  | span hfirst => exact ⟨fun _ => ⟨_, _, _, hfirst.around⟩, fun _ => rfl⟩

/-- A lone fragment has nothing around it. -/
theorem lone?_eq_some {t : Template} {inner : List Char} : t.lone? = some inner ↔ t = ⟨[⟨[], inner⟩], []⟩ := by
  constructor
  · intro h
    unfold lone? at h
    split at h
    · rw [Option.some.inj h]
    · cases h
  · rintro rfl
    rfl

/-- A template that is one fragment has a fragment. -/
theorem hasFragment_of_lone {t : Template} {inner : List Char} (h : t.lone? = some inner) : t.hasFragment = true := by
  rw [lone?_eq_some.mp h]
  rfl

/-- A text is a lone fragment if its first one is all there is. -/
theorem Tiles.lone?_iff {s : List Char} {t : Template} (h : Tiles s t) {inner : List Char} :
    t.lone? = some inner ↔ First s [] inner [] := by
  rw [lone?_eq_some]
  constructor
  · rintro rfl
    cases h with
    | span hfirst ht =>
      cases ht with
      | rest => exact hfirst
  · intro hfirst
    refine h.unique (.span hfirst (.rest ?_))
    intro before' inner' after' haround
    simp [Around] at haround

/-! ## What the text resolves to -/

/-- The text between the fragments, unchanged and in order, with a text of its own in the place of each fragment. -/
def weave (t : Template) (text : Span → String) : String :=
  t.spans.foldr (fun span tail => String.ofList span.before ++ (text span ++ tail)) (String.ofList t.rest)

theorem weave_cons (span : Span) (spans : List Span) (rest : List Char) (text : Span → String) :
    weave ⟨span :: spans, rest⟩ text = String.ofList span.before ++ (text span ++ weave ⟨spans, rest⟩ text) := rfl

/-- With every fragment in its own place the text is as it is written. -/
theorem Tiles.weave_fragments {s : List Char} {t : Template} (h : Tiles s t) :
    t.weave (fun span => fragment (String.ofList span.inner)) = String.ofList s := by
  induction h with
  | rest => rfl
  | span hfirst _ ih =>
    rw [weave_cons, ih, hfirst.around, ← String.toList_inj]
    simp [fragment]

/-- What takes the place of a fragment with this expression: nothing for undefined, `null` for null, and for any other value the text that
`+` adds for it. -/
structure Stands (scope : Scope) (e : Expr) (text : String) : Prop where
  undefined : e.eval scope = none → text = ""
  null : e.eval scope = some .null → text = "null"
  added : ∀ v, e.eval scope = some v → v ≠ .null → (Expr.binary .concat (.literal (.str "")) e).eval scope = some (.str text)

/-- What is substituted for an expression stands for it. -/
theorem stands_substitute (scope : Scope) (e : Expr) : Stands scope e (substitute (e.eval scope)) := by
  refine ⟨fun h => by rw [h]; rfl, fun h => by rw [h]; rfl, fun v h hnull => ?_⟩
  have htext : substitute (some v) = Value.toText (some v) := by
    unfold substitute
    split
    · rename_i heq
      exact absurd (Option.some.inj heq) hnull
    · rfl
  simp [Expr.eval, h, htext, Value.toText]

/-- The text that takes the place of a fragment; one that is no expression has none. -/
def standIn (scope : Scope) (span : Span) : String :=
  match Expr.parse span.expression with
  | .ok e => substitute (e.eval scope)
  | .error _ => ""

/-- A template is filled with the texts of its fragments. -/
theorem fill_eq_ok {scope : Scope} {rest : List Char} {spans : List Span} (h : ∀ span ∈ spans, IsExpression span.expression) :
    fill scope rest spans = .ok (weave ⟨spans, rest⟩ (standIn scope)) := by
  induction spans with
  | nil => rfl
  | cons span spans ih =>
    obtain ⟨e, he⟩ := h span List.mem_cons_self
    rw [weave_cons, fill, ih fun span hspan => h span (List.mem_cons_of_mem _ hspan), standIn, he]
    rfl

/-- A template that is one fragment is resolved to the value of its expression. -/
theorem resolve_of_lone {t : Template} {inner : List Char} (h : t.lone? = some inner) (scope : Scope) :
    t.resolve scope = (·.eval scope) <$> Expr.parse (Text.trim (String.ofList inner)) := by
  rw [resolve, h, Text.trim, String.toList_ofList]
  dsimp only
  cases Expr.parse (String.ofList (Text.trimChars inner)) <;> rfl

/-- A template that is more than one fragment is resolved to a text. -/
theorem resolve_of_not_lone {t : Template} (h : t.lone? = none) (hspans : ∀ span ∈ t.spans, IsExpression span.expression) (scope : Scope) :
    t.resolve scope = .ok (some (.str (t.weave (standIn scope)))) := by
  rw [resolve, h]
  dsimp only
  rw [fill_eq_ok hspans]
  rfl

/-- A text without fragments resolves to itself. -/
theorem resolve_of_no_fragment {source : String} (h : (ofString source).hasFragment = false) (scope : Scope) :
    (ofString source).resolve scope = .ok (some (.str source)) := by
  have hspans : (ofString source).spans = [] := by simpa [hasFragment] using h
  have hlone : (ofString source).lone? = none := by
    by_contra hsome
    obtain ⟨inner, hinner⟩ := Option.ne_none_iff_exists'.mp hsome
    exact Bool.false_ne_true (h.symm.trans (hasFragment_of_lone hinner))
  have hsame (text : Span → String) : (ofString source).weave text = String.ofList (ofString source).rest := by
    rw [weave, hspans]
    rfl
  have hsource := (tiles_ofString source).weave_fragments
  rw [hsame, String.ofList_toList] at hsource
  rw [resolve_of_not_lone hlone (by simp [hspans]), hsame, hsource]

/-- The fragments that the scan finds in a text are the first one, the first one behind it, and so on; there are any exactly when there is
an opening pair with a closing pair behind it. A fragment that is the whole text resolves to the value of its expression; any other text
resolves to a text in which something stands in the place of each fragment, and which is otherwise the same. -/
theorem fragments_tile (source : String) (scope : Scope) :
    (∀ t, Tiles source.toList t ↔ t = ofString source) ∧
    (ofString source).fragments = (ofString source).spans.map (fun span => Text.trim (String.ofList span.inner)) ∧
    ((ofString source).hasFragment = true ↔ ∃ before inner after, Around source.toList before inner after) ∧
    (ofString source).weave (fun span => fragment (String.ofList span.inner)) = source ∧
    (∀ inner, (ofString source).lone? = some inner ↔ First source.toList [] inner []) ∧
    (∀ inner, First source.toList [] inner [] →
      (ofString source).resolve scope = (·.eval scope) <$> Expr.parse (Text.trim (String.ofList inner))) ∧
    ((∀ inner, ¬First source.toList [] inner []) → (∀ span ∈ (ofString source).spans, IsExpression span.expression) →
      ∃ text : Span → String, (∀ span ∈ (ofString source).spans, ∃ e, Expr.parse span.expression = .ok e ∧ Stands scope e (text span)) ∧
        (ofString source).resolve scope = .ok (some (.str ((ofString source).weave text)))) ∧
    ((ofString source).hasFragment = false → (ofString source).resolve scope = .ok (some (.str source))) := by
  have htiles := tiles_ofString source
  refine ⟨fun t => tiles_iff, ?_, htiles.hasFragment_iff, ?_, fun inner => htiles.lone?_iff, ?_, ?_, ?_⟩
  · simp [fragments, Span.expression, Text.trim]
  · rw [htiles.weave_fragments, String.ofList_toList]
  · exact fun inner hfirst => resolve_of_lone (htiles.lone?_iff.mpr hfirst) scope
  · intro hlone hspans
    have hnone : (ofString source).lone? = none := by
      by_contra hsome
      obtain ⟨inner, hinner⟩ := Option.ne_none_iff_exists'.mp hsome
      exact hlone inner (htiles.lone?_iff.mp hinner)
    refine ⟨standIn scope, fun span hspan => ?_, resolve_of_not_lone hnone hspans scope⟩
    obtain ⟨e, he⟩ := hspans span hspan
    refine ⟨e, he, ?_⟩
    rw [standIn, he]
    exact stands_substitute scope e
  · exact fun hnone => resolve_of_no_fragment hnone scope

/-- Two fragments, a closing pair that ends none and an opening pair that begins none. -/
def sampleText : String := "n=\x7b\x7b x \x7d\x7d, \x7b\x7b null \x7d\x7d\x7d\x7d \x7b\x7bz"

/-- The text of the number takes the place of the first fragment and `null` that of the second, and all else is kept. -/
theorem fragments_tile_of_mixture :
    ∃ text : Span → String, text ⟨"n=".toList, " x ".toList⟩ = "3" ∧ text ⟨", ".toList, " null ".toList⟩ = "null" ∧
      (ofString sampleText).resolve (Scope.ofValue (.obj [("x", .ofNat 3)])) = .ok (some (.str ((ofString sampleText).weave text))) := by
  have hspans : (ofString sampleText).spans = [⟨"n=".toList, " x ".toList⟩, ⟨", ".toList, " null ".toList⟩] := by cbv
  obtain ⟨-, -, -, -, hlone, -, hmixture, -⟩ := fragments_tile sampleText (Scope.ofValue (.obj [("x", .ofNat 3)]))
  have hnone : (ofString sampleText).lone? = none := by cbv
  obtain ⟨text, hstands, hresolve⟩ := hmixture (fun inner hfirst => by rw [(hlone inner).mpr hfirst] at hnone; cases hnone) (by
    rw [hspans]
    simp only [List.forall_mem_cons]
    exact ⟨⟨.path ⟨"x", []⟩, by cbv⟩, ⟨.literal .null, by cbv⟩, List.forall_mem_nil _⟩)
  rw [hspans] at hstands
  simp only [List.forall_mem_cons] at hstands
  obtain ⟨⟨e, he, hx⟩, ⟨e', he', hnull⟩, -⟩ := hstands
  have hparse : Expr.parse (Span.expression ⟨"n=".toList, " x ".toList⟩) = .ok (.path ⟨"x", []⟩) := by cbv
  have hparse' : Expr.parse (Span.expression ⟨", ".toList, " null ".toList⟩) = .ok (.literal .null) := by cbv
  obtain rfl := Except.ok.inj (hparse.symm.trans he)
  obtain rfl := Except.ok.inj (hparse'.symm.trans he')
  refine ⟨text, ?_, hnull.null rfl, hresolve⟩
  have hadded := hx.added (.ofNat 3) (by cbv) (by simp [Value.ofNat])
  have htext : (Expr.binary .concat (.literal (.str "")) (.path ⟨"x", []⟩)).eval (Scope.ofValue (.obj [("x", .ofNat 3)])) =
      some (.str "3") := by
    cbv
  exact (Value.str.inj (Option.some.inj (htext.symm.trans hadded))).symm

end Template

end Runbook
