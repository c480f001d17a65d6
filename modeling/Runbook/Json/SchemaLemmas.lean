import Runbook.Json.Schema
import Runbook.Json.Depth

/-!
# What records inherit from their documents

A property that every field keeps, given something about its document, holds of the record that is read
(`Schema.decode_induction`).
-/

namespace Runbook

namespace Field

/-- A field that is read is set to what its content is read as. -/
theorem of_read_ok {name : String} {presence : Presence} {item : Decoder β} {set : β → α → α} {d : Document} {a a' : α}
    (h : (of name presence item set).read d a = .ok a') : ∃ b, item d = .ok b ∧ a' = set b a := by
  simp only [of] at h
  cases hb : item d with
  | error e => rw [hb] at h; cases h
  | ok b => rw [hb] at h; cases h; exact ⟨b, rfl, rfl⟩

end Field

namespace Schema

variable {s : Schema α} {P : α → Prop} {Q : Document → Prop}

/-- What every field keeps, reading the fields of an object one after the other keeps. -/
theorem readFields_induction (hf : ∀ f ∈ s.fields, ∀ d a a', Q d → P a → f.read d a = .ok a' → P a')
    (fields : List (String × Document)) (hq : ∀ k d, (k, d) ∈ fields → Q d) :
    ∀ seen record r, P record → s.readFields seen record fields = .ok r → P r.2 := by
  induction fields with
  | nil =>
    intro seen record r hp h
    simp only [readFields, Except.ok.injEq] at h
    subst h
    exact hp
  | cons e rest ih =>
    obtain ⟨key, d⟩ := e
    intro seen record r hp h
    unfold readFields at h
    split at h
    · cases h
    · rename_i field hfield
      split at h
      · cases h
      · have hmem : field ∈ s.fields := List.mem_of_find?_eq_some hfield
        cases hr : field.read d record with
        | error e => rw [hr] at h; cases h
        | ok record' =>
          rw [hr] at h
          have hp' := hf field hmem d record record' (hq key d (by simp)) hp hr
          exact ih (fun k d hkd => hq k d (by simp [hkd])) _ _ r hp' h

/-- What every field keeps, reading a record that is written as a list keeps. -/
theorem readItems_induction (hf : ∀ f ∈ s.fields, ∀ d a a', Q d → P a → f.read d a = .ok a' → P a')
    (closed : Bool) (fields : List (Field α)) (hsub : ∀ f ∈ fields, f ∈ s.fields) :
    ∀ items count record r, (∀ d ∈ items, Q d) → P record →
      s.readItems closed count record fields items = .ok r → P r.1 := by
  induction fields with
  | nil =>
    intro items count record r _ hp h
    simp only [readItems, Except.ok.injEq] at h
    subst h
    exact hp
  | cons field fields ih =>
    intro items count record r hq hp h
    have ih := ih fun f hf => hsub f (by simp [hf])
    cases items with
    | nil =>
      unfold readItems at h
      split at h
      · cases h
      · split at h
        · cases h
        · exact ih _ _ _ r hq hp h
    | cons d rest =>
      unfold readItems at h
      cases hr : field.read d record with
      | error e => rw [hr] at h; cases h
      | ok record' =>
        rw [hr] at h
        have hp' := hf field (hsub field (by simp)) d record record' (hq d (by simp)) hp hr
        exact ih rest _ _ r (fun d hd => hq d (by simp [hd])) hp' h

/-- A property of the initial record that every field keeps holds of each record that is read, when the documents of the fields
have what the fields need. -/
theorem decode_induction (hf : ∀ f ∈ s.fields, ∀ d a a', Q d → P a → f.read d a = .ok a' → P a') (hinit : P s.initial)
    {d : Document} {a : α} (hitems : ∀ items closed, d = .arr items closed → ∀ e ∈ items, Q e)
    (hfields : ∀ fields closed, d = .obj fields closed → ∀ k e, (k, e) ∈ fields → Q e) (h : s.decode d = .ok a) : P a := by
  unfold decode at h
  split at h
  · rename_i fields closed
    cases hr : s.readFields [] s.initial fields with
    | error e => rw [hr] at h; cases h
    | ok r =>
      rw [hr] at h
      have hp := readFields_induction hf fields (hfields fields closed rfl) _ _ r hinit hr
      obtain ⟨seen, record⟩ := r
      simp only [bind, Except.bind] at h
      split at h
      · cases h
      · split at h
        · cases h
        · cases h; exact hp
  · rename_i items closed
    cases hr : s.readItems closed 0 s.initial s.fields items with
    | error e => rw [hr] at h; cases h
    | ok r =>
      rw [hr] at h
      have hp := readItems_induction hf closed s.fields (fun _ h => h) items 0 _ r (hitems items closed rfl) hinit hr
      obtain ⟨record, rest⟩ := r
      simp only [bind, Except.bind] at h
      split at h
      · cases h
      · split at h
        · cases h; exact hp
        · cases h
  · unfold Decoder.mismatch at h
    split at h <;> cases h

end Schema

namespace Decoder

/-- What a decoder of values gives is the value of the document. -/
theorem value_ok {d : Document} {v : Value} (h : value d = .ok v) : d.value? = some v := by
  unfold value at h
  split at h
  · cases h; assumption
  · cases h

/-- What items are read as is what one of them each is read as. -/
theorem mapM_ok_mem {item : β → Except DecodeError α} {items : List β} {as : List α} (h : items.mapM item = .ok as) :
    ∀ a ∈ as, ∃ d ∈ items, item d = .ok a := by
  induction items generalizing as with
  | nil =>
    simp only [List.mapM_nil, pure, Except.pure, Except.ok.injEq] at h
    subst h
    simp
  | cons d ds ih =>
    rw [List.mapM_cons] at h
    cases hd : item d with
    | error e => rw [hd] at h; cases h
    | ok b =>
      rw [hd] at h
      cases hds : ds.mapM item with
      | error e => rw [hds] at h; cases h
      | ok bs =>
        rw [hds] at h
        cases h
        intro a ha
        cases ha with
        | head => exact ⟨d, by simp, hd⟩
        | tail _ ha =>
          obtain ⟨e, he, hea⟩ := ih hds a ha
          exact ⟨e, by simp [he], hea⟩

/-- Every item of a list was read from an item of the array. -/
theorem list_ok {item : Decoder α} {d : Document} {as : List α} (h : list item d = .ok as) :
    ∃ items closed, d = .arr items closed ∧ ∀ a ∈ as, ∃ e ∈ items, item e = .ok a := by
  unfold list at h
  split at h
  · rename_i items closed
    refine ⟨items, closed, rfl, ?_⟩
    cases hm : items.mapM item with
    | error e => rw [hm] at h; cases h
    | ok bs =>
      rw [hm] at h
      simp only [bind, Except.bind] at h
      split at h
      · cases h; exact mapM_ok_mem hm
      · cases h
  · unfold mismatch at h
    split at h <;> cases h

/-- Every entry was read from an entry of the object with its key. -/
theorem entries_ok {item : Decoder α} {d : Document} {as : List (String × α)} (h : entries item d = .ok as) :
    ∃ fields closed, d = .obj fields closed ∧ ∀ a ∈ as, ∃ e, (a.1, e) ∈ fields ∧ item e = .ok a.2 := by
  unfold entries at h
  split at h
  · rename_i fields closed
    refine ⟨fields, closed, rfl, ?_⟩
    change (fields.mapM fun f => (f.1, ·) <$> item f.2) >>= _ = _ at h
    cases hm : fields.mapM fun f => (f.1, ·) <$> item f.2 with
    | error e => rw [hm] at h; cases h
    | ok bs =>
      rw [hm] at h
      simp only [bind, Except.bind] at h
      split at h
      · cases h
        intro a ha
        obtain ⟨e, he, hread⟩ := mapM_ok_mem hm a ha
        cases hitem : item e.2 with
        | error _ => rw [hitem] at hread; cases hread
        | ok b =>
          rw [hitem] at hread
          cases hread
          exact ⟨e.2, he, hitem⟩
      · cases h
  · unfold mismatch at h
    split at h <;> cases h

/-- A value that is there was read from a document other than null. -/
theorem option_ok {item : Decoder α} {d : Document} {a : α} (h : option item d = .ok (some a)) : d ≠ .null ∧ item d = .ok a := by
  unfold option at h
  split at h
  · cases h
  · rename_i hd
    cases hitem : item d with
    | error e => rw [hitem] at h; cases h
    | ok b =>
      rw [hitem] at h
      cases h
      exact ⟨fun heq => hd heq, rfl⟩

end Decoder

end Runbook
