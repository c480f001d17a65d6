import Runbook.Audit.Policy
import Runbook.Proofs.Fragments

/-!
# What the denylist denies

An entry of the denylist denies the host that it names and every host below it. It names what is left of it without blanks and then brackets
around it; the dots at the end of a host are cut off before it is compared, but those at the end of an entry are not. So an entry with a dot
at its end denies nothing, and one with blanks inside of its brackets names something else than what stands between the blanks.
-/

namespace Runbook.AuditPolicy

/-! ## Entries and hosts -/

/-- What an entry names: it is without the blanks around it, and then without brackets around it. -/
def bare (s : String) : List Char := Text.dropEnds isBracket isBracket (Text.trimChars s.toList)

def isAround (c : Char) : Bool := Text.isBlank c || isBracket c

def isBehind (c : Char) : Bool := isAround c || c = '.'

/-- What an entry is meant to name: it is without any blanks and brackets around it, and without dots at its end. -/
def core (s : String) : List Char := Text.dropEnds isAround isBehind s.toList

/-- A host without the dots at its end. -/
def undotted (s : String) : List Char := Text.dropEndWhile (· = '.') s.toList

/-- A name denies a host if it is not empty and the host has this name or lies below it, whatever the case of the letters. -/
def Denies (name : List Char) (host : String) : Prop :=
  name ≠ [] ∧ ((undotted host).map Char.toLower = name.map Char.toLower ∨
    ∃ below, (undotted host).map Char.toLower = below ++ '.' :: name.map Char.toLower)

/-- A host matches an entry exactly if it is the entry or ends with a dot and the entry. -/
theorem matchesEntry_iff {entry host : List Char} :
    matchesEntry entry host = true ↔ host = entry ∨ ∃ below, host = below ++ '.' :: entry := by
  rw [matchesEntry, Bool.or_eq_true, beq_iff_eq, List.isSuffixOf_iff_suffix]
  exact or_congr_right (exists_congr fun below => eq_comm)

/-- A host is denied if what an entry names denies it. -/
theorem isDeniedHost_iff {p : AuditPolicy} {host : String} :
    p.isDeniedHost host = true ↔ ∃ s ∈ p.allDeniedHosts, Denies (bare s) host := by
  have hentry (s : String) : entryOf s = (bare s).map Char.toLower := rfl
  have hhost : hostOf host = (undotted host).map Char.toLower := rfl
  simp only [isDeniedHost, entries, List.any_eq_true, List.mem_filter, List.mem_map, matchesEntry_iff, hhost, Denies]
  constructor
  · rintro ⟨_, ⟨⟨s, hs, rfl⟩, hne⟩, hdenied⟩
    refine ⟨s, hs, ?_, hdenied⟩
    intro hbare
    simp [hentry, hbare] at hne
  · rintro ⟨s, hs, hne, hdenied⟩
    exact ⟨_, ⟨⟨s, hs, rfl⟩, by simp [hentry, hne]⟩, hdenied⟩

/-! ## What is cut off -/

/-- What is left of a text that is cut from its end does not end with what is to be cut. -/
theorem getLast?_dropEndWhile {p : Char → Bool} {s : List Char} : ∀ c ∈ (Text.dropEndWhile p s).getLast?, p c = false := by
  intro c hc
  rw [Text.dropEndWhile, List.getLast?_reverse] at hc
  have hhead := List.head?_dropWhile_not p s.reverse
  rw [Option.mem_def.mp hc] at hhead
  simpa using hhead

/-- Nothing is cut off the end of a text that does not end with what would be cut off. -/
theorem dropEndWhile_eq_self {p : Char → Bool} {s : List Char} (h : ∀ c ∈ s.getLast?, p c = false) : Text.dropEndWhile p s = s := by
  rcases List.eq_nil_or_concat s with rfl | ⟨s, c, rfl⟩
  · rfl
  · have hc := h c (by simp)
    simp [Text.dropEndWhile, hc]

/-- Around what an entry names there are blanks and brackets only. -/
theorem exists_bare (s : String) :
    ∃ w w', (∀ c ∈ w, isAround c = true) ∧ (∀ c ∈ w', isAround c = true) ∧ s.toList = w ++ (bare s ++ w') := by
  obtain ⟨w, w', hw, hw', hs⟩ := Text.exists_trimChars s.toList
  obtain ⟨v, v', hv, hv', hinner⟩ := Text.exists_dropEnds isBracket isBracket (Text.trimChars s.toList)
  rw [← bare] at hinner
  have haround {w v : List Char} (hw : Text.Blank w) (hv : ∀ c ∈ v, isBracket c = true) : ∀ c ∈ w ++ v, isAround c = true := by
    intro c hc
    rw [isAround, Bool.or_eq_true]
    exact (List.mem_append.mp hc).imp (hw c) (hv c)
  refine ⟨w ++ v, v' ++ w', haround hw hv, fun c hc => haround hw' hv' c (List.mem_append.mpr (List.mem_append.mp hc).symm), ?_⟩
  rw [hs, hinner]
  simp

/-- The bare host is a part of the host as it is written. -/
theorem bare_infix_toList (s : String) : bare s <:+: s.toList := by
  obtain ⟨w, w', -, -, hs⟩ := exists_bare s
  exact ⟨w, w', by rw [hs, List.append_assoc]⟩

/-- What an entry is meant to name is part of what it names. -/
theorem core_infix_bare (s : String) : core s <:+: bare s := by
  obtain ⟨v, v', hv, hv', hs⟩ := exists_bare s
  have hcore : core s = Text.dropEnds isAround isBehind (bare s) := by
    rw [core, hs, Text.dropEnds_append hv fun c hc => ⟨hv' c hc, by rw [isBehind, hv' c hc, Bool.true_or]⟩]
  obtain ⟨w, w', -, -, hbare⟩ := Text.exists_dropEnds isAround isBehind (bare s)
  rw [← hcore] at hbare
  exact ⟨w, w', by rw [List.append_assoc, ← hbare]⟩

/-! ## Which entries deny what they are meant to -/

/-- A name that does not end with a dot is its own undotted name. -/
theorem undotted_eq_self {name : List Char} (h : name.getLast? ≠ some '.') : undotted (String.ofList name) = name := by
  rw [undotted, String.toList_ofList]
  refine dropEndWhile_eq_self fun c hc => decide_eq_false ?_
  rintro rfl
  exact h hc

/-- A name that does not end with a dot denies the host of this name. -/
theorem denies_self {name : List Char} (hne : name ≠ []) (h : name.getLast? ≠ some '.') : Denies name (String.ofList name) :=
  ⟨hne, Or.inl (by rw [undotted_eq_self h])⟩

/-- The core of a host does not end with a dot. -/
theorem core_getLast?_ne (s : String) : (core s).getLast? ≠ some '.' := by
  intro hdot
  exact absurd (getLast?_dropEndWhile '.' hdot) (by decide)

theorem toLower_eq_dot {c : Char} (h : c.toLower = '.') : c = '.' := by
  unfold Char.toLower at h
  split at h
  · rename_i hupper
    obtain ⟨hlow, hhigh⟩ : 65 ≤ c.toNat ∧ c.toNat ≤ 90 := hupper
    have hval : (c.toNat + 32) % 2 ^ 32 = 46 := congrArg (·.val.toNat) h
    omega
  · exact h

/-- A name that ends with a dot denies nothing, because no host does when it is compared. -/
theorem not_denies_of_dot {name : List Char} (h : name.getLast? = some '.') (host : String) : ¬Denies name host := by
  have hlower : (name.map Char.toLower).getLast? = some '.' := by
    rw [List.getLast?_map, h]
    rfl
  have hhost : ((undotted host).map Char.toLower).getLast? ≠ some '.' := by
    intro hdot
    rw [List.getLast?_map, Option.map_eq_some_iff] at hdot
    obtain ⟨c, hc, hdot⟩ := hdot
    have hcut := getLast?_dropEndWhile c hc
    rw [toLower_eq_dot hdot] at hcut
    cases hcut
  rintro ⟨hne, heq | ⟨below, heq⟩⟩
  · exact hhost (heq ▸ hlower)
  · refine hhost ?_
    rw [heq, List.getLast?_append_cons, List.getLast?_cons, hlower]
    rfl

/-- A name that denies a host is not longer than the host. -/
theorem Denies.length_le {name : List Char} {host : String} (h : Denies name host) : name.length ≤ (undotted host).length := by
  rcases h.2 with heq | ⟨below, heq⟩
  · simpa using (congrArg List.length heq).ge
  · have hlength := congrArg List.length heq
    simp only [List.length_map, List.length_append, List.length_cons] at hlength
    omega

/-- An entry denies what it is meant to deny exactly if it names what it is meant to name, or if it names dots only. -/
theorem denies_core_iff (s : String) :
    (∀ host, Denies (bare s) host ↔ Denies (core s) host) ↔ bare s = core s ∨ core s = [] ∧ (bare s).getLast? = some '.' := by
  constructor
  · intro h
    by_cases hcore : core s = []
    · by_cases hdot : (bare s).getLast? = some '.'
      · exact Or.inr ⟨hcore, hdot⟩
      · refine Or.inl (by_contra fun hne => ?_)
        have hdenied := (h _).mp (denies_self (hcore ▸ hne) hdot)
        exact hdenied.1 hcore
    · have hdenied := (h _).mpr (denies_self hcore (core_getLast?_ne s))
      have hle := hdenied.length_le
      rw [undotted_eq_self (core_getLast?_ne s)] at hle
      exact Or.inl ((core_infix_bare s).eq_of_length_le hle).symm
  · rintro (heq | ⟨hcore, hdot⟩) host
    · rw [heq]
    · exact iff_of_false (not_denies_of_dot hdot host) fun hdenies => hdenies.1 hcore

/-- A host is denied exactly if an entry, without blanks and then brackets around it, is not empty and names the host or one above it. With
all blanks and brackets around an entry and dots at its end cut off, the same is so of a list whose entries have no more of them. An entry
denies what it would deny then exactly if it has no more of them, or if nothing is left of it and it denies nothing because of a dot at its
end; every entry with such a dot denies nothing. A listed host with nothing to be cut off is denied as it is listed. -/
theorem denied_iff_listed (p : AuditPolicy) :
    (∀ host, p.isDeniedHost host = true ↔ ∃ s ∈ p.allDeniedHosts, Denies (bare s) host) ∧
    ((∀ s ∈ p.allDeniedHosts, bare s = core s) → ∀ host, p.isDeniedHost host = true ↔ ∃ s ∈ p.allDeniedHosts, Denies (core s) host) ∧
    (∀ s, (∀ host, Denies (bare s) host ↔ Denies (core s) host) ↔ bare s = core s ∨ core s = [] ∧ (bare s).getLast? = some '.') ∧
    (∀ s host, (bare s).getLast? = some '.' → ¬Denies (bare s) host) ∧
    ∀ s ∈ p.allDeniedHosts, s ≠ "" → core s = s.toList → p.isDeniedHost s = true := by
  refine ⟨fun host => isDeniedHost_iff, fun h host => ?_, denies_core_iff, fun s host hdot => not_denies_of_dot hdot host,
    fun s hs hne hcore => ?_⟩
  · rw [isDeniedHost_iff]
    exact exists_congr fun s => and_congr_right fun hs => by rw [h s hs]
  · have hbare := (bare_infix_toList s).eq_of_length_le (hcore ▸ (core_infix_bare s).length_le)
    have hdot := hcore ▸ core_getLast?_ne s
    have hdenies := denies_self (mt String.toList_eq_nil_iff.mp hne) hdot
    rw [String.ofList_toList] at hdenies
    exact isDeniedHost_iff.mpr ⟨s, hs, by rwa [hbare]⟩

/-- The case of letters and a dot at the end of a host do not matter, and neither do blanks and brackets around an entry. -/
theorem denied_iff_listed_of_sample :
    { default with extraDeniedHosts := [" [Internal.Corp] "] : AuditPolicy }.isDeniedHost "wiki.INTERNAL.corp." = true ∧
      { default with extraDeniedHosts := [" [Internal.Corp] "] : AuditPolicy }.isDeniedHost "localhost" = true := by
  obtain ⟨hdenied, -, -, -, hlisted⟩ := denied_iff_listed { default with extraDeniedHosts := [" [Internal.Corp] "] }
  exact ⟨(hdenied _).mpr ⟨" [Internal.Corp] ", by decide, by decide, Or.inr ⟨"wiki".toList, by decide⟩⟩,
    hlisted "localhost" (by decide) (by decide) (by decide)⟩

/-- A host is listed with a dot at its end, and it is meant to be denied, but neither is it denied as it is listed, nor without the dot, nor
is a host below it. -/
theorem dotted_entry_denies_nothing :
    ("internal.corp." ∈ { default with extraDeniedHosts := ["internal.corp."] : AuditPolicy }.allDeniedHosts ∧
      ∀ host ∈ ["internal.corp.", "internal.corp", "wiki.internal.corp"], Denies (core "internal.corp.") host) ∧
      ∀ host ∈ ["internal.corp.", "internal.corp", "wiki.internal.corp"],
        { default with extraDeniedHosts := ["internal.corp."] : AuditPolicy }.isDeniedHost host = false := by
  refine ⟨⟨by decide, ?_⟩, by decide⟩
  simp only [List.forall_mem_cons]
  exact ⟨⟨by decide, Or.inl (by decide)⟩, ⟨by decide, Or.inl (by decide)⟩, ⟨by decide, Or.inr ⟨"wiki".toList, by decide⟩⟩, nofun⟩

end Runbook.AuditPolicy
