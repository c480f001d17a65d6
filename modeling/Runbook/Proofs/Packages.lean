import Mathlib
import Runbook.Audit.Package
import Runbook.Proofs.Tables

/-!
# What the audit of a package finds

Every program in the tree of a package is a finding of its own, wherever it stands, unless one of the directories above it is left out; then
come the scripts of `package.json` that run by themselves. The paths of the programs are counted by the tree, so no two of them are the same
one, and what is reported is these paths in the order in which they are written.
-/

namespace Runbook

/-! ## Paths in a tree -/

namespace FileTree

/-- A tree as it is on a disk: no two entries of a directory have the same name. -/
inductive Proper : FileTree → Prop
  | file {text : String} : Proper (.file text)
  | dir {entries : List (String × FileTree)} (names : (Keyed.keys entries).Nodup) (below : ∀ e ∈ entries, Proper e.2) :
      Proper (.dir entries)

/-- A directory is proper exactly if its names differ and its entries are proper. -/
theorem proper_dir_iff {entries : List (String × FileTree)} :
    (dir entries).Proper ↔ (Keyed.keys entries).Nodup ∧ ∀ e ∈ entries, e.2.Proper :=
  ⟨fun | .dir names below => ⟨names, below⟩, fun ⟨names, below⟩ => .dir names below⟩

/-- What the names of a path lead to, one directory after the other. -/
inductive At : FileTree → List String → FileTree → Prop
  | here {t : FileTree} : At t [] t
  | entry {entries : List (String × FileTree)} {name : String} {t u : FileTree} {path : List String} (h : (name, t) ∈ entries)
      (below : At t path u) : At (.dir entries) (name :: path) u

end FileTree

/-- A file name with an extension: something that may hold dots, a dot, and the extension, whatever the case of its letters. -/
def Path.HasExtension (name ext : String) : Prop :=
  ∃ stem ending, name.toList = stem ++ '.' :: ending ∧ stem ≠ [] ∧ '.' ∉ ending ∧ ending.map Char.toLower = ext.toList.map Char.toLower

namespace Package

/-- The path leads to a file with the extension of a program, through directories none of which is left out. -/
structure IsProgram (t : FileTree) (path : List String) : Prop where
  file : ∃ text, t.At path (.file text)
  extension : ∃ name ∈ path.getLast?, ∃ ext ∈ executableExtensions, Path.HasExtension name ext
  visible : ∀ name ∈ path.dropLast, name ∉ skippedDirectories

/-! ## Extensions -/

/-- The extension of a name is what follows its last dot, unless nothing stands before it. -/
theorem nameExtension?_eq_some {name ending : String} :
    Path.nameExtension? name = some ending ↔ ∃ stem, name.toList = stem ++ '.' :: ending.toList ∧ stem ≠ [] ∧ '.' ∉ ending.toList := by
  unfold Path.nameExtension?
  rw [List.span_eq_takeWhile_dropWhile]
  constructor
  · intro h
    split at h
    · cases h
    · cases h
    · rename_i before behind hnil hone heq
      obtain ⟨hbefore, hbehind⟩ := Prod.mk.inj heq
      obtain rfl := Option.some.inj h
      have hname : name.toList = behind.reverse ++ before.reverse := by
        rw [← List.reverse_append, ← hbefore, ← hbehind, List.takeWhile_append_dropWhile, List.reverse_reverse]
      have hdot : '.' ∉ before := fun hmem => by
        have := List.mem_takeWhile_imp (hbefore ▸ hmem)
        simp at this
      cases behind with
      | nil => exact (hnil rfl).elim
      | cons c stem =>
        have hc : c = '.' := by
          have := List.head?_dropWhile_not (· != '.') name.toList.reverse
          rw [hbehind] at this
          simpa using this
        subst hc
        refine ⟨stem.reverse, by simpa using hname, ?_, by simpa using hdot⟩
        intro hstem
        exact hone '.' (by rw [List.reverse_eq_nil_iff.mp hstem])
  · rintro ⟨stem, hname, hstem, hdot⟩
    have hplain : ∀ c ∈ ending.toList.reverse, (c != '.') = true := by
      intro c hc
      have : c ≠ '.' := fun h => hdot (h ▸ List.mem_reverse.mp hc)
      simpa using this
    have hrev : name.toList.reverse = ending.toList.reverse ++ '.' :: stem.reverse := by
      rw [hname]
      simp
    rw [hrev, List.takeWhile_append_of_pos hplain, List.dropWhile_append_of_pos hplain]
    obtain ⟨c, rest, hrest⟩ := List.exists_cons_of_ne_nil (mt List.reverse_eq_nil_iff.mp hstem)
    simp [hrest]

/-- A name is executable exactly if it has one of the extensions. -/
theorem isExecutable_iff {name : String} : isExecutable name = true ↔ ∃ ext ∈ executableExtensions, Path.HasExtension name ext := by
  have hlower : ∀ ext ∈ executableExtensions, ext.toList.map Char.toLower = ext.toList := by decide
  rw [isExecutable, Option.any_eq_true]
  constructor
  · rintro ⟨ending, hending, hmem⟩
    obtain ⟨stem, hname, hstem, hdot⟩ := nameExtension?_eq_some.mp hending
    have hext : String.ofList (ending.toList.map Char.toLower) ∈ executableExtensions := List.contains_iff_mem.mp hmem
    exact ⟨_, hext, stem, ending.toList, hname, hstem, hdot, by rw [hlower _ hext, String.toList_ofList]⟩
  · rintro ⟨ext, hext, stem, ending, hname, hstem, hdot, heq⟩
    refine ⟨String.ofList ending, nameExtension?_eq_some.mpr ⟨stem, by simpa using hname, hstem, by simpa using hdot⟩, ?_⟩
    rw [String.toList_ofList, heq, hlower ext hext, String.ofList_toList]
    exact List.contains_iff_mem.mpr hext

example : isExecutable "setup.min.SH" = true ∧ isExecutable ".js" = false ∧ isExecutable "js" = false ∧ isExecutable "run.sh." = false := by
  decide

/-! ## The programs of a tree -/

mutual

/-- The paths of the programs in a tree of some name, as names. -/
def programs (name : String) : FileTree → List (List String)
  | .file _ => if isExecutable name then [[name]] else []
  | .dir entries => if skippedDirectories.contains name then [] else (programsOf entries).map (name :: ·)

/-- The paths of the programs among the entries of a directory. -/
def programsOf : List (String × FileTree) → List (List String)
  | [] => []
  | (name, t) :: rest => programs name t ++ programsOf rest

end

variable {name : String} {path rest : List String} {t : FileTree} {entries : List (String × FileTree)}

theorem not_isProgram_nil : ¬IsProgram t [] := by
  rintro ⟨-, ⟨name, hname, -⟩, -⟩
  cases hname

/-- An entry of a directory leads to a program, as the rest of the path says. -/
def LeadsOn (name : String) (rest : List String) : FileTree → Prop
  | .file _ => rest = [] ∧ isExecutable name = true
  | .dir entries => name ∉ skippedDirectories ∧ IsProgram (.dir entries) rest

/-- The programs of a directory are those below its entries. -/
theorem isProgram_cons : IsProgram (.dir entries) (name :: rest) ↔ ∃ t, (name, t) ∈ entries ∧ LeadsOn name rest t := by
  constructor
  · rintro ⟨⟨text, hat⟩, hext, hvisible⟩
    cases hat with
    | @entry _ _ t _ _ hmem hbelow =>
      refine ⟨t, hmem, ?_⟩
      cases hbelow with
      | here => exact ⟨rfl, isExecutable_iff.mpr (by simpa using hext)⟩
      | entry hmem' hbelow =>
        obtain ⟨hname, hvisible⟩ := List.forall_mem_cons.mp hvisible
        exact ⟨hname, ⟨text, .entry hmem' hbelow⟩, by simpa using hext, hvisible⟩
  · rintro ⟨t, hmem, hleads⟩
    cases t with
    | file text =>
      obtain ⟨rfl, hname⟩ := hleads
      exact ⟨⟨text, .entry hmem .here⟩, by simpa using isExecutable_iff.mp hname, List.forall_mem_nil _⟩
    | dir below =>
      obtain ⟨hname, hprogram⟩ := hleads
      cases rest with
      | nil => exact absurd hprogram not_isProgram_nil
      | cons next rest =>
        obtain ⟨⟨text, hat⟩, hext, hvisible⟩ := hprogram
        exact ⟨⟨text, .entry hmem hat⟩, by simpa using hext, List.forall_mem_cons.mpr ⟨hname, hvisible⟩⟩

mutual

/-- The programs below an entry are the paths that lead on from it. -/
theorem mem_programs : (t : FileTree) → (name : String) → (path : List String) →
    (path ∈ programs name t ↔ ∃ rest, path = name :: rest ∧ LeadsOn name rest t)
  | .file _, name, path => by
    rw [programs]
    split <;> simp [LeadsOn, *]
  | .dir entries, name, path => by
    rw [programs]
    split
    · rename_i hskipped
      simp [LeadsOn, List.contains_iff_mem.mp hskipped]
    · rename_i hkept
      have hname : name ∉ skippedDirectories := mt List.contains_iff_mem.mpr hkept
      simp only [List.mem_map, mem_programsOf entries, LeadsOn]
      exact ⟨fun ⟨rest, h, heq⟩ => ⟨rest, heq.symm, hname, h⟩, fun ⟨rest, heq, _, h⟩ => ⟨rest, h, heq.symm⟩⟩

/-- The paths that are listed are those of the programs. -/
theorem mem_programsOf : (entries : List (String × FileTree)) → (path : List String) →
    (path ∈ programsOf entries ↔ IsProgram (.dir entries) path)
  | [], path => by
    cases path with
    | nil => simp [programsOf, not_isProgram_nil]
    | cons name rest => simp [programsOf, isProgram_cons]
  | (name, t) :: entries, path => by
    rw [programsOf, List.mem_append, mem_programs t, mem_programsOf entries]
    cases path with
    | nil => simp [not_isProgram_nil]
    | cons first rest =>
      rw [isProgram_cons, isProgram_cons]
      constructor
      · rintro (⟨rest', heq, h⟩ | ⟨u, hu, h⟩)
        · obtain ⟨rfl, rfl⟩ := List.cons.inj heq
          exact ⟨t, List.mem_cons_self, h⟩
        · exact ⟨u, List.mem_cons_of_mem _ hu, h⟩
      · rintro ⟨u, hu, h⟩
        rcases List.mem_cons.mp hu with heq | hu
        · obtain ⟨rfl, rfl⟩ := Prod.mk.inj heq
          exact Or.inl ⟨rest, rfl, h⟩
        · exact Or.inr ⟨u, hu, h⟩

end

mutual

/-- No program below a proper entry is listed twice. -/
theorem nodup_programs : (t : FileTree) → (name : String) → t.Proper → (programs name t).Nodup
  | .file _, name, _ => by
    rw [programs]
    split <;> simp
  | .dir entries, name, h => by
    rw [programs]
    split
    · exact List.nodup_nil
    · exact (nodup_programsOf entries h).map List.cons_injective

/-- No path is listed twice: those through an entry begin with its name, and no others do. -/
theorem nodup_programsOf : (entries : List (String × FileTree)) → (FileTree.dir entries).Proper → (programsOf entries).Nodup
  | [], _ => List.nodup_nil
  | (name, t) :: entries, h => by
    obtain ⟨hnames, hbelow⟩ := FileTree.proper_dir_iff.mp h
    obtain ⟨hname, hnames⟩ := List.nodup_cons.mp hnames
    obtain ⟨ht, hbelow⟩ := List.forall_mem_cons.mp hbelow
    refine List.nodup_append.mpr ⟨nodup_programs t name ht, nodup_programsOf entries (.dir hnames hbelow), ?_⟩
    rintro path hpath _ hpath' rfl
    obtain ⟨rest, rfl, -⟩ := (mem_programs t name path).mp hpath
    obtain ⟨u, hu, -⟩ := isProgram_cons.mp ((mem_programsOf entries _).mp hpath')
    exact hname (List.mem_map.mpr ⟨_, hu, rfl⟩)

end

/-! ## Paths as texts -/

/-- A path as text. -/
def pathText (path : List String) : String := "/".intercalate path

/-- A path is written with a slash behind its first name. -/
theorem pathText_cons (h : path ≠ []) : pathText (name :: path) = name ++ "/" ++ pathText path := by
  obtain ⟨next, rest, rfl⟩ := List.exists_cons_of_ne_nil h
  exact String.intercalate_cons_cons

mutual

/-- The programs that are listed are these, with the path of their directory in front. -/
theorem executables_eq (path name : String) :
    (t : FileTree) → executables (path ++ name) name t = (programs name t).map fun p => path ++ pathText p
  | .file _ => by
    rw [executables, programs]
    split
    · simp [pathText]
    · rfl
  | .dir entries => by
    rw [executables, programs]
    split
    · rfl
    · rw [executablesOf_eq, List.map_map]
      refine List.map_congr_left fun p hp => ?_
      have hne : p ≠ [] := fun h => not_isProgram_nil (h ▸ (mem_programsOf entries p).mp hp)
      rw [Function.comp_apply, pathText_cons hne]
      simp only [String.append_assoc]

/-- The executables of entries are the paths of their programs. -/
theorem executablesOf_eq (path : String) :
    (entries : List (String × FileTree)) → executablesOf path entries = (programsOf entries).map fun p => path ++ pathText p
  | [] => rfl
  | (name, t) :: rest => by rw [executablesOf, programsOf, executables_eq, executablesOf_eq path rest, List.map_append]

end

/-! ## What is reported -/

/-- The path of a program as it is reported. -/
def shownPath (path : List String) : String := displayPath (pathText path)

/-- The finding on a program. -/
def programFinding (path : List String) : Finding :=
  ⟨.critical, s!"package contains executable file '{shownPath path}'", none⟩

/-- The finding on a script that runs by itself. -/
def scriptFinding (name : String) : Finding := ⟨.critical, s!"package.json declares a '{name}' lifecycle script", none⟩

/-- The `package.json` of a package is JSON and has an object under `scripts` in which there is a script of this name. -/
def Declares (entries : List (String × FileTree)) (name : String) : Prop :=
  ∃ text v scripts, Keyed.get? entries "package.json" = some (.file text) ∧ Json.parse? text = some v ∧
    v.get? "scripts" = some (.obj scripts) ∧ name ∈ Keyed.keys scripts

/-- The findings on programs are those on all paths that lead to one, each once, in the order of the paths. -/
theorem exists_programFindings (h : (FileTree.dir entries).Proper) : ∃ files : List (List String), files.Nodup ∧
    (∀ path, path ∈ files ↔ IsProgram (.dir entries) path) ∧ (files.map shownPath).Pairwise (· ≤ ·) ∧
    programFindings entries = files.map programFinding := by
  let le (p q : List String) : Bool := decide (shownPath p ≤ shownPath q)
  have hsorted : ((programsOf entries).mergeSort le).map shownPath =
      ((programsOf entries).map shownPath).mergeSort fun a b => decide (a ≤ b) := List.map_mergeSort fun p _ q _ => rfl
  have hperm : ((programsOf entries).mergeSort le).Perm (programsOf entries) := List.mergeSort_perm _ _
  refine ⟨(programsOf entries).mergeSort le, hperm.nodup_iff.mpr (nodup_programsOf entries h), fun path => ?_, ?_, ?_⟩
  · rw [hperm.mem_iff, mem_programsOf]
  · rw [hsorted]
    refine (List.pairwise_mergeSort ?_ ?_ _).imp of_decide_eq_true
    · intro a b c hab hbc
      exact decide_eq_true ((of_decide_eq_true hab).trans (of_decide_eq_true hbc))
    · intro a b
      simpa using le_total a b
  · have hshown : (executablesOf "" entries).map displayPath = (programsOf entries).map shownPath := by
      rw [executablesOf_eq, List.map_map]
      exact List.map_congr_left fun p _ => by simp [shownPath]
    rw [programFindings, hshown, ← hsorted, List.map_map]
    rfl

/-- The findings on scripts are those on the declared ones that run by themselves. -/
theorem scriptFindings_eq (text : String) : ∃ scripts : List String, scripts.Sublist lifecycleScripts ∧
    (∀ name, name ∈ scripts ↔ name ∈ lifecycleScripts ∧ ∃ v fields, Json.parse? text = some v ∧ v.get? "scripts" = some (.obj fields) ∧
      name ∈ Keyed.keys fields) ∧ scriptFindings text = scripts.map scriptFinding := by
  unfold scriptFindings
  split
  · rename_i fields hfields
    obtain ⟨v, hv, hfields⟩ := Option.bind_eq_some_iff.mp hfields
    refine ⟨_, List.filter_sublist, fun name => ?_, rfl⟩
    rw [List.mem_filter, List.contains_iff_mem]
    refine and_congr_right fun _ => ⟨fun h => ⟨v, fields, hv, hfields, h⟩, ?_⟩
    rintro ⟨v', fields', hv', hfields', h⟩
    obtain rfl := Option.some.inj (hv.symm.trans hv')
    obtain rfl := Value.obj.inj (Option.some.inj (hfields.symm.trans hfields'))
    exact h
  · rename_i hnone
    refine ⟨[], List.nil_sublist _, fun name => ?_, rfl⟩
    simp only [List.not_mem_nil, false_iff, not_and, not_exists]
    intro _ v fields hv hfields
    exact absurd (by rw [hv, Option.bind_some, hfields]) (hnone fields)

/-- The audit of a package whose `package.json`, if there is one, is a file. Every program, at whatever place it stands, has one critical
finding, in the order of the paths; no other file has one; and behind them there is one for each script that runs by itself and is declared. -/
theorem audit_complete {root : FileTree} {path : String} {entries : List (String × FileTree)}
    (hfind : root.find? path = some (.dir entries)) (hproper : (FileTree.dir entries).Proper)
    (hmanifest : ∀ t, Keyed.get? entries "package.json" = some t → t.isFile = true) :
    ∃ (files : List (List String)) (scripts : List String),
      audit root path = .ok (files.map programFinding ++ scripts.map scriptFinding) ∧
      files.Nodup ∧ (∀ p, p ∈ files ↔ IsProgram (.dir entries) p) ∧ (files.map shownPath).Pairwise (· ≤ ·) ∧
      scripts.Sublist lifecycleScripts ∧ ∀ name, name ∈ scripts ↔ name ∈ lifecycleScripts ∧ Declares entries name := by
  obtain ⟨files, hnodup, hfiles, hsorted, hfindings⟩ := exists_programFindings hproper
  rw [audit, hfind]
  dsimp only
  cases hget : Keyed.get? entries "package.json" with
  | none =>
    refine ⟨files, [], by simp [hfindings], hnodup, hfiles, hsorted, List.nil_sublist _, fun name => ?_⟩
    simp [Declares, hget]
  | some t =>
    cases t with
    | dir _ => exact absurd (hmanifest _ hget) Bool.false_ne_true
    | file text =>
      obtain ⟨scripts, hscripts, hmem, hfound⟩ := scriptFindings_eq text
      refine ⟨files, scripts, by simp only [hfindings, hfound], hnodup, hfiles, hsorted, hscripts, fun name => ?_⟩
      simp [hmem, Declares, hget]

/-- A package with programs beside and below a directory of dependencies, and with a name that is no extension. -/
def samplePackage : List (String × FileTree) :=
  [(".js", .file ""), ("lib", .dir [("node_modules", .dir [("dep.js", .file "")]), ("setup.min.SH", .file "")]),
    ("package.json", .file "\x7b\"scripts\": \x7b\"test\": \"a\", \"install\": \"b\"\x7d\x7d")]

/-- The audit of the sample finds its programs and its scripts. -/
theorem audit_complete_of_sample :
    ((FileTree.dir samplePackage).find? "/" = some (.dir samplePackage) ∧ (FileTree.dir samplePackage).Proper ∧
      ∀ t, Keyed.get? samplePackage "package.json" = some t → t.isFile = true) ∧
    ∃ (files : List (List String)) (scripts : List String),
      audit (.dir samplePackage) "/" = .ok (files.map programFinding ++ scripts.map scriptFinding) ∧
      files.Nodup ∧ (∀ p, p ∈ files ↔ IsProgram (.dir samplePackage) p) ∧ (files.map shownPath).Pairwise (· ≤ ·) ∧
      scripts.Sublist lifecycleScripts ∧ ∀ name, name ∈ scripts ↔ name ∈ lifecycleScripts ∧ Declares samplePackage name := by
  have hfind : (FileTree.dir samplePackage).find? "/" = some (.dir samplePackage) := by cbv
  have hproper : (FileTree.dir samplePackage).Proper := by
    simp [samplePackage, FileTree.proper_dir_iff, Keyed.keys, FileTree.Proper.file]
  have hmanifest : ∀ t, Keyed.get? samplePackage "package.json" = some t → t.isFile = true := by
    rintro t ⟨⟩
    rfl
  exact ⟨⟨hfind, hproper, hmanifest⟩, audit_complete hfind hproper hmanifest⟩

end Package

end Runbook
