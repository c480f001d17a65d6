import Runbook.Proofs.Joining

/-!
# Configuration in layers

Every setting has the value that the last layer gives it, among the layers that still count for its section, or its default. A section counts
as long as it and the later ones are tables; one that is written as an array stands for all of its settings, also those it leaves out. Only
the severity that blocks a run may be written as a table itself, so it is the one setting about which layers can be in conflict.
-/

namespace Runbook

open Keyed Document

/-! ## The settings of each section -/

open Decoder in
def EngineSettings.settings : List (Setting EngineSettings) := [
  ⟨"max_concurrency", .defaulted, usize, fun v s => { s with maxConcurrency := v }, maxConcurrency, fun _ _ => rfl⟩,
  ⟨"loop_concurrency", .defaulted, usize, fun v s => { s with loopConcurrency := v }, loopConcurrency, fun _ _ => rfl⟩,
  ⟨"default_max_iterations", .defaulted, u64, fun v s => { s with defaultMaxIterations := v }, defaultMaxIterations, fun _ _ => rfl⟩,
  ⟨"step_timeout_ms", .nullable, option u64, fun v s => { s with stepTimeoutMs := v }, stepTimeoutMs, fun _ _ => rfl⟩]

/-- The schema of the engine has the settings of the engine, in order. -/
theorem EngineSettings.has_settings : schema.Has settings where
  fields := rfl
  apart := by
    simp only [settings, List.pairwise_cons, List.mem_cons, forall_eq_or_imp, List.not_mem_nil, false_imp_iff, implies_true,
      List.Pairwise.nil]
    and_intros <;> first | trivial | exact ⟨by decide, fun _ _ => rfl, fun _ _ => rfl⟩
  absent := by decide

/-- No setting of the engine is a table. -/
theorem EngineSettings.flat_settings : ∀ x ∈ settings, x.item.Flat := by
  simp only [settings, List.forall_mem_cons]
  and_intros <;> first | exact fun _ _ => ⟨_, rfl⟩ | exact fun x hx => absurd hx List.not_mem_nil

/-- The settings are all that there is to it. -/
theorem EngineSettings.eq_of_settings {a b : EngineSettings} (h : ∀ x ∈ settings, x.get a = x.get b) : a = b := by
  simp only [settings, List.forall_mem_cons] at h
  obtain ⟨h1, h2, h3, h4, -⟩ := h
  cases a
  cases b
  congr

open Decoder in
/-- The severity from which on findings block a run. -/
def AuditPolicy.blockOnSetting : Setting AuditPolicy :=
  ⟨"block_on", .defaulted, variant vacant (Severity.all.map fun s => (s.name, s)), fun v p => { p with blockOn := v }, blockOn,
    fun _ _ => rfl⟩

open Decoder in
def AuditPolicy.settings : List (Setting AuditPolicy) := [
  blockOnSetting,
  ⟨"max_iterations_ceiling", .defaulted, u64, fun v p => { p with maxIterationsCeiling := v }, maxIterationsCeiling, fun _ _ => rfl⟩,
  ⟨"denied_hosts", .defaulted, list string, fun v p => { p with deniedHosts := v }, deniedHosts, fun _ _ => rfl⟩,
  ⟨"extra_denied_hosts", .defaulted, list string, fun v p => { p with extraDeniedHosts := v }, extraDeniedHosts, fun _ _ => rfl⟩]

/-- The schema of the audit has the settings of the audit, in order. -/
theorem AuditPolicy.has_settings : (schema Decoder.vacant).Has settings where
  fields := rfl
  apart := by
    simp only [settings, List.pairwise_cons, List.mem_cons, forall_eq_or_imp, List.not_mem_nil, false_imp_iff, implies_true,
      List.Pairwise.nil]
    and_intros <;> first | trivial | exact ⟨by decide, fun _ _ => rfl, fun _ _ => rfl⟩
  absent := by decide

/-- Of all settings but the first, tables are not read. -/
theorem AuditPolicy.flat_settings : ∀ x ∈ settings.tail, x.item.Flat := by
  simp only [settings, List.tail_cons, List.forall_mem_cons]
  and_intros <;> first | exact fun _ _ => ⟨_, rfl⟩ | exact fun x hx => absurd hx List.not_mem_nil

/-- The settings of the audit can be joined. -/
theorem AuditPolicy.joins_settings : ∀ x ∈ settings, x.item.Joins := by
  refine List.forall_mem_cons.mpr ⟨Decoder.joins_variant fun c hc e he h => ?_, fun x hx => (flat_settings x hx).joins⟩
  obtain ⟨s, -, rfl⟩ := List.mem_map.mp hc
  obtain ⟨t, -, rfl⟩ := List.mem_map.mp he
  exact congrArg Severity.name h

/-- Policies that agree on all settings are the same. -/
theorem AuditPolicy.eq_of_settings {a b : AuditPolicy} (h : ∀ x ∈ settings, x.get a = x.get b) : a = b := by
  simp only [settings, List.forall_mem_cons] at h
  obtain ⟨h1, h2, h3, h4, -⟩ := h
  cases a
  cases b
  congr

open Decoder in
def HttpSettings.settings : List (Setting HttpSettings) := [
  ⟨"timeout", .defaulted, u64, fun v s => { s with timeout := v }, timeout, fun _ _ => rfl⟩,
  ⟨"max_retries", .defaulted, u32, fun v s => { s with maxRetries := v }, maxRetries, fun _ _ => rfl⟩,
  ⟨"initial_delay_ms", .defaulted, u64, fun v s => { s with initialDelayMs := v }, initialDelayMs, fun _ _ => rfl⟩,
  ⟨"max_delay_ms", .defaulted, u64, fun v s => { s with maxDelayMs := v }, maxDelayMs, fun _ _ => rfl⟩,
  ⟨"user_agent", .nullable, option string, fun v s => { s with userAgent := v }, userAgent, fun _ _ => rfl⟩]

/-- The schema of the client has the settings of the client, in order. -/
theorem HttpSettings.has_settings : schema.Has settings where
  fields := rfl
  apart := by
    simp only [settings, List.pairwise_cons, List.mem_cons, forall_eq_or_imp, List.not_mem_nil, false_imp_iff, implies_true,
      List.Pairwise.nil]
    and_intros <;> first | trivial | exact ⟨by decide, fun _ _ => rfl, fun _ _ => rfl⟩
  absent := by decide

/-- No setting of the client is a table. -/
theorem HttpSettings.flat_settings : ∀ x ∈ settings, x.item.Flat := by
  simp only [settings, List.forall_mem_cons]
  and_intros <;> first | exact fun _ _ => ⟨_, rfl⟩ | exact fun x hx => absurd hx List.not_mem_nil

/-- Settings of the client that agree on each of them are the same. -/
theorem HttpSettings.eq_of_settings {a b : HttpSettings} (h : ∀ x ∈ settings, x.get a = x.get b) : a = b := by
  simp only [settings, List.forall_mem_cons] at h
  obtain ⟨h1, h2, h3, h4, h5, -⟩ := h
  cases a
  cases b
  congr

namespace Config

/-- A section of the configuration with its settings. -/
structure Section where
  {Part : Type}
  name : String
  schema : Schema Part
  settings : List (Setting Part)
  has : schema.Has settings
  joins : ∀ x ∈ settings, x.item.Joins
  ext : ∀ a b : Part, (∀ x ∈ settings, x.get a = x.get b) → a = b
  set : Part → Config → Config
  get : Config → Part
  get_set : ∀ v c, get (set v c) = v
  get_default : get Config.default = schema.initial

/-- A section as a setting of the whole. -/
def Section.setting (part : Section) : Setting Config := ⟨part.name, .defaulted, part.schema.decode, part.set, part.get, part.get_set⟩

def engineSection : Section :=
  ⟨"engine", EngineSettings.schema, EngineSettings.settings, EngineSettings.has_settings,
    fun x hx => (EngineSettings.flat_settings x hx).joins, fun _ _ => EngineSettings.eq_of_settings,
    fun v c => { c with engine := v }, engine, fun _ _ => rfl, rfl⟩

def auditSection : Section :=
  ⟨"audit", AuditPolicy.schema Decoder.vacant, AuditPolicy.settings, AuditPolicy.has_settings, AuditPolicy.joins_settings,
    fun _ _ => AuditPolicy.eq_of_settings, fun v c => { c with audit := v }, audit, fun _ _ => rfl, rfl⟩

def httpSection : Section :=
  ⟨"http", HttpSettings.schema, HttpSettings.settings, HttpSettings.has_settings,
    fun x hx => (HttpSettings.flat_settings x hx).joins, fun _ _ => HttpSettings.eq_of_settings,
    fun v c => { c with http := v }, http, fun _ _ => rfl, rfl⟩

def sections : List Section := [engineSection, auditSection, httpSection]

/-- The schema of a configuration has a setting for every section, in order. -/
theorem has_sections : schema.Has (sections.map Section.setting) where
  fields := rfl
  apart := by
    simp only [sections, List.map_cons, List.map_nil, List.pairwise_cons, List.mem_cons, forall_eq_or_imp, List.not_mem_nil, false_imp_iff,
      implies_true, List.Pairwise.nil]
    and_intros <;> first | trivial | exact ⟨by decide, fun _ _ => rfl, fun _ _ => rfl⟩
  absent := by decide

/-! ## Layers -/

/-- The fields of the layers. -/
abbrev Layers := List (List (String × Document))

/-- What the layers that still count write of a setting, the last one last. -/
def Section.written (part : Section) (layers : Layers) (x : Setting part.Part) (place : Nat) : List Document :=
  x.written place (layers.filterMap (get? · part.name))

/-- Layers that still count write the severity that blocks a run as tables of different severities. -/
def Conflict (layers : Layers) : Prop :=
  AuditPolicy.blockOnSetting.item.Conflict (AuditPolicy.blockOnSetting.written 0 (layers.filterMap (get? · "audit")))

/-- Each layer can be read alone. -/
def Valid (layers : Layers) : Prop := ∀ l ∈ layers, Schema.Readable (sections.map Section.setting) l

/-- A configuration has each setting as the last of the layers that still count writes it, or its default if none of them does. -/
def LastWins (layers : Layers) (c : Config) : Prop :=
  ∀ part ∈ sections, ∀ (place : Nat) (x : Setting part.Part), part.settings[place]? = some x →
    x.Shows part.schema.initial (part.written layers x place).getLast? (part.get c)

variable {layers : Layers} {part : Section}

/-- Layers leave no choice of the configuration. -/
theorem LastWins.unique {c c' : Config} (h : LastWins layers c) (h' : LastWins layers c') : c = c' := by
  have hpart (part : Section) (hpart : part ∈ sections) : part.get c = part.get c' := by
    refine part.ext _ _ fun x hx => ?_
    obtain ⟨place, hplace⟩ := List.getElem?_of_mem hx
    exact (h part hpart place x hplace).get_eq (h' part hpart place x hplace)
  have hengine : c.engine = c'.engine := hpart engineSection (by simp [sections])
  have haudit : c.audit = c'.audit := hpart auditSection (by simp [sections])
  have hhttp : c.http = c'.http := hpart httpSection (by simp [sections])
  cases c
  cases c'
  congr

/-- Nothing is written for the settings of a section that is in no layer. -/
theorem written_eq_nil (h : laid (layers.filterMap (get? · part.name)) = none) (x : Setting part.Part) (place : Nat) :
    part.written layers x place = [] := by
  rw [Section.written, laid_eq_none.mp h]
  rfl

/-- Every section of valid layers can be read by itself. -/
theorem Valid.decode_section (h : Valid layers) (hpart : part ∈ sections) :
    ∀ d ∈ layers.filterMap (get? · part.name), ∃ r, part.schema.decode d = .ok r := by
  intro d hd
  obtain ⟨l, hl, hget⟩ := List.mem_filterMap.mp hd
  obtain ⟨x, hx, hname, hreads⟩ := (h l hl).reads _ (mem_of_get? hget)
  obtain rfl := has_sections.eq_of_name hx (List.mem_map_of_mem hpart) hname
  exact hreads

/-- Layers are in conflict about the severity that blocks a run or not at all. -/
theorem Valid.conflict (h : Valid layers) (hpart : part ∈ sections) {place : Nat} {x : Setting part.Part}
    (hx : part.settings[place]? = some x) (hconflict : x.item.Conflict (part.written layers x place)) : Conflict layers := by
  have hreads := part.has.reads_written (h.decode_section hpart) hx
  have hflat (hflat : x.item.Flat) : Conflict layers := absurd hconflict (hflat.not_conflict hreads)
  rcases List.mem_cons.mp hpart with rfl | hpart
  · exact hflat (EngineSettings.flat_settings x (List.mem_of_getElem? hx))
  · rcases List.mem_cons.mp hpart with rfl | hpart
    · cases place with
      | zero =>
        obtain rfl : AuditPolicy.blockOnSetting = x := Option.some.inj hx
        exact hconflict
      | succ i => exact hflat (AuditPolicy.flat_settings x (List.mem_of_getElem? hx))
    · obtain rfl := List.mem_singleton.mp hpart
      exact hflat (HttpSettings.flat_settings x (List.mem_of_getElem? hx))

/-- Valid layers are joined to a valid configuration exactly if they are not in conflict. -/
theorem Valid.decode_iff (h : Valid layers) : (∃ c, schema.decode (.obj (joined layers) true) = .ok c) ↔ ¬Conflict layers := by
  rw [has_sections.decode_obj_iff, has_sections.readable_joined_iff h, List.forall_mem_map]
  constructor
  · intro hall hconflict
    obtain ⟨d, hd⟩ : ∃ d, laid (layers.filterMap (get? · "audit")) = some d := by
      refine Option.ne_none_iff_exists'.mp fun hnone => ?_
      obtain ⟨e, he, -⟩ := hconflict
      rw [laid_eq_none.mp hnone] at he
      exact List.not_mem_nil he
    have haudit : auditSection ∈ sections := by simp [sections]
    have hiff := (auditSection.has.decode_laid_last auditSection.joins (h.decode_section haudit) hd).1
    exact hiff.mp (hall auditSection haudit d hd) 0 AuditPolicy.blockOnSetting rfl hconflict
  · intro hno part hpart d hd
    have hiff := (part.has.decode_laid_last part.joins (h.decode_section hpart) hd).1
    exact hiff.mpr fun place x hx hconflict => hno (h.conflict hpart hx hconflict)

/-- What valid layers are joined to is read with the last of what is written for each setting. -/
theorem Valid.lastWins (h : Valid layers) {c : Config} (hc : schema.decode (.obj (joined layers) true) = .ok c) : LastWins layers c := by
  intro part hpart place x hx
  have hshows := (has_sections.decode_obj hc).2.2 part.setting (List.mem_map_of_mem hpart)
  rw [get?_joined fun l hl => (h l hl).nodup] at hshows
  change part.setting.Shows _ (laid (layers.filterMap (get? · part.name))) c at hshows
  cases hd : laid (layers.filterMap (get? · part.name)) with
  | none =>
    rw [hd] at hshows
    rw [written_eq_nil hd]
    exact congrArg x.get (hshows.trans part.get_default)
  | some d =>
    rw [hd] at hshows
    exact (part.has.decode_laid_last part.joins (h.decode_section hpart) hd).2 _ hshows place x hx

/-! ## Plain layers -/

/-- All sections are written as tables, and all severities as texts. -/
structure Plain (layers : Layers) : Prop where
  tables : ∀ l ∈ layers, ∀ part ∈ sections, ∀ d ∈ get? l part.name, d.isTable = true
  texts : ∀ l ∈ layers, ∀ d ∈ get? l "audit", ∀ e ∈ d.part? "block_on" 0, e.isTable = false

instance (layers : Layers) : Decidable (Plain layers) :=
  decidable_of_iff (_ ∧ _) ⟨fun h => ⟨h.1, h.2⟩, fun h => ⟨h.tables, h.texts⟩⟩

/-- What a layer writes of a setting in a table. -/
def Section.field? (part : Section) (x : Setting part.Part) (layer : List (String × Document)) : Option Document :=
  (get? layer part.name).bind (part? x.name 0)

/-- In plain layers all sections count, and the place of a setting does not matter. -/
theorem Plain.written_eq (h : Plain layers) (hpart : part ∈ sections) (x : Setting part.Part) (place : Nat) :
    part.written layers x place = layers.filterMap (part.field? x) := by
  have htables : ∀ d ∈ layers.filterMap (get? · part.name), d.isTable = true := by
    intro d hd
    obtain ⟨l, hl, hget⟩ := List.mem_filterMap.mp hd
    exact h.tables l hl part hpart d hget
  rw [Section.written, Setting.written, standing_of_tables htables, List.filterMap_filterMap]
  refine List.filterMap_congr fun l hl => ?_
  unfold Section.field?
  cases hget : get? l part.name with
  | none => rfl
  | some d =>
    have htable := h.tables l hl part hpart d hget
    cases d with
    | obj fields closed => rfl
    | _ => cases htable

/-- There is no conflict between layers without two tables for one variant. -/
theorem Plain.not_conflict (h : Plain layers) : ¬Conflict layers := by
  refine Decoder.not_conflict_of_not_isTable fun e he => ?_
  obtain ⟨d, hd, hpart⟩ := List.mem_filterMap.mp he
  obtain ⟨l, hl, hget⟩ := List.mem_filterMap.mp ((standing_suffix _).subset hd)
  exact h.texts l hl d hget e hpart

/-! ## Results in turn -/

section

variable {α β ε : Type}

/-- To go through what may be missing is to go through what is there. -/
theorem filterMapM_eq_mapM {f : α → Except ε (Option β)} {g : α → Option (Except ε β)}
    (h : ∀ a, f a = (g a).elim (.ok none) (some <$> ·)) (as : List α) : as.filterMapM f = (as.filterMap g).mapM id := by
  induction as with
  | nil => rfl
  | cons a as ih =>
    rw [List.filterMapM_cons, h, ih]
    cases hg : g a with
    | none => simp only [List.filterMap_cons, hg]; rfl
    | some r =>
      simp only [List.filterMap_cons, hg, List.mapM_cons]
      cases r <;> rfl

/-- Results that are all there are there together. -/
theorem mapM_id_ok (as : List α) : (as.map (Except.ok (ε := ε))).mapM id = .ok as := by
  induction as with
  | nil => rfl
  | cons a as ih =>
    rw [List.map_cons, List.mapM_cons, ih]
    rfl

/-- The first of the errors is that of all results. -/
theorem mapM_id_error (before : List α) (e : ε) (after : List (Except ε α)) :
    (before.map (Except.ok (ε := ε)) ++ Except.error e :: after).mapM id = .error e := by
  induction before with
  | nil => rw [List.map_nil, List.nil_append, List.mapM_cons]; rfl
  | cons a before ih =>
    rw [List.map_cons, List.cons_append, List.mapM_cons, ih]
    rfl

/-- Of several results all are good, or one is the first that is not. -/
theorem all_ok_or_first_error (rs : List (Except ε α)) :
    (∃ as : List α, rs = as.map .ok) ∨
      ∃ (before : List α) (e : ε) (after : List (Except ε α)), rs = before.map .ok ++ .error e :: after := by
  induction rs with
  | nil => exact Or.inl ⟨[], rfl⟩
  | cons r rs ih =>
    cases r with
    | error e => exact Or.inr ⟨[], e, rs, rfl⟩
    | ok a =>
      rcases ih with ⟨as, rfl⟩ | ⟨before, e, after, rfl⟩
      · exact Or.inl ⟨a :: as, rfl⟩
      · exact Or.inr ⟨a :: before, e, after, rfl⟩

end

/-! ## Files -/

section Files

variable [Toml.Reader]

/-- What each file that exists says, or why it cannot be read. -/
def readings (root : FileTree) (paths : List String) : List (Except LoadError (List (String × Document))) :=
  paths.filterMap fun path => (root.find? path).map (readLayer path)

/-- A layer that is read can be read section by section. -/
theorem readable_of_readLayer {path : String} {t : FileTree} {l : List (String × Document)} (h : readLayer path t = .ok l) :
    Schema.Readable (sections.map Section.setting) l := by
  unfold readLayer at h
  split at h
  · cases h
  · split at h
    · split at h
      · rename_i hc
        cases h
        exact (has_sections.decode_obj hc).2.1
      · cases h
    · cases h

/-- Layers that are all read are valid. -/
theorem valid_of_readings {root : FileTree} {paths : List String} (h : readings root paths = layers.map .ok) : Valid layers := by
  intro l hl
  have hmem : Except.ok l ∈ readings root paths := h ▸ List.mem_map_of_mem hl
  obtain ⟨path, -, hpath⟩ := List.mem_filterMap.mp hmem
  obtain ⟨t, -, hread⟩ := Option.map_eq_some_iff.mp hpath
  exact readable_of_readLayer hread

/-- The layers are read one after the other, then joined. -/
theorem loadLayers_eq (root : FileTree) (paths : List String) :
    loadLayers root paths = (readings root paths).mapM id >>= fun layers =>
      (schema.decode (.obj (joined layers) true)).mapError fun _ => .merging .toml := by
  unfold loadLayers readings
  rw [filterMapM_eq_mapM (fun path => ?_)]
  · rfl
  · cases root.find? path <;> rfl

/-- Layers of configuration, whatever reads the files. If a file cannot be read alone, the first such file is what loading fails with.
Otherwise it fails exactly if layers are in conflict about the severity that blocks a run, and else gives every setting the value that
the last layer that still counts for its section gives it, or its default. Where sections are written as tables and severities as texts,
this is: loading does not fail, and every setting has the value that the last layer that sets it gives it, or its default if no layer
does. -/
theorem last_layer_wins (root : FileTree) (paths : List String) :
    ((∃ (before : Layers) (e : LoadError) (after : List (Except LoadError (List (String × Document)))),
        readings root paths = before.map .ok ++ .error e :: after ∧ loadLayers root paths = .error e) ∨
      ∃ layers : Layers, readings root paths = layers.map .ok ∧
        ((Conflict layers ∧ loadLayers root paths = .error (.merging .toml)) ∨
          (¬Conflict layers ∧ ∃ c, loadLayers root paths = .ok c ∧ LastWins layers c))) ∧
    ∀ layers : Layers, readings root paths = layers.map .ok → Plain layers →
      ∃ c, loadLayers root paths = .ok c ∧ ∀ part ∈ sections, ∀ x ∈ part.settings,
        x.Shows part.schema.initial (layers.filterMap (part.field? x)).getLast? (part.get c) := by
  have hload {layers : Layers} (h : readings root paths = layers.map .ok) :
      loadLayers root paths = (schema.decode (.obj (joined layers) true)).mapError fun _ => .merging .toml := by
    rw [loadLayers_eq, h, mapM_id_ok]
    rfl
  have hgood {layers : Layers} (h : readings root paths = layers.map .ok) (hno : ¬Conflict layers) :
      ∃ c, loadLayers root paths = .ok c ∧ LastWins layers c := by
    have hvalid := valid_of_readings h
    obtain ⟨c, hc⟩ := hvalid.decode_iff.mpr hno
    exact ⟨c, by rw [hload h, hc]; rfl, hvalid.lastWins hc⟩
  constructor
  · rcases all_ok_or_first_error (readings root paths) with ⟨layers, h⟩ | ⟨before, e, after, h⟩
    · refine Or.inr ⟨layers, h, ?_⟩
      by_cases hconflict : Conflict layers
      · refine Or.inl ⟨hconflict, ?_⟩
        rw [hload h]
        cases hc : schema.decode (.obj (joined layers) true) with
        | error e => rfl
        | ok c => exact absurd hconflict ((valid_of_readings h).decode_iff.mp ⟨c, hc⟩)
      · exact Or.inr ⟨hconflict, hgood h hconflict⟩
    · refine Or.inl ⟨before, e, after, h, ?_⟩
      rw [loadLayers_eq, h, mapM_id_error]
      rfl
  · intro layers h hplain
    obtain ⟨c, hc, hlast⟩ := hgood h hplain.not_conflict
    refine ⟨c, hc, fun part hpart x hx => ?_⟩
    obtain ⟨place, hplace⟩ := List.getElem?_of_mem hx
    rw [← hplain.written_eq hpart x place]
    exact hlast part hpart place x hplace

end Files

/-! ## Two files -/

/-- Two files with these texts. -/
def twoFiles (first second : String) : FileTree := .dir [("a", .file first), ("b", .file second)]

/-- The paths of the sample split into their names. -/
theorem splitOn_twoFiles : "/a".splitOn "/" = ["", "a"] ∧ "/b".splitOn "/" = ["", "b"] := by
  constructor <;>
  · rw [String.splitOn, if_neg (by decide), String.splitOnAux, if_neg (by decide), if_pos (by decide)]
    dsimp only
    rw [if_pos (by decide), String.splitOnAux, if_neg (by decide), if_neg (by decide), String.splitOnAux, if_pos (by decide)]
    decide

/-- The readings of the sample are those of its two files. -/
theorem readings_twoFiles (first second : String) :
    readings (twoFiles first second) ["/a", "/b"] = [readLayer "/a" (.file first), readLayer "/b" (.file second)] := by
  simp only [readings, List.filterMap_cons, List.filterMap_nil, FileTree.find?, splitOn_twoFiles.1, splitOn_twoFiles.2]
  rw [if_pos (by decide +kernel), if_pos (by decide +kernel)]
  rfl

/-- A later file that restates a default overrides an earlier one, and leaves what it does not set. -/
theorem last_layer_wins_of_restated :
    let files := twoFiles "[audit]\nblock_on = 'high'\nmax_iterations_ceiling = 5" "[audit]\nblock_on = 'critical'"
    (∃ layers : Layers, readings files ["/a", "/b"] = layers.map .ok ∧ Plain layers) ∧
    ∃ c, loadLayers files ["/a", "/b"] = .ok c ∧ c.audit.blockOn = .critical ∧ c.audit.maxIterationsCeiling = 5 := by
  intro files
  have hreadings : readings files ["/a", "/b"] = _ := readings_twoFiles _ _
  obtain ⟨layers, hlayers⟩ : ∃ layers : Layers, readings files ["/a", "/b"] = layers.map .ok := by
    rcases all_ok_or_first_error (readings files ["/a", "/b"]) with h | ⟨before, e, after, h⟩
    · exact h
    · have hall : ∀ r ∈ readings files ["/a", "/b"], r.toOption.isSome = true := by
        rw [hreadings]
        decide +kernel
      exact absurd (hall (.error e) (by simp [h])) Bool.false_ne_true
  have hplain : Plain layers := by
    have hall : ((readings files ["/a", "/b"]).mapM id).toOption.all (fun l => decide (Plain l)) = true := by
      rw [hreadings]
      decide +kernel
    rw [hlayers, mapM_id_ok] at hall
    exact of_decide_eq_true hall
  obtain ⟨c, hc, -⟩ := (last_layer_wins files ["/a", "/b"]).2 layers hlayers hplain
  have hvalue : (loadLayers files ["/a", "/b"]).toOption.map (fun c => (c.audit.blockOn, c.audit.maxIterationsCeiling)) =
      some (.critical, 5) := by
    rw [loadLayers_eq, hreadings]
    decide +kernel
  rw [hc] at hvalue
  obtain ⟨hseverity, hceiling⟩ := Prod.mk.inj (Option.some.inj hvalue)
  exact ⟨⟨layers, hlayers, hplain⟩, c, hc, hseverity, hceiling⟩

/-- Two files set the severity that blocks a run, each as a table. Each of them can be read alone, but together they are joined to a severity
of two names. -/
theorem severities_in_tables_not_joined :
    let files := twoFiles "[audit.block_on]\nhigh = \x7b\x7d" "[audit.block_on]\ncritical = \x7b\x7d"
    (∀ r ∈ readings files ["/a", "/b"], r.toOption.isSome = true) ∧ loadLayers files ["/a", "/b"] = .error (.merging .toml) := by
  intro files
  rw [loadLayers_eq, readings_twoFiles]
  decide +kernel

end Config

end Runbook
