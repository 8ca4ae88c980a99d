import MessageHarvest.Project
import MessageHarvest.Proofs.Config
import MessageHarvest.Proofs.Path.Ancestors

/-!
# The configuration of an extraction

One configuration file counts, that of the nearest directory which has one, up to the first
boundary. If it cannot be used the extraction does not begin, whatever lies farther up and whatever
the options say in its place.

* `Project.NearestConfig` says which file that is. `Project.findConfig_eq_some_iff`: it is the one
  that is looked for.
* `Project.Usable` says when it can be used. `Project.readConfig_eq_ok_iff`: then it is read.
* `Project.prepare_by_nearest`: when an extraction begins and what its configuration is.
-/

namespace MessageHarvest.Project

variable {fs : FileSystem}

/-! ## The nearest configuration file -/

/-- The configuration file of the first of these directories that has one. None of those before it
is a boundary. -/
def FirstConfig (fs : FileSystem) (directories : List Path) (file : Path) : Prop :=
  ∃ nearer directory farther, directories = nearer ++ directory :: farther ∧
    file = directory.join configName ∧ fs.exists file = true ∧
    ∀ d ∈ nearer, fs.exists (d.join configName) = false ∧ fs.exists (d.join boundary) = false

/-- The configuration file of the directory, or of the nearest one above it. -/
def NearestConfig (fs : FileSystem) (directory file : Path) : Prop :=
  FirstConfig fs directory.ancestors file

theorem not_firstConfig_nil {file : Path} : ¬ FirstConfig fs [] file := by
  rintro ⟨nearer, directory, farther, heq, -⟩
  simp at heq

theorem firstConfig_cons {directory : Path} {directories : List Path} {file : Path} :
    FirstConfig fs (directory :: directories) file ↔
      (file = directory.join configName ∧ fs.exists file = true) ∨
      fs.exists (directory.join configName) = false ∧ fs.exists (directory.join boundary) = false ∧
        FirstConfig fs directories file := by
  constructor
  · rintro ⟨nearer, found, farther, heq, hfile, hexists, hnone⟩
    cases nearer with
    | nil =>
      obtain ⟨rfl, -⟩ := List.cons.inj heq
      exact .inl ⟨hfile, hexists⟩
    | cons d nearer =>
      obtain ⟨rfl, hrest⟩ := List.cons.inj heq
      obtain ⟨hfirst, hmore⟩ := List.forall_mem_cons.mp hnone
      exact .inr ⟨hfirst.1, hfirst.2, nearer, found, farther, hrest, hfile, hexists, hmore⟩
  · rintro (⟨hfile, hexists⟩ | ⟨hconfig, hboundary, nearer, found, farther, rfl, hfound⟩)
    · exact ⟨[], directory, directories, rfl, hfile, hexists, nofun⟩
    · obtain ⟨hfile, hexists, hnone⟩ := hfound
      exact ⟨directory :: nearer, found, farther, rfl, hfile, hexists,
        List.forall_mem_cons.mpr ⟨⟨hconfig, hboundary⟩, hnone⟩⟩

/-- Enough levels are searched if there is one more than the directory has components. -/
theorem findConfigWithin_eq_some_iff {levels : Nat} {directory file : Path}
    (hlevels : directory.components.length < levels) :
    findConfigWithin fs levels directory = some file ↔ NearestConfig fs directory file := by
  induction levels generalizing directory with
  | zero => exact absurd hlevels (Nat.not_lt_zero _)
  | succ levels ih =>
    rw [NearestConfig, Path.ancestors_eq, firstConfig_cons, findConfigWithin]
    cases hconfig : fs.exists (directory.join configName) with
    | true =>
      rw [if_pos rfl]
      constructor
      · intro h
        obtain rfl := Option.some.inj h
        exact .inl ⟨rfl, hconfig⟩
      · rintro (⟨rfl, -⟩ | ⟨hnone, -⟩)
        · rfl
        · cases hnone
    | false =>
      rw [if_neg Bool.false_ne_true]
      have hself : ¬ (file = directory.join configName ∧ fs.exists file = true) := by
        rintro ⟨rfl, hexists⟩
        rw [hconfig] at hexists
        cases hexists
      cases hboundary : fs.exists (directory.join boundary) with
      | true =>
        rw [if_pos rfl]
        exact ⟨nofun, fun h => h.elim (fun h => absurd h hself) fun h => nomatch h.2.1⟩
      | false =>
        rw [if_neg Bool.false_ne_true, or_iff_right hself]
        simp only [true_and]
        cases hparent : directory.parent? with
        | none =>
          rw [Path.ancestors_of_parent?_eq_none hparent]
          exact ⟨nofun, fun h => absurd h not_firstConfig_nil⟩
        | some parent =>
          obtain ⟨last, hlast⟩ := Path.exists_of_parent? hparent
          rw [hlast, List.length_append, List.length_singleton] at hlevels
          rw [Path.ancestors_of_parent? hparent, List.tail_cons, Option.bind_some]
          exact ih (Nat.lt_of_succ_lt_succ hlevels)

/-- The nearest configuration file is the one that is looked for. -/
theorem findConfig_eq_some_iff {directory file : Path} :
    findConfig fs directory = some file ↔ NearestConfig fs directory file :=
  findConfigWithin_eq_some_iff (Nat.lt_succ_of_le directory.length_components_le)

/-! ## What it says -/

/-- A configuration file can be used if it is text, stands for a configuration, and all patterns of
that can be used. -/
def Usable (fs : FileSystem) (file : Path) (config : Config) : Prop :=
  ∃ source, fs.readText file = .ok source ∧ Config.parse source = .ok config ∧ config.Valid

theorem mapError_eq_ok_iff {ε ε' α : Type} {f : ε → ε'} {result : Except ε α} {a : α} :
    result.mapError f = .ok a ↔ result = .ok a := by
  cases result with
  | error e => exact ⟨nofun, nofun⟩
  | ok b => exact ⟨fun h => by cases h; rfl, fun h => by cases h; rfl⟩

/-- A configuration file is read if it can be used. -/
theorem readConfig_eq_ok_iff {file : Path} {config : Config} :
    readConfig fs file = .ok config ↔ Usable fs file config := by
  constructor
  · intro h
    obtain ⟨source, hsource, h⟩ := Json.exists_of_bind_ok h
    obtain ⟨found, hparse, h⟩ := Json.exists_of_bind_ok h
    split at h
    · cases h
    · rename_i hfault
      cases h
      exact ⟨source, mapError_eq_ok_iff.mp hsource, mapError_eq_ok_iff.mp hparse,
        Config.fault?_eq_none_iff.mp hfault⟩
  · rintro ⟨source, hsource, hparse, hvalid⟩
    rw [readConfig, mapError_eq_ok_iff.mpr hsource, Json.ok_bind, mapError_eq_ok_iff.mpr hparse,
      Json.ok_bind, Config.fault?_eq_none_iff.mpr hvalid]
    rfl

/-! ## The configuration of a directory -/

/-- The configuration of a directory cannot be loaded just when there is a nearest configuration
file and it cannot be used. -/
theorem loadConfig_eq_error_iff {directory : Path} :
    (∃ error, loadConfig fs directory = .error error) ↔
      ∃ file, NearestConfig fs directory file ∧ ∀ config, ¬ Usable fs file config := by
  rw [loadConfig]
  simp only [← findConfig_eq_some_iff, ← readConfig_eq_ok_iff]
  cases findConfig fs directory with
  | none => exact ⟨nofun, nofun⟩
  | some file =>
    dsimp only
    cases hread : readConfig fs file with
    | error e =>
      refine ⟨fun _ => ⟨file, rfl, fun config hok => ?_⟩, fun _ => ⟨e, rfl⟩⟩
      rw [hread] at hok
      cases hok
    | ok config =>
      refine ⟨nofun, ?_⟩
      rintro ⟨other, hother, hunusable⟩
      obtain rfl := Option.some.inj hother
      exact absurd hread (hunusable config)

/-- A configuration that is loaded is that of the nearest file, or the default where there is no
such file. -/
theorem of_loadConfig {directory : Path} {loaded : Config × Bool}
    (h : loadConfig fs directory = .ok loaded) :
    (∀ file, NearestConfig fs directory file → Usable fs file loaded.1) ∧
      ((∀ file, ¬ NearestConfig fs directory file) → loaded.1 = {}) := by
  rw [loadConfig] at h
  simp only [← findConfig_eq_some_iff, ← readConfig_eq_ok_iff]
  cases hfound : findConfig fs directory with
  | none =>
    rw [hfound] at h
    cases h
    exact ⟨nofun, fun _ => rfl⟩
  | some file =>
    rw [hfound] at h
    dsimp only at h
    cases hread : readConfig fs file with
    | error e =>
      rw [hread] at h
      cases h
    | ok config =>
      rw [hread] at h
      cases h
      refine ⟨fun other hother => ?_, fun hnone => absurd rfl (hnone file)⟩
      obtain rfl := Option.some.inj hother
      exact hread

/-! ## The configuration of an extraction -/

/-- What an extraction works with: the options come before the configuration. -/
structure Overrides (options : ExtractOptions) (config effective : Config) : Prop where
  policy : effective.policy = options.policy.getD config.policy
  includes_of_paths : options.paths ≠ [] → effective.includes = options.paths.map RawText.lossy
  includes_of_no_paths : options.paths = [] → effective.includes = config.includes
  ignores : effective.ignores = config.ignores

theorem overrides_override (options : ExtractOptions) (config : Config) :
    Overrides options config (override options config) where
  policy := rfl
  includes_of_paths h := by rw [override, if_neg (by simpa using h)]
  includes_of_no_paths h := by rw [override, if_pos (by simpa using h)]
  ignores := rfl

variable {options : ExtractOptions} {base : String}

/-- An extraction begins with the configuration of its directory, if that can be loaded. -/
theorem prepare_eq (hbase : RawText.text? (options.sourceRoot.getD Path.here) = some base) :
    prepare fs options =
      ((loadConfig fs (.ofString base)).mapError .config).map fun loaded =>
        let config := override options loaded.1
        { config, files := (scan fs base config.includes config.ignores).files } := by
  rw [prepare, hbase]
  dsimp only
  cases loadConfig fs (.ofString base) with
  | error e => rfl
  | ok loaded => rfl

/-- An extraction does not begin just when the configuration of its directory cannot be loaded. -/
theorem prepare_eq_error_iff
    (hbase : RawText.text? (options.sourceRoot.getD Path.here) = some base) :
    (∃ error, prepare fs options = .error error) ↔
      ∃ error, loadConfig fs (.ofString base) = .error error := by
  rw [prepare_eq hbase]
  cases loadConfig fs (.ofString base) with
  | error e => exact ⟨fun _ => ⟨e, rfl⟩, fun _ => ⟨_, rfl⟩⟩
  | ok loaded => exact ⟨nofun, nofun⟩

theorem exists_of_prepare {extraction : Extraction}
    (hbase : RawText.text? (options.sourceRoot.getD Path.here) = some base)
    (h : prepare fs options = .ok extraction) :
    ∃ loaded, loadConfig fs (.ofString base) = .ok loaded ∧
      extraction.config = override options loaded.1 := by
  rw [prepare_eq hbase] at h
  cases hloaded : loadConfig fs (.ofString base) with
  | error e =>
    rw [hloaded] at h
    cases h
  | ok loaded =>
    rw [hloaded] at h
    cases h
    exact ⟨loaded, rfl, rfl⟩

/-- An extraction does not begin just when there is a nearest configuration file and it cannot be
used. Otherwise it works with what that file says, and where there is no such file with the
defaults, but for what the options say in their place. A field that the file does not give has its
default. -/
theorem prepare_by_nearest (hbase : RawText.text? (options.sourceRoot.getD Path.here) = some base) :
    ((∃ error, prepare fs options = .error error) ↔
      ∃ file, NearestConfig fs (.ofString base) file ∧ ∀ config, ¬ Usable fs file config) ∧
    ∀ extraction, prepare fs options = .ok extraction →
      (∀ file, NearestConfig fs (.ofString base) file → ∃ source config,
        fs.readText file = .ok source ∧ Config.parse source = .ok config ∧ config.Valid ∧
        (∃ names, Config.fieldNames source = .ok names ∧ Config.Defaults names config) ∧
        Overrides options config extraction.config) ∧
      ((∀ file, ¬ NearestConfig fs (.ofString base) file) →
        Overrides options ⟨["templates"], [], .skip⟩ extraction.config) := by
  refine ⟨(prepare_eq_error_iff hbase).trans loadConfig_eq_error_iff, fun extraction h => ?_⟩
  obtain ⟨loaded, hloaded, hconfig⟩ := exists_of_prepare hbase h
  obtain ⟨husable, hdefault⟩ := of_loadConfig hloaded
  rw [hconfig]
  refine ⟨fun file hnearest => ?_, fun hnone => ?_⟩
  · obtain ⟨source, hsource, hparse, hvalid⟩ := husable file hnearest
    exact ⟨source, loaded.1, hsource, hparse, hvalid, Config.exists_fieldNames hparse,
      overrides_override _ _⟩
  · rw [hdefault hnone]
    exact overrides_override _ _

/-- A directory with a configuration that cannot be used, below one with one that can. -/
def shadowed : FileSystem where
  root := .directory [(configName, .file (.ofString "\x7b\x7d")), (.ofString "app", .directory
    [(configName, .file (.ofString "\x7b\"includes\": [\"[*\"]\x7d"))])]

/-- Neither the configuration farther up nor paths in place of the includes let it begin. -/
theorem prepare_shadowed : ∃ error,
    prepare shadowed { sourceRoot := some (.ofString "app"), paths := [.ofString "templates"] } =
      .error error := by
  have hsource : shadowed.readText (Path.join (.ofString "app") configName) =
      .ok "\x7b\"includes\": [\"[*\"]\x7d" := by decide
  have hconfig : (Config.parse "\x7b\"includes\": [\"[*\"]\x7d").toOption =
      some { includes := ["[*"] } := by decide +kernel
  have hpattern : (Glob.Pattern.parse "[*").isOk = false := by decide +kernel
  have hbase : RawText.text? ((some (RawText.ofString "app")).getD Path.here) = some "app" := by
    decide
  refine (prepare_by_nearest hbase).1.mpr
    ⟨_, ⟨[], .ofString "app", _, Path.ancestors_eq _, rfl, by decide, nofun⟩, ?_⟩
  rintro config ⟨source, hread, hparse, hvalid⟩
  rw [hsource] at hread
  cases hread
  rw [hparse] at hconfig
  obtain rfl := Option.some.inj hconfig
  obtain ⟨pattern, hok⟩ := hvalid.includes "[*" (by decide) (by decide)
  rw [hok] at hpattern
  cases hpattern

end MessageHarvest.Project
