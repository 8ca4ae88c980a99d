import MessageHarvest.Config
import MessageHarvest.Proofs.Json.Passing

/-!
# What a configuration says

* `Config.Valid`: all patterns of a configuration can be used. `Config.fault?_eq_none_iff`: such a
  configuration has no fault, and no other.
* `Config.fieldNames` gives the names of the fields that a text has, and reads none of their values.
  `Config.exists_fieldNames`: in the configuration of a text every other field has its default.
-/

namespace MessageHarvest.Config

open Json (Passes exists_of_bind_ok ok_bind)

/-! ## Patterns -/

/-- Every ignore is a pattern, and every include with wildcards is one. -/
structure Valid (config : Config) : Prop where
  ignores : ∀ text ∈ config.ignores, ∃ pattern, Glob.Pattern.parse text = .ok pattern
  includes : ∀ text ∈ config.includes, Glob.hasWildcard text = true →
    ∃ pattern, Glob.Pattern.parse text = .ok pattern

theorem patternFault?_eq_none_iff {field text : String} :
    patternFault? field text = none ↔ ∃ pattern, Glob.Pattern.parse text = .ok pattern := by
  unfold patternFault?
  cases Glob.Pattern.parse text <;> simp

/-- A configuration has no fault if its patterns can be used. -/
theorem fault?_eq_none_iff {config : Config} : config.fault? = none ↔ config.Valid := by
  have hfault : config.fault? = none ↔
      config.ignores.findSome? (patternFault? "ignores") = none ∧
        (config.includes.filter Glob.hasWildcard).findSome? (patternFault? "includes") = none := by
    rw [fault?]
    cases config.ignores.findSome? (patternFault? "ignores") <;> simp
  simp only [hfault, List.findSome?_eq_none_iff, List.mem_filter, patternFault?_eq_none_iff]
  exact ⟨fun ⟨h1, h2⟩ => ⟨h1, fun text htext hwild => h2 text ⟨htext, hwild⟩⟩,
    fun ⟨h1, h2⟩ => ⟨h1, fun text ⟨htext, hwild⟩ => h2 text htext hwild⟩⟩

/-! ## Fields -/

/-- The names of the fields that a text gives. -/
def fieldNames (source : String) : Except Json.ReadError (List String) :=
  Json.read (Json.recordNames ["includes", "ignores", "onError"]) source

/-- Fields that are not among these names have their defaults. -/
structure Defaults (names : List String) (config : Config) : Prop where
  includes : "includes" ∉ names → config.includes = ["templates"]
  ignores : "ignores" ∉ names → config.ignores = []
  policy : "onError" ∉ names → config.policy = .skip

/-- Fields that are not among these names have not been read. -/
structure Fields.Unread (fields : Fields) (names : List String) : Prop where
  includes : "includes" ∉ names → fields.includes = none
  ignores : "ignores" ∉ names → fields.ignores = none
  policy : "onError" ∉ names → fields.policy = none

theorem Fields.Unread.defaults {fields : Fields} {names : List String} (h : fields.Unread names) :
    Defaults names (ofFields fields) where
  includes hnot := by rw [ofFields, h.includes hnot]; rfl
  ignores hnot := by rw [ofFields, h.ignores hnot]; rfl
  policy hnot := by rw [ofFields, h.policy hnot]; rfl

variable {bound : Nat} {text rest : List Char}

theorem passes_policyReader : Passes (bound + 2) policyReader := by
  intro text policy rest h
  obtain ⟨⟨name, more⟩, hname, h⟩ := exists_of_bind_ok h
  cases h
  exact Json.passes_caseName text name _ hname

/-- What is read as a field is passed over as one. -/
theorem readField_simulates {fields next : Fields} {names : List String} {key : String}
    (hunread : fields.Unread names) (h : readField (bound + 2) fields key text = .ok (next, rest)) :
    Json.unknownField (bound + 2) text = .ok rest ∧ next.Unread (names ++ [key]) := by
  have hkey : key ∈ names ++ [key] := List.mem_append_right _ (List.mem_singleton_self key)
  have hkeep : ∀ {name}, name ∉ names ++ [key] → name ∉ names :=
    fun hnot hmem => hnot (List.mem_append_left _ hmem)
  unfold readField at h
  split at h
  · obtain ⟨⟨slot, more⟩, hfield, h⟩ := exists_of_bind_ok h
    cases h
    exact ⟨Json.unknownField_of_field Json.passes_texts hfield, fun hnot => absurd hkey hnot,
      fun hnot => hunread.ignores (hkeep hnot), fun hnot => hunread.policy (hkeep hnot)⟩
  · obtain ⟨⟨slot, more⟩, hfield, h⟩ := exists_of_bind_ok h
    cases h
    exact ⟨Json.unknownField_of_field Json.passes_texts hfield,
      fun hnot => hunread.includes (hkeep hnot), fun hnot => absurd hkey hnot,
      fun hnot => hunread.policy (hkeep hnot)⟩
  · obtain ⟨⟨slot, more⟩, hfield, h⟩ := exists_of_bind_ok h
    cases h
    exact ⟨Json.unknownField_of_field passes_policyReader hfield,
      fun hnot => hunread.includes (hkeep hnot), fun hnot => hunread.ignores (hkeep hnot),
      fun hnot => absurd hkey hnot⟩
  · obtain ⟨more, hpassed, h⟩ := exists_of_bind_ok h
    cases h
    exact ⟨hpassed, fun hnot => hunread.includes (hkeep hnot),
      fun hnot => hunread.ignores (hkeep hnot), fun hnot => hunread.policy (hkeep hnot)⟩

theorem exists_entryNames {config : Config} (h : ofObject (bound + 2) text = .ok (config, rest)) :
    ∃ names, Json.entryNames (bound + 2) text = .ok (names, rest) ∧ Defaults names config := by
  obtain ⟨⟨fields, more⟩, hfold, h⟩ := exists_of_bind_ok h
  cases h
  have hnone : Fields.Unread {} [] := ⟨fun _ => rfl, fun _ => rfl, fun _ => rfl⟩
  have hstep : ∀ fields names key text next rest, Fields.Unread fields names →
      readField (bound + 2) fields key text = .ok (next, rest) →
      ∃ names', Json.addName (bound + 2) names key text = .ok (names', rest) ∧
        next.Unread names' := by
    intro fields names key text next rest hunread hread
    obtain ⟨hpassed, hnext⟩ := readField_simulates hunread hread
    exact ⟨_, Json.addName_of_unknownField hpassed names key, hnext⟩
  obtain ⟨names, hnames, hunread⟩ := Json.Container.foldEntries_simulates hstep hnone hfold
  exact ⟨names, hnames, hunread.defaults⟩

/-- The items of a list are passed over one by one, up to where the fields end. -/
theorem exists_itemNames {config : Config} (h : ofList (bound + 2) text = .ok (config, rest)) :
    ∃ names, Json.itemNames (bound + 2) ["includes", "ignores", "onError"] true text =
      .ok (names, rest) ∧ Defaults names config := by
  obtain ⟨⟨includes, afterIncludes⟩, hincludes, h⟩ := exists_of_bind_ok h
  obtain ⟨⟨ignores, afterIgnores⟩, hignores, h⟩ := exists_of_bind_ok h
  obtain ⟨⟨policy, afterPolicy⟩, hpolicy, h⟩ := exists_of_bind_ok h
  obtain ⟨_, hend, h⟩ := exists_of_bind_ok h
  cases h
  rcases Json.element?_cases Json.passes_texts hincludes with
    ⟨rfl, rfl, hnone⟩ | ⟨a, rfl, hincludes⟩
  · rw [Json.element?_of_none hnone] at hignores
    cases hignores
    rw [Json.element?_of_none hnone] at hpolicy
    cases hpolicy
    exact ⟨_, Json.itemNames_of_none hnone hend _ _,
      Fields.Unread.defaults ⟨by simp, by simp, by simp⟩⟩
  rcases Json.element?_cases Json.passes_texts hignores with ⟨rfl, rfl, hnone⟩ | ⟨b, rfl, hignores⟩
  · rw [Json.element?_of_none hnone] at hpolicy
    cases hpolicy
    exact ⟨_, hincludes (Json.itemNames_of_none hnone hend _ _),
      Fields.Unread.defaults ⟨by simp, by simp, by simp⟩⟩
  rcases Json.element?_cases passes_policyReader hpolicy with ⟨rfl, rfl, hnone⟩ | ⟨c, rfl, hpolicy⟩
  · exact ⟨_, hincludes (hignores (Json.itemNames_of_none hnone hend _ _)),
      Fields.Unread.defaults ⟨by simp, by simp, by simp⟩⟩
  · have hlast : Json.itemNames (bound + 2) [] false afterPolicy = .ok ([], rest) := by
      rw [Json.itemNames, hend]
      rfl
    exact ⟨_, hincludes (hignores (hpolicy hlast)),
      Fields.Unread.defaults ⟨by simp, by simp, by simp⟩⟩

/-- A field that a text does not give has its default in the configuration that is read from it. -/
theorem exists_fieldNames {source : String} {config : Config} (h : parse source = .ok config) :
    ∃ names, fieldNames source = .ok names ∧ Defaults names config := by
  obtain ⟨rest, hread, hrest⟩ := Json.exists_of_read h
  have hbound : ∀ {c : Char} {more : List Char}, Json.skipSpace source.toList = c :: more →
      ∃ bound, source.toList.length + 1 = bound + 2 := by
    intro c more hskip
    cases hsource : source.toList with
    | nil =>
      rw [hsource] at hskip
      cases hskip
    | cons d text => exact ⟨text.length, rfl⟩
  rcases Json.record_cases hread with ⟨more, hskip, hlist⟩ | ⟨more, hskip, hobject⟩
  · obtain ⟨bound, hbound⟩ := hbound hskip
    rw [hbound] at hlist
    obtain ⟨names, hnames, hdefaults⟩ := exists_itemNames hlist
    refine ⟨names, Json.read_of_reader ?_ hrest, hdefaults⟩
    rw [Json.recordNames, Json.record, hskip, hbound]
    exact hnames
  · obtain ⟨bound, hbound⟩ := hbound hskip
    rw [hbound] at hobject
    obtain ⟨names, hnames, hdefaults⟩ := exists_entryNames hobject
    refine ⟨names, Json.read_of_reader ?_ hrest, hdefaults⟩
    rw [Json.recordNames, Json.record, hskip, hbound]
    exact hnames

end MessageHarvest.Config
