import MessageHarvest.Proofs.Json.Compact
import MessageHarvest.Proofs.Json.Pretty
import MessageHarvest.Proofs.Message
import MessageHarvest.Proofs.Project.Accounts

/-!
# Reports for other programs

The JSON form of a report can be read by anyone who reads JSON. It holds the templates one for one,
each with its path and its messages, and nothing else; the issues go another way.

* `Message.StandsFor`: a value of which every text is read as the message.
* `Report.read_json`: what the JSON form is read as.
* `Report.json_holds_templates`: every template and every message is got back from it, and in an
  extraction it is all that goes to the standard output.
-/

namespace MessageHarvest

open Json (Lays)

/-- The value is an object, and every layout of it, its fields in any order, is read as the message.
Its compact form is one of them. -/
def Message.StandsFor (m : Message) (v : Json) : Prop :=
  parse v.compact = .ok m ∧
    ∃ es, v = .object es ∧ ∀ es' source, es'.Perm es →
      Lays (Json.object es').tokens source.toList → parse source = .ok m

theorem Message.standsFor_toJson (m : Message) : m.StandsFor m.toJson := by
  have hlays : Lays m.toJson.tokens m.toJson.compact.toList := by
    rw [Json.compact, String.toList_ofList]
    exact (Json.Plain.object m.plain_entries).lays_compact
  exact ⟨parse_of_lays (.refl m.entries) hlays, m.entries, rfl,
    fun _ _ hperm => parse_of_lays hperm⟩

namespace Report

/-! ## What is read -/

theorem plain_templateJson (t : Template) : (templateJson t).Plain := by
  have hmessages : ∀ v ∈ t.messages.map Message.toJson, v.Plain := by
    rintro _ hv
    obtain ⟨m, -, rfl⟩ := List.mem_map.mp hv
    exact .object m.plain_entries
  refine .object ?_
  simp only [List.forall_mem_cons]
  exact ⟨.string _, .array hmessages, List.forall_mem_nil _⟩

theorem depth_message (m : Message) : m.toJson.depth = 1 := by
  have hoptional : ∀ text : Option String, (Message.optionalJson text).depth = 0 := by
    rintro (_ | _) <;> rfl
  simp [Message.toJson, Json.depth, Json.depthOfEntries, hoptional]

/-- There are at most the list of templates, a template, its list of messages and a message. -/
theorem depth_templates (templates : List Template) :
    (Json.array (templates.map templateJson)).depth ≤ 4 := by
  have hmessages : ∀ t : Template, Json.depthOfItems (t.messages.map Message.toJson) ≤ 1 := by
    intro t
    refine Json.depthOfItems_le.mpr fun v hv => ?_
    obtain ⟨m, -, rfl⟩ := List.mem_map.mp hv
    exact Nat.le_of_eq (depth_message m)
  rw [Json.depth, Nat.succ_le_succ_iff, Json.depthOfItems_le]
  intro v hv
  obtain ⟨t, -, rfl⟩ := List.mem_map.mp hv
  have := hmessages t
  simp only [templateJson, Json.depth, Json.depthOfEntries]
  omega

theorem plain_templates (templates : List Template) :
    (Json.array (templates.map templateJson)).Plain := by
  refine .array fun v hv => ?_
  obtain ⟨t, -, rfl⟩ := List.mem_map.mp hv
  exact plain_templateJson t

theorem lays_json (templates : List Template) :
    Lays (Json.array (templates.map templateJson)).tokens (json templates).toList := by
  have hend : ∀ c ∈ ['\n'], Json.isSpace c := by simp [Json.isSpace]
  have hall := ((plain_templates templates).lays_pretty 0).append (.nil hend)
  rw [List.append_nil] at hall
  rw [json, Json.pretty, String.toList_append, String.toList_ofList]
  exact hall

theorem read_json (templates : List Template) :
    Json.read (Json.value Json.maxDepth) (json templates) =
      .ok (.array (templates.map templateJson)) :=
  (plain_templates templates).read_of_lays (lays_json templates)
    (Nat.le_trans (depth_templates templates) (by decide))

/-- The value of a template holds its path and values of its messages in order, and nothing else. -/
theorem holds_templateJson (t : Template) :
    ∃ messages, templateJson t = .object [("file", .string t.file), ("messages", .array messages)] ∧
      List.Forall₂ Message.StandsFor t.messages messages :=
  ⟨_, rfl, List.forall₂_map_right_iff.mpr
    (List.forall₂_same.mpr fun m _ => m.standsFor_toJson)⟩

/-! ## Extractions -/

/-- What an extraction with this form of report writes. -/
theorem streams_run_json {fs : FileSystem} {colors : Bool} {arguments : List RawText}
    {options : ExtractOptions} {extraction : Project.Extraction}
    (hparse : CommandLine.parse arguments = .ok (some (.extract options)))
    (hformat : options.format = .json) (hprepare : Project.prepare fs options = .ok extraction) :
    (Program.run fs colors arguments).1.streams =
      { stdout := json (extraction.run fs).templates
        stderr := render colors (issues ((extraction.run fs).issues.mergeSort
          Outcome.comesBefore)) } := by
  rw [Project.run_extract hparse hprepare, hformat]
  rfl

/-- The JSON form of any templates is read as an array of just as many objects, each of which holds
the path of a template and, for every message, a value of which all texts are read as the message.
In an extraction that form is all that goes to the standard output; the issues go to the standard
error, as they do for every outcome. -/
theorem json_holds_templates (templates : List Template) :
    (∃ items, Json.read (Json.value Json.maxDepth) (json templates) = .ok (.array items) ∧
      List.Forall₂ (fun t item => ∃ messages,
        item = .object [("file", .string t.file), ("messages", .array messages)] ∧
          List.Forall₂ Message.StandsFor t.messages messages) templates items) ∧
    (∀ colors outcome scanned, outcome.summary = .extract templates scanned .json →
      streams colors outcome =
        { stdout := json templates, stderr := render colors (issues outcome.issues) }) ∧
    ∀ fs colors arguments options extraction,
      CommandLine.parse arguments = .ok (some (.extract options)) → options.format = .json →
      Project.prepare fs options = .ok extraction → (extraction.run fs).templates = templates →
      (Program.run fs colors arguments).1.streams =
        { stdout := json templates
          stderr := render colors (issues ((extraction.run fs).issues.mergeSort
            Outcome.comesBefore)) } := by
  refine ⟨⟨_, read_json templates, ?_⟩, ?_, ?_⟩
  · exact List.forall₂_map_right_iff.mpr (List.forall₂_same.mpr fun t _ => holds_templateJson t)
  · intro colors outcome scanned hsummary
    rw [streams, hsummary]
  · rintro fs colors arguments options extraction hparse hformat hprepare rfl
    exact streams_run_json hparse hformat hprepare

/-- A template with a quotation mark and a line break in its message, and a file that breaks off. -/
def letters : FileSystem where
  root := .directory [(.ofString "templates", .directory
    [(.ofString "page.ast.json", .file (.ofString
        ("\x7b\"kind\":\"function_call\",\"name\":\"_\",\"line\":2,\"arguments\":[" ++
          "\x7b\"kind\":\"literal\",\"value\":\"\\\"\\n\",\"line\":2\x7d]\x7d"))),
      (.ofString "torn.ast.json", .file (.ofString "["))])]

/-- The message is got back, and the file that breaks off is told elsewhere. -/
theorem json_holds_templates_letters :
    let templates := [⟨"./templates/page.ast.json", [Message.plain "\"\n" 2]⟩]
    let arguments := ["extract", "--format=json"].map RawText.ofString
    (Program.run letters true arguments).1.streams =
        { stdout := json templates
          stderr := render true (issues [.parseError "./templates/torn.ast.json"
            ("Failed to parse syntax tree: ./templates/torn.ast.json: " ++
              "EOF while parsing a list at line 1 column 1")]) } ∧
      ∃ items, Json.read (Json.value Json.maxDepth) (json templates) = .ok (.array items) := by
  intro templates arguments
  have hparse : CommandLine.parse arguments = .ok (some (.extract { format := .json })) := by
    decide
  have hprepare : Project.prepare letters { format := .json } =
      .ok ⟨{}, ["./templates/page.ast.json", "./templates/torn.ast.json"]⟩ := by
    have hsorted : ["./templates/page.ast.json", "./templates/torn.ast.json"] =
        Scan.inOrder ["./templates/page.ast.json", "./templates/torn.ast.json"] :=
      Scan.eq_inOrder (by decide) fun _ => Iff.rfl
    rw [hsorted]
    rfl
  have hrun : Project.Extraction.run
      ⟨{}, ["./templates/page.ast.json", "./templates/torn.ast.json"]⟩ letters =
        ⟨templates, [.parseError "./templates/torn.ast.json"
            ("Failed to parse syntax tree: ./templates/torn.ast.json: " ++
              "EOF while parsing a list at line 1 column 1")]⟩ := by
    decide +kernel
  obtain ⟨⟨items, hitems, -⟩, -, hstreams⟩ := json_holds_templates templates
  have htold := hstreams letters true arguments _ _ hparse rfl hprepare (by rw [hrun])
  refine ⟨?_, items, hitems⟩
  rw [htold, hrun, List.mergeSort_singleton]

end Report

end MessageHarvest
