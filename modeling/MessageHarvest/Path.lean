import MessageHarvest.Text.Raw

/-!
# Paths

A path keeps its spelling: `a//b`, `./a/b` and `a/b/.` lead to the same place and are written as
they were given. Two views look through the spelling.

* `Path.segments` are the stretches between separators, empty ones included. They are the spelling
  (`Path.ofSegments_segments`).
* `Path.components` are the steps that a path takes: names and `..`, after the root or a leading
  dot. Empty segments and further dots are no steps.

Nothing here looks at files, so `a/../b` is not `b`.
-/

namespace MessageHarvest

abbrev Path := RawText

namespace Path

def separator : Glyph := .char '/'

/-- The name by which a directory calls itself. -/
def here : RawText := [.char '.']

/-- The name by which a directory calls the one that holds it. -/
def up : RawText := [.char '.', .char '.']

def isAbsolute (path : Path) : Bool :=
  path.head? = some separator

/-! ## Segments -/

/-- The stretches between separators. -/
def segments : Path → List RawText
  | [] => [[]]
  | g :: gs =>
    if g = separator then [] :: segments gs
    else match segments gs with
      | [] => [[g]]
      | s :: ss => (g :: s) :: ss

def ofSegments (segments : List RawText) : Path :=
  [separator].intercalate segments

theorem segments_ne_nil (path : Path) : path.segments ≠ [] := by
  cases path with
  | nil => simp [segments]
  | cons g gs =>
    simp only [segments]
    split
    · simp
    · split <;> simp

/-- The segments tell the spelling of a path. -/
theorem ofSegments_segments (path : Path) : ofSegments path.segments = path := by
  induction path with
  | nil => rfl
  | cons g gs ih =>
    obtain ⟨s, ss, h⟩ := List.exists_cons_of_ne_nil (segments_ne_nil gs)
    rw [h] at ih
    simp only [segments]
    split
    · rename_i hg
      simp [ofSegments, List.intercalate, h, hg] at ih ⊢
      exact ih
    · cases ss with
      | nil => simpa [ofSegments, List.intercalate, h] using ih
      | cons t ts => simpa [ofSegments, List.intercalate, h, List.intersperse] using ih

/-- Whether a segment is no step. -/
def isIdle (segment : RawText) : Bool :=
  segment = [] || segment = here

/-- The segments without idle ones at the end. -/
def trimEnd (segments : List RawText) : List RawText :=
  (segments.reverse.dropWhile isIdle).reverse

/-- What a path starts from: the root, the directory that a leading dot names, or nothing; and the
segments after it. -/
def anchorAndBody (path : Path) : RawText × List RawText :=
  match segments path with
  | [] => ([], [])
  | first :: rest =>
    if first = [] ∧ rest ≠ [] then ([separator], rest)
    else if first = here then (here, rest)
    else ([], first :: rest)

/-- The path with this anchor and these segments after it. -/
def assemble (anchor : RawText) (body : List RawText) : Path :=
  if anchor = here ∧ body ≠ [] then here ++ separator :: ofSegments body
  else anchor ++ ofSegments body

/-! ## Components -/

/-- A step of a path. The first two come first or not at all. -/
inductive Component where
  | root
  | here
  | up
  | name (name : RawText)
deriving DecidableEq, Repr

/-- The step that a segment is. -/
def component? (segment : RawText) : Option Component :=
  if isIdle segment then none
  else if segment = up then some .up
  else some (.name segment)

/-- The steps of a path. -/
def components (path : Path) : List Component :=
  let (anchor, body) := anchorAndBody path
  let steps := body.filterMap component?
  if anchor = [separator] then .root :: steps
  else if anchor = here then .here :: steps
  else steps

/-- Whether the first steps of a path are those of `start`. -/
def startsWith (path start : Path) : Bool :=
  start.components.isPrefixOf path.components

/-- The name that a path ends in, if its last step is a name. -/
def fileName? (path : Path) : Option RawText :=
  match path.components.getLast? with
  | some (.name name) => some name
  | _ => none

/-! ## Making paths -/

/-- The path that leads on from `path` by `rest`. An absolute path leads away. -/
def join (path rest : Path) : Path :=
  if rest.isAbsolute then rest
  else if path = [] ∨ path.getLast? = some separator then path ++ rest
  else path ++ separator :: rest

/-- The path without its last step. The root and the empty path have none. -/
def parent? (path : Path) : Option Path :=
  let (anchor, body) := anchorAndBody path
  match trimEnd body with
  | [] => if anchor = here then some [] else none
  | s :: ss => some (assemble anchor (trimEnd (s :: ss).dropLast))

/-- The segments without the first `count` steps. -/
def dropSteps : (count : Nat) → List RawText → List RawText
  | 0, ss => ss
  | _ + 1, [] => []
  | count + 1, s :: ss => if isIdle s then dropSteps (count + 1) ss else dropSteps count ss

/-- What is left of a path after the steps of `start`, if it starts with them. -/
def stripPrefix? (path start : Path) : Option Path :=
  if path.startsWith start then
    let (anchor, body) := anchorAndBody path
    if start.components = [] then some (assemble anchor (trimEnd body))
    else
      let steps := (anchorAndBody start).2.filterMap component?
      some (ofSegments (trimEnd ((dropSteps steps.length body).dropWhile isIdle)))
  else none

end Path

end MessageHarvest
