import MessageHarvest.Path

/-!
# Directory trees

What a disk holds: files with their contents, directories with named entries, and symbolic links. A
`Place` leads to an entry name by name from the root, without links and dots.

* `Entry.at?` finds the entry at a place, `Entry.put` and `Entry.erase` change it. What has been put
  somewhere is found there (`Entry.at?_put`).
* `Entry.paths` lists the paths of an entry and of all that it holds. Links are listed, not
  followed.
-/

namespace MessageHarvest

/-- Why a path cannot be used as it is meant to be. -/
inductive FileError where
  | notFound
  | notDirectory
  | isDirectory
  | nameTooLong
  | tooManyLinks
  | nulInName
  | notText
deriving DecidableEq, Repr

def FileError.message : FileError → String
  | notFound => "No such file or directory (os error 2)"
  | notDirectory => "Not a directory (os error 20)"
  | isDirectory => "Is a directory (os error 21)"
  | nameTooLong => "File name too long (os error 36)"
  | tooManyLinks => "Too many levels of symbolic links (os error 40)"
  | nulInName => "file name contained an unexpected NUL byte"
  | notText => "stream did not contain valid UTF-8"

/-- A path of so many bytes is refused. -/
def Path.sizeLimit : Nat := 4096

def Path.isTooLong (path : Path) : Bool :=
  Path.sizeLimit ≤ path.byteCount

inductive Entry where
  | file (content : RawText)
  | directory (entries : List (RawText × Entry))
  | link (target : Path)
deriving Repr, Inhabited

/-- The names that lead from the root to an entry, the last of them first. -/
abbrev Place := List RawText

namespace Entry

def isFile : Entry → Bool
  | file _ => true
  | _ => false

def isDirectory : Entry → Bool
  | directory _ => true
  | _ => false

/-- The entries that a directory holds. -/
def entries : Entry → List (RawText × Entry)
  | directory entries => entries
  | _ => []

/-- The entry to which the names lead, the first of them first. -/
def at? (entry : Entry) : (names : List RawText) → Option Entry
  | [] => some entry
  | name :: names =>
    match entry.entries.lookup name with
    | some inner => inner.at? names
    | none => none

/-- Changes the entry of one name, or adds it. -/
def alter (name : RawText) (change : Option Entry → Entry) :
    List (RawText × Entry) → List (RawText × Entry)
  | [] => [(name, change none)]
  | (n, e) :: es => if n = name then (n, change (some e)) :: es else (n, e) :: alter name change es

/-- Puts a new entry where the names lead. Directories on the way are made if they are missing. -/
def put (entry : Entry) (new : Entry) : (names : List RawText) → Entry
  | [] => new
  | name :: names =>
    directory (alter name (fun old => (old.getD (directory [])).put new names) entry.entries)

/-- Takes away the entry to which the names lead. -/
def erase (entry : Entry) : (names : List RawText) → Entry
  | [] => directory []
  | [name] => directory (entry.entries.filter (·.1 != name))
  | name :: names =>
    directory (entry.entries.map fun (n, e) => (n, if n = name then e.erase names else e))

theorem lookup_alter (name key : RawText) (change : Option Entry → Entry)
    (entries : List (RawText × Entry)) :
    (alter name change entries).lookup key =
      if key = name then some (change (entries.lookup name)) else entries.lookup key := by
  induction entries with
  | nil =>
    by_cases h : key = name
    · simp [alter, h]
    · have hne : (key == name) = false := by simpa using h
      simp [alter, List.lookup_cons, h, hne]
  | cons e es ih =>
    obtain ⟨n, e⟩ := e
    unfold alter
    by_cases hn : n = name
    · subst hn
      by_cases h : key = n
      · simp [h]
      · have hne : (key == n) = false := by simpa using h
        simp [List.lookup_cons, h, hne]
    · have hne : (name == n) = false := by simpa using Ne.symm hn
      by_cases h : key = n
      · subst h
        simp [hn]
      · have hk : (key == n) = false := by simpa using h
        simp [hn, List.lookup_cons, hk, hne, ih]

/-- What has been put somewhere is found there. -/
theorem at?_put (entry new : Entry) (names : List RawText) :
    (entry.put new names).at? names = some new := by
  induction names generalizing entry with
  | nil => rfl
  | cons name names ih => simp [put, at?, entries, lookup_alter, ih]

/-! ## All entries -/

mutual

/-- The paths of the entry, which itself is reached by `path`, and of all that it holds; a directory
that cannot be listed gives an error after its path. -/
def paths (path : Path) : Entry → List (Except FileError Path)
  | directory entries =>
    .ok path :: if path.isTooLong then [.error .nameTooLong] else pathsOfAll path entries
  | file _ => [.ok path]
  | link _ => [.ok path]

def pathsOfAll (path : Path) : List (RawText × Entry) → List (Except FileError Path)
  | [] => []
  | (name, entry) :: entries => entry.paths (path.join name) ++ pathsOfAll path entries

end

end Entry

end MessageHarvest
