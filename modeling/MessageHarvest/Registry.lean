/-!
# The registry of template functions

A registry says which functions templates may call and how their arguments are named. Only
membership decides whether a call is accepted; the argument names are there for readers of
the registry.

* `Registry.markers` registers the four functions that mark a message.
* `Registry.lookup_register`: a later registration of a name replaces the earlier one and
  leaves all other names alone.
-/

namespace MessageHarvest

/-- Functions by name, each with the names of its arguments. -/
structure Registry where
  entries : List (String × List String) := []
deriving Repr

namespace Registry

def empty : Registry := {}

/-- The argument names registered for `name`. -/
def lookup (registry : Registry) (name : String) : Option (List String) :=
  registry.entries.lookup name

/-- Registers `name`, in place of an earlier registration of it. -/
def register (registry : Registry) (name : String) (arguments : List String) : Registry where
  entries := (name, arguments) :: registry.entries.filter (·.1 != name)

def size (registry : Registry) : Nat :=
  registry.entries.length

def isEmpty (registry : Registry) : Bool :=
  registry.entries.isEmpty

/-- The functions that mark a message. -/
def markers : Registry :=
  empty
    |>.register "_" ["message"]
    |>.register "__" ["message", "args"]
    |>.register "_n" ["singular", "plural", "count"]
    |>.register "__n" ["singular", "plural", "count", "args"]

theorem lookup_filter_ne {entries : List (String × List String)} {name key : String}
    (h : key ≠ name) : (entries.filter (·.1 != name)).lookup key = entries.lookup key := by
  induction entries with
  | nil => rfl
  | cons e es ih =>
    obtain ⟨k, v⟩ := e
    by_cases hk : k = name
    · have hne : (key == k) = false := by simpa [hk] using h
      simp [hk, ih, List.lookup_cons, hk ▸ hne]
    · by_cases hkey : key = k
      · simp [hk, hkey]
      · have hne : (key == k) = false := by simpa using hkey
        simp [hk, List.lookup_cons, hne, ih]

theorem lookup_register (registry : Registry) (name key : String) (arguments : List String) :
    (registry.register name arguments).lookup key =
      if key = name then some arguments else registry.lookup key := by
  by_cases h : key = name
  · simp [lookup, register, h]
  · have hne : (key == name) = false := by simpa using h
    simp [lookup, register, List.lookup_cons, hne, h, lookup_filter_ne h]

end Registry

end MessageHarvest
