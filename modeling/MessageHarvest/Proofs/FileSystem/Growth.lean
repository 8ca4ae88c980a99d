import MessageHarvest.Proofs.FileSystem.Descent

/-!
# An entry grows

What becomes of an entry when a file is put under a new name in a directory at or below it: that
directory has one more entry, and nothing else is changed.

* `Entry.Grows`: an entry before and after. `Entry.grows_put`: putting a file lets an entry grow.
* `Entry.Grows.mem_paths`, `Entry.Grows.of_mem_paths`: only the path of the file is new.
* `Entry.atAdded_put`: only one place is new.
-/

namespace MessageHarvest

namespace Entry

/-- An entry and what becomes of it when a file of the name is added at or below it. -/
inductive Grows (name : RawText) (added : Entry) : Entry → Entry → Prop
  | same (entry : Entry) : Grows name added entry entry
  | new {entries : List (RawText × Entry)} (absent : entries.lookup name = none) :
      Grows name added (.directory entries) (.directory (entries ++ [(name, added)]))
  | inside {before after : List (RawText × Entry)} {key : RawText} {inner inner' : Entry}
      (grows : Grows name added inner inner') :
      Grows name added (.directory (before ++ (key, inner) :: after))
        (.directory (before ++ (key, inner') :: after))

theorem alter_of_lookup_eq_none {name : RawText} (change : Option Entry → Entry)
    {entries : List (RawText × Entry)} (h : entries.lookup name = none) :
    alter name change entries = entries ++ [(name, change none)] := by
  induction entries with
  | nil => rfl
  | cons held entries ih =>
    obtain ⟨key, entry⟩ := held
    rw [List.lookup_cons] at h
    cases hkey : name == key with
    | true => rw [hkey] at h; cases h
    | false =>
      rw [hkey] at h
      have hne : key ≠ name := fun heq => by simp [heq] at hkey
      rw [alter, if_neg hne, ih h, List.cons_append]

theorem exists_alter_of_lookup {name : RawText} (change : Option Entry → Entry)
    {entries : List (RawText × Entry)} {inner : Entry} (h : entries.lookup name = some inner) :
    ∃ before after, entries = before ++ (name, inner) :: after ∧
      alter name change entries = before ++ (name, change (some inner)) :: after := by
  induction entries with
  | nil => cases h
  | cons held entries ih =>
    obtain ⟨key, entry⟩ := held
    rw [List.lookup_cons] at h
    cases hkey : name == key with
    | true =>
      rw [hkey] at h
      obtain rfl := Option.some.inj h
      obtain rfl : name = key := by simpa using hkey
      exact ⟨[], entries, rfl, by rw [alter, if_pos rfl]; rfl⟩
    | false =>
      rw [hkey] at h
      have hne : key ≠ name := fun heq => by simp [heq] at hkey
      obtain ⟨before, after, heq, halter⟩ := ih h
      refine ⟨(key, entry) :: before, after, by rw [heq]; rfl, ?_⟩
      rw [alter, if_neg hne, halter]
      rfl

variable {name : RawText} {added entry entry' : Entry}

/-- What is put under a new name of a directory below an entry lets the entry grow. -/
theorem grows_put {above : List RawText} {entries : List (RawText × Entry)}
    (habove : entry.at? above = some (.directory entries)) (habsent : entries.lookup name = none) :
    Grows name added entry (entry.put added (above ++ [name])) := by
  induction above generalizing entry with
  | nil =>
    cases habove
    have hput : (Entry.directory entries).put added [name] =
        .directory (entries ++ [(name, added)]) := by
      rw [put, Entry.entries, alter_of_lookup_eq_none _ habsent]
      rfl
    rw [List.nil_append, hput]
    exact .new habsent
  | cons key above ih =>
    rw [at?] at habove
    cases hlookup : entry.entries.lookup key with
    | none => rw [hlookup] at habove; cases habove
    | some inner =>
      rw [hlookup] at habove
      obtain ⟨before, after, heq, halter⟩ := exists_alter_of_lookup
        (fun old => (old.getD (directory [])).put added (above ++ [name])) hlookup
      cases entry with
      | file | link => cases hlookup
      | directory held =>
        have hheld : held = before ++ (key, inner) :: after := heq
        rw [List.cons_append, put, halter, hheld]
        exact .inside (ih habove)

/-- What is listed under a path is the entry itself, or listed under an entry that it holds. -/
theorem mem_paths_iff {path found : Path} :
    .ok found ∈ entry.paths path ↔ found = path ∨ path.isTooLong = false ∧
      ∃ held ∈ entry.entries, .ok found ∈ held.2.paths (path.join held.1) := by
  have hself : ∀ {outcomes : List (Except FileError Path)},
      .ok found ∈ .ok path :: outcomes ↔ found = path ∨ .ok found ∈ outcomes := by
    intro outcomes
    rw [List.mem_cons]
    exact or_congr_left ⟨Except.ok.inj, congrArg _⟩
  cases entry with
  | file | link => simp [paths, entries]
  | directory held =>
    rw [paths, hself]
    refine or_congr_right ?_
    cases path.isTooLong with
    | true => simp
    | false =>
      rw [if_neg Bool.false_ne_true, mem_pathsOfAll]
      exact ⟨fun h => ⟨rfl, h⟩, And.right⟩

namespace Grows

/-- Only directories grow. -/
theorem eq_or_directory (h : Grows name added entry entry') :
    entry' = entry ∨
      ∃ entries entries', entry = .directory entries ∧ entry' = .directory entries' := by
  cases h with
  | same => exact .inl rfl
  | new => exact .inr ⟨_, _, rfl, rfl⟩
  | inside => exact .inr ⟨_, _, rfl, rfl⟩

theorem isDirectory_eq (h : Grows name added entry entry') :
    entry'.isDirectory = entry.isDirectory := by
  rcases h.eq_or_directory with rfl | ⟨entries, entries', rfl, rfl⟩ <;> rfl

theorem isFile_eq (h : Grows name added entry entry') : entry'.isFile = entry.isFile := by
  rcases h.eq_or_directory with rfl | ⟨entries, entries', rfl, rfl⟩ <;> rfl

theorem linkFree (h : Grows name added entry entry') (hadded : added.LinkFree)
    (hentry : entry.LinkFree) : entry'.LinkFree := by
  induction h with
  | same => exact hentry
  | new =>
    cases hentry with
    | directory entries_linkFree =>
      refine .directory fun held hheld => ?_
      rcases List.mem_append.mp hheld with hheld | hheld
      · exact entries_linkFree held hheld
      · rw [List.mem_singleton.mp hheld]
        exact hadded
  | @inside before after key inner inner' _ ih =>
    cases hentry with
    | directory entries_linkFree =>
      have hinner := ih (entries_linkFree (key, inner) (by simp))
      refine .directory fun held hheld => ?_
      rcases List.mem_append.mp hheld with hheld | hheld
      · exact entries_linkFree held (List.mem_append_left _ hheld)
      · rcases List.mem_cons.mp hheld with rfl | hheld
        · exact hinner
        · exact entries_linkFree held (by simp [hheld])

/-- Every entry is still held. -/
theorem exists_of_mem (h : Grows name added entry entry') {held : RawText × Entry}
    (hheld : held ∈ entry.entries) :
    ∃ inner', (held.1, inner') ∈ entry'.entries ∧ Grows name added held.2 inner' := by
  cases h with
  | same => exact ⟨held.2, hheld, .same _⟩
  | new => exact ⟨held.2, List.mem_append_left _ hheld, .same _⟩
  | inside grows =>
    rw [entries, List.mem_append, List.mem_cons] at hheld
    rcases hheld with hheld | rfl | hheld
    · exact ⟨held.2, List.mem_append_left _ hheld, .same _⟩
    · exact ⟨_, List.mem_append_right _ List.mem_cons_self, grows⟩
    · exact ⟨held.2, List.mem_append_right _ (List.mem_cons_of_mem _ hheld), .same _⟩

/-- What is held was held before, or it is what was added. -/
theorem of_mem (h : Grows name added entry entry') {held : RawText × Entry}
    (hheld : held ∈ entry'.entries) :
    (∃ inner, (held.1, inner) ∈ entry.entries ∧ Grows name added inner held.2) ∨
      held = (name, added) ∧ entry.at? [name] = none := by
  cases h with
  | same => exact .inl ⟨held.2, hheld, .same _⟩
  | new absent =>
    rcases List.mem_append.mp hheld with hheld | hheld
    · exact .inl ⟨held.2, hheld, .same _⟩
    · exact .inr ⟨List.mem_singleton.mp hheld, by rw [at?, entries, absent]⟩
  | inside grows =>
    rw [entries, List.mem_append, List.mem_cons] at hheld
    rcases hheld with hheld | rfl | hheld
    · exact .inl ⟨held.2, List.mem_append_left _ hheld, .same _⟩
    · exact .inl ⟨_, List.mem_append_right _ List.mem_cons_self, grows⟩
    · exact .inl ⟨held.2, List.mem_append_right _ (List.mem_cons_of_mem _ hheld), .same _⟩

/-- Every path is still listed. -/
theorem mem_paths (h : Grows name added entry entry') {path found : Path}
    (hfound : .ok found ∈ entry.paths path) : .ok found ∈ entry'.paths path := by
  induction h generalizing path with
  | same => exact hfound
  | new =>
    refine mem_paths_iff.mpr ((mem_paths_iff.mp hfound).imp_right ?_)
    rintro ⟨hsize, held, hheld, hmore⟩
    exact ⟨hsize, held, List.mem_append_left _ hheld, hmore⟩
  | @inside before after key inner inner' _ ih =>
    refine mem_paths_iff.mpr ((mem_paths_iff.mp hfound).imp_right ?_)
    rintro ⟨hsize, held, hheld, hmore⟩
    rw [entries, List.mem_append, List.mem_cons] at hheld
    rcases hheld with hheld | rfl | hheld
    · exact ⟨hsize, held, List.mem_append_left _ hheld, hmore⟩
    · exact ⟨hsize, (key, inner'), List.mem_append_right _ List.mem_cons_self, ih hmore⟩
    · exact ⟨hsize, held, List.mem_append_right _ (List.mem_cons_of_mem _ hheld), hmore⟩

/-- What is listed was listed before, or it ends in the name of the file. -/
theorem of_mem_paths (h : Grows name added entry entry') (hadded : added.entries = [])
    {path found : Path} (hfound : .ok found ∈ entry'.paths path) :
    .ok found ∈ entry.paths path ∨ ∃ above : Path, found = above.join name := by
  induction h generalizing path with
  | same => exact .inl hfound
  | new =>
    rcases mem_paths_iff.mp hfound with rfl | ⟨hsize, held, hheld, hmore⟩
    · exact .inl (mem_paths_iff.mpr (.inl rfl))
    · rcases List.mem_append.mp hheld with hheld | hheld
      · exact .inl (mem_paths_iff.mpr (.inr ⟨hsize, held, hheld, hmore⟩))
      · rw [List.mem_singleton.mp hheld, mem_paths_iff, hadded] at hmore
        exact .inr ⟨path, hmore.resolve_right (by simp)⟩
  | @inside before after key inner inner' _ ih =>
    rcases mem_paths_iff.mp hfound with rfl | ⟨hsize, held, hheld, hmore⟩
    · exact .inl (mem_paths_iff.mpr (.inl rfl))
    · have hkeep : held ∈ before ++ (key, inner) :: after →
          .ok found ∈ (Entry.directory (before ++ (key, inner) :: after)).paths path :=
        fun hheld => mem_paths_iff.mpr (.inr ⟨hsize, held, hheld, hmore⟩)
      rw [entries, List.mem_append, List.mem_cons] at hheld
      rcases hheld with hheld | rfl | hheld
      · exact .inl (hkeep (List.mem_append_left _ hheld))
      · refine (ih hmore).imp_left fun hinner => ?_
        exact mem_paths_iff.mpr
          (.inr ⟨hsize, (key, inner), List.mem_append_right _ List.mem_cons_self, hinner⟩)
      · exact .inl (hkeep (List.mem_append_right _ (List.mem_cons_of_mem _ hheld)))

end Grows

theorem not_mem_of_at?_eq_none (h : entry.at? [name] = none) (inner : Entry) :
    (name, inner) ∉ entry.entries := by
  intro hmem
  rw [at?] at h
  cases hlookup : entry.entries.lookup name with
  | none => simpa using List.lookup_eq_none_iff.mp hlookup _ hmem
  | some other => rw [hlookup] at h; cases h

theorem at?_put_cons (entry added : Entry) (key first : RawText) (rest names : List RawText) :
    (entry.put added (key :: rest)).at? (first :: names) =
      if first = key then
        (((entry.entries.lookup key).getD (directory [])).put added rest).at? names
      else entry.at? (first :: names) := by
  rw [put, at?, entries, lookup_alter]
  by_cases hfirst : first = key
  · rw [if_pos hfirst, if_pos hfirst]
  · rw [if_neg hfirst, if_neg hfirst, at?]

/-- What names lead to when a file has been added, against what they led to. -/
inductive AtAdded (name : RawText) (added : Entry) (new : Prop) : Option Entry → Option Entry → Prop
  | none : AtAdded name added new none none
  | some {entry entry' : Entry} (grows : Grows name added entry entry') :
      AtAdded name added new (some entry) (some entry')
  | added (isNew : new) : AtAdded name added new none (some added)

theorem AtAdded.refl {new : Prop} (entry : Option Entry) : AtAdded name added new entry entry := by
  cases entry with
  | none => exact .none
  | some entry => exact .some (.same entry)

theorem AtAdded.imp {new new' : Prop} (himp : new → new') {found found' : Option Entry}
    (h : AtAdded name added new found found') : AtAdded name added new' found found' := by
  cases h with
  | none => exact .none
  | some grows => exact .some grows
  | added isNew => exact .added (himp isNew)

/-- Only one place is new. -/
theorem atAdded_put {above : List RawText} {entries : List (RawText × Entry)}
    (habove : entry.at? above = some (.directory entries)) (habsent : entries.lookup name = none)
    (hadded : added.entries = []) (names : List RawText) :
    AtAdded name added (names = above ++ [name]) (entry.at? names)
      ((entry.put added (above ++ [name])).at? names) := by
  have hgrows : Grows name added entry (entry.put added (above ++ [name])) :=
    grows_put habove habsent
  induction above generalizing entry names with
  | nil =>
    cases habove
    cases names with
    | nil => exact .some hgrows
    | cons first names =>
      rw [List.nil_append, at?_put_cons]
      split
      · rename_i hfirst
        rw [at?, hfirst, Entry.entries, habsent]
        cases names with
        | nil => exact .added rfl
        | cons next names =>
          rw [Option.getD_none, put, at?, hadded]
          exact .none
      · exact .refl _
  | cons key above ih =>
    cases names with
    | nil => exact .some hgrows
    | cons first names =>
      rw [List.cons_append, at?_put_cons]
      split
      · rename_i hfirst
        rw [at?] at habove ⊢
        rw [hfirst]
        cases hlookup : entry.entries.lookup key with
        | none => rw [hlookup] at habove; cases habove
        | some inner =>
          rw [hlookup] at habove
          exact (ih habove names (grows_put habove habsent)).imp fun heq => by rw [heq]
      · exact .refl _

end Entry

end MessageHarvest
