import MessageHarvest.Proofs.Glob.Added
import MessageHarvest.Proofs.Scan.Lossy

/-!
# A scan when a file is added

A file whose name is not that of a template is never listed. A scan finds what it found, whatever it
is asked to include and to leave out.

* `Scan.mem_roots_added`, `Scan.of_mem_roots_added`: no root is lost, and only the file can be new.
* `Scan.mem_walk_added`, `Scan.of_mem_walk_added`: on a walk only paths that end in the name of the
  file are new.
* `Scan.mem_found_added`: what a scan accepts.
-/

namespace MessageHarvest

theorem isTreePath_of_fileName? {path name : Path} (h : path.fileName? = some name)
    (hname : Path.IsName name) : isTreePath path = isTreePath name := by
  have hsegments : Path.segments name = [] ++ [name] := Path.segments_of_not_mem hname.no_separator
  have hself : Path.fileName? name = some name := Path.fileName?_of_segments hname hsegments
  rw [isTreePath, isTreePath, h, hself]

namespace Scan

variable {fs fs' : FileSystem} {directory : Place} {name content : RawText} {base : String}
  {includes ignores : List String}

section

variable (h : fs.Adds fs' directory name content)

include h

/-! ## Roots -/

theorem mem_rootsOf_added {text : String} {root : Path}
    (hroot : root ∈ rootsOf fs (.ofString base) text) :
    root ∈ rootsOf fs' (.ofString base) text := by
  have htext := isText_includePath (RawText.isText_ofString base) text
  unfold rootsOf at hroot ⊢
  split
  · rename_i hwildcard
    rw [if_pos hwildcard] at hroot
    exact Glob.mem_expanded_added h htext hroot
  · rename_i hwildcard
    rw [if_neg hwildcard] at hroot
    split at hroot
    · rename_i hexists
      rwa [if_pos (h.exists_of_exists hexists)]
    · cases hroot

theorem of_mem_rootsOf_added {text : String} {root : Path}
    (hroot : root ∈ rootsOf fs' (.ofString base) text) :
    root ∈ rootsOf fs (.ofString base) text ∨ fs.Passes directory name root [] := by
  have htext := isText_includePath (RawText.isText_ofString base) text
  unfold rootsOf at hroot ⊢
  split
  · rename_i hwildcard
    rw [if_pos hwildcard] at hroot
    exact Glob.of_mem_expanded_added h htext hroot
  · rename_i hwildcard
    rw [if_neg hwildcard] at hroot
    split at hroot
    · rename_i hexists
      rcases h.of_exists hexists with hbefore | hfile
      · rw [if_pos hbefore]
        exact .inl hroot
      · rw [List.mem_singleton.mp hroot]
        exact .inr hfile
    · cases hroot

theorem mem_roots_added {root : Path} (hroot : root ∈ roots fs (.ofString base) includes) :
    root ∈ roots fs' (.ofString base) includes := by
  unfold roots at hroot ⊢
  split
  · rename_i hempty
    rwa [if_pos hempty] at hroot
  · rename_i hempty
    rw [if_neg hempty] at hroot
    obtain ⟨text, htext, hroot⟩ := List.mem_flatMap.mp hroot
    exact List.mem_flatMap.mpr ⟨text, htext, mem_rootsOf_added h hroot⟩

theorem of_mem_roots_added {root : Path} (hroot : root ∈ roots fs' (.ofString base) includes) :
    root ∈ roots fs (.ofString base) includes ∨ fs.Passes directory name root [] := by
  unfold roots at hroot ⊢
  split
  · rename_i hempty
    rw [if_pos hempty] at hroot
    exact .inl hroot
  · rename_i hempty
    rw [if_neg hempty] at hroot
    obtain ⟨text, htext, hroot⟩ := List.mem_flatMap.mp hroot
    exact (of_mem_rootsOf_added h hroot).imp_left fun hbefore =>
      List.mem_flatMap.mpr ⟨text, htext, hbefore⟩

/-! ## Walks -/

theorem mem_walk_added {root path : Path} (hmet : .ok path ∈ fs.walk root) :
    .ok path ∈ fs'.walk root := by
  obtain ⟨entry, hentry⟩ := FileSystem.exists_iff.mp (h.linkFree.exists_of_mem_walk hmet)
  cases h.entry_cases root with
  | error failed => cases failed.symm.trans hentry
  | new _ failed => cases failed.symm.trans hentry
  | behind _ _ failed => cases failed.symm.trans hentry
  | grows _ leads leads' _ _ grows =>
    rw [h.linkFree.walk_eq leads] at hmet
    rw [h.linkFree'.walk_eq leads']
    exact grows.mem_paths hmet

theorem of_mem_walk_added {root path : Path} (hmet : .ok path ∈ fs'.walk root) :
    .ok path ∈ fs.walk root ∨ path.fileName? = some name := by
  obtain ⟨entry', hentry'⟩ := FileSystem.exists_iff.mp (h.linkFree'.exists_of_mem_walk hmet)
  cases h.entry_cases root with
  | error _ failed' => cases failed'.symm.trans hentry'
  | behind _ _ _ failed' => cases failed'.symm.trans hentry'
  | new passes _ leads' =>
    rw [h.linkFree'.walk_eq leads', Entry.paths, List.mem_singleton] at hmet
    obtain ⟨front, hsegments, -⟩ := passes
    rw [Except.ok.inj hmet]
    exact .inr (Path.fileName?_of_segments h.isName hsegments)
  | grows _ leads leads' _ _ grows =>
    rw [h.linkFree'.walk_eq leads'] at hmet
    rw [h.linkFree.walk_eq leads]
    refine (grows.of_mem_paths rfl hmet).imp_right ?_
    rintro ⟨above, rfl⟩
    exact Path.fileName?_join above h.isName

/-! ## What is accepted -/

variable (htree : isTreePath name = false)

include htree

theorem accepts_added {base : Path} {ignores : Ignores} (path : Path) :
    accepts fs' base ignores path = accepts fs base ignores path := by
  rw [accepts, accepts]
  by_cases hname : path.fileName? = some name
  · rw [isTreePath_of_fileName? hname h.isName, htree, Bool.and_false, Bool.and_false]
  · rw [h.isFile_eq hname]

theorem mem_found_added {path : Path} :
    path ∈ found fs' base includes ignores ↔ path ∈ found fs base includes ignores := by
  rw [mem_found, mem_found, accepts_added h htree]
  refine and_congr_left fun haccepts => ⟨?_, ?_⟩
  · rintro ⟨root, hroot, hmet⟩
    -- a template has another name than the file, so it was met before, and its root is no new one
    have hbeside : path.fileName? ≠ some name := by
      intro hname
      rw [accepts, isTreePath_of_fileName? hname h.isName, htree, Bool.and_false] at haccepts
      cases haccepts
    have hbefore := (of_mem_walk_added h hmet).resolve_right hbeside
    refine ⟨root, (of_mem_roots_added h hroot).resolve_right fun hpasses => ?_, hbefore⟩
    obtain ⟨entry, hentry⟩ := FileSystem.exists_iff.mp (h.linkFree.exists_of_mem_walk hbefore)
    exact h.entry_of_passes hpasses entry hentry
  · rintro ⟨root, hroot, hmet⟩
    exact ⟨root, mem_roots_added h hroot, mem_walk_added h hmet⟩

end

end Scan

end MessageHarvest
