import ELOntology.File.Tree

/-!
# Reading what was written

A path still leads where it has led after a file was written there: the directories are the same, since a file can only be
written where there is one.  So what is read is what was written (`FileTree.read_write`).
-/

namespace ELOntology

namespace FileTree

variable {t t' : FileTree} {path content : String} {place place' : List String}

/-- All that is above a directory is one. -/
theorem isDirectory_of_prefix (h : t.isDirectory place = true) (hbelow : place' <+: place) : t.isDirectory place' = true := by
  obtain ⟨dir, hdir, hplace⟩ := List.any_eq_true.1 h
  refine List.any_eq_true.2 ⟨dir, hdir, ?_⟩
  exact List.isPrefixOf_iff_prefix.2 (hbelow.trans (List.isPrefixOf_iff_prefix.1 hplace))

theorem isDirectory_start (h : t.start? path = some place) : t.isDirectory place = true := by
  have hworking : t.isDirectory t.workingDirectory = true :=
    List.any_eq_true.2 ⟨t.workingDirectory, by simp, List.isPrefixOf_iff_prefix.2 (List.prefix_refl _)⟩
  unfold start? at h
  split at h
  · obtain rfl := Option.some.inj h
    split
    · exact isDirectory_of_prefix hworking List.nil_prefix
    · exact hworking
  · cases h

/-- From a directory a path leads to a directory. -/
theorem isDirectory_step {part : String} (h : t.isDirectory place = true) (hstep : t.step? place part = some place') :
    t.isDirectory place' = true := by
  unfold step? at hstep
  split at hstep
  · exact Option.some.inj hstep ▸ h
  · split at hstep
    · exact Option.some.inj hstep ▸ isDirectory_of_prefix h (List.dropLast_prefix place)
    · split at hstep
      · rename_i hdir
        exact Option.some.inj hstep ▸ hdir
      · cases hstep

theorem isDirectory_steps {parts : List String} (h : t.isDirectory place = true)
    (hsteps : parts.foldlM t.step? place = some place') : t.isDirectory place' = true := by
  induction parts generalizing place with
  | nil => exact Option.some.inj hsteps ▸ h
  | cons part parts ih =>
    rw [List.foldlM_cons] at hsteps
    obtain ⟨next, hnext, hsteps⟩ := Option.bind_eq_some_iff.1 hsteps
    exact ih (isDirectory_step h hnext) hsteps

/-- A file has a directory. -/
theorem isDirectory_dropLast (h : t.locate? path = some place) : t.isDirectory place.dropLast = true := by
  unfold locate? at h
  obtain ⟨start, hstart, h⟩ := Option.bind_eq_some_iff.1 h
  obtain ⟨dir, hdir, h⟩ := Option.bind_eq_some_iff.1 h
  obtain ⟨name, -, h⟩ := Option.bind_eq_some_iff.1 h
  split at h
  · obtain rfl := Option.some.inj h
    rw [List.dropLast_concat]
    exact isDirectory_steps (isDirectory_start hstart) hdir
  · cases h

/-- Paths lead where they have led as long as the directories are the same. -/
theorem locate?_congr (hworking : t'.workingDirectory = t.workingDirectory)
    (hdirectory : ∀ place, t'.isDirectory place = t.isDirectory place) : t'.locate? path = t.locate? path := by
  have hstep : t'.step? = t.step? := by
    funext place part
    simp only [step?, hdirectory]
  have hstart : t'.start? path = t.start? path := by
    rw [start?, hworking, start?]
  rw [locate?, locate?, hstep, hstart]

/-- Writing a file makes no directory and removes none. -/
theorem isDirectory_write (hplace : t.isDirectory place.dropLast = true) (other : List String) :
    isDirectory { t with files := (place, content) :: t.files.filter fun f => f.1 ≠ place } other = t.isDirectory other := by
  refine Bool.eq_iff_iff.2 ⟨fun h => ?_, fun h => ?_⟩
  · obtain ⟨dir, hdir, hother⟩ := List.any_eq_true.1 h
    simp only [List.map_cons, List.cons_append, List.mem_cons, List.mem_append, List.mem_map, List.mem_filter] at hdir
    rcases hdir with rfl | hmade | rfl | ⟨f, ⟨hf, -⟩, rfl⟩
    · exact List.any_eq_true.2 ⟨_, by simp, hother⟩
    · exact List.any_eq_true.2 ⟨dir, by simp [hmade], hother⟩
    · exact isDirectory_of_prefix hplace (List.isPrefixOf_iff_prefix.1 hother)
    · exact List.any_eq_true.2 ⟨_, List.mem_cons_of_mem _ (List.mem_append_right _ (List.mem_map_of_mem hf)), hother⟩
  · obtain ⟨dir, hdir, hother⟩ := List.any_eq_true.1 h
    refine List.any_eq_true.2 ⟨dir, ?_, hother⟩
    simp only [List.cons_append, List.mem_cons, List.mem_append, List.mem_map] at hdir
    simp only [List.map_cons, List.cons_append, List.mem_cons, List.mem_append, List.mem_map, List.mem_filter]
    rcases hdir with rfl | hmade | ⟨f, hf, rfl⟩
    · exact .inl rfl
    · exact .inr (.inl hmade)
    · by_cases e : f.1 = place
      · exact .inr (.inr (.inl (by rw [e])))
      · exact .inr (.inr (.inr ⟨f, ⟨hf, by simpa using e⟩, rfl⟩))

/-- What was written is read. -/
theorem read_write (h : t.write path content = some t') : t'.read path = some content := by
  unfold write at h
  obtain ⟨place, hplace, h⟩ := Option.bind_eq_some_iff.1 h
  split at h
  · cases h
  · have hwritten := Option.some.inj h
    have hworking : t'.workingDirectory = t.workingDirectory := by rw [← hwritten]
    have hdirectory : ∀ other, t'.isDirectory other = t.isDirectory other := by
      rw [← hwritten]
      exact isDirectory_write (isDirectory_dropLast hplace)
    have hcontent : t'.content? place = some content := by
      rw [← hwritten, content?, List.find?_cons_of_pos (by simp)]
      rfl
    rw [read, locate?_congr hworking hdirectory, hplace, Option.bind_some, hcontent]

end FileTree

end ELOntology
