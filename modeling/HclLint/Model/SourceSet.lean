/-
# Sets of source files

Source files under distinct names, in the order of their names.
-/

import HclLint.Text.Source

namespace HclLint.Model

open HclLint.Text

/-- Puts a file before the first one with a later name, and in the place of one with the
same name. -/
def insertSource (source : Source) : List Source → List Source
  | [] => [source]
  | other :: rest =>
    if source.name < other.name then source :: other :: rest
    else if source.name = other.name then source :: rest
    else other :: insertSource source rest

/-- Nothing but the source is inserted. -/
theorem mem_insertSource {source other : Source} {files : List Source}
    (h : other ∈ insertSource source files) : other = source ∨ other ∈ files := by
  induction files with
  | nil => simpa [insertSource] using h
  | cons file rest ih =>
    simp only [insertSource] at h
    split at h
    · simpa using h
    · split at h
      · rcases List.mem_cons.1 h with h | h
        · exact .inl h
        · exact .inr (List.mem_cons_of_mem _ h)
      · rcases List.mem_cons.1 h with h | h
        · exact .inr (h ▸ List.mem_cons_self)
        · exact (ih h).imp_right (List.mem_cons_of_mem _)

/-- Inserting keeps the sources in the order of their names. -/
theorem pairwise_insertSource {source : Source} {files : List Source}
    (h : files.Pairwise (·.name < ·.name)) :
    (insertSource source files).Pairwise (·.name < ·.name) := by
  induction files with
  | nil => simp [insertSource]
  | cons file rest ih =>
    obtain ⟨hfile, hrest⟩ := List.pairwise_cons.1 h
    simp only [insertSource]
    split
    · next hlt =>
      refine List.pairwise_cons.2 ⟨fun other hother => ?_, h⟩
      rcases List.mem_cons.1 hother with rfl | hother
      · exact hlt
      · exact String.lt_trans hlt (hfile other hother)
    · next hnot =>
      split
      · next heq =>
        exact List.pairwise_cons.2 ⟨fun other hother => heq ▸ hfile other hother, hrest⟩
      · next hne =>
        refine List.pairwise_cons.2 ⟨fun other hother => ?_, ih hrest⟩
        rcases mem_insertSource hother with rfl | hother
        · rcases Std.lt_trichotomy other.name file.name with hlt | heq | hgt
          · exact absurd hlt hnot
          · exact absurd heq hne
          · exact hgt
        · exact hfile other hother

/-- Source files in the strict order of their names. -/
structure SourceSet where
  files : List Source
  ordered : files.Pairwise (·.name < ·.name)

namespace SourceSet

/-- No files. -/
def empty : SourceSet := ⟨[], .nil⟩

/-- The set with one more file, which replaces one of the same name. -/
def insert (set : SourceSet) (source : Source) : SourceSet :=
  ⟨insertSource source set.files, pairwise_insertSource set.ordered⟩

/-- The set of some files. -/
def ofList (files : List Source) : SourceSet := files.foldl insert empty

end SourceSet

end HclLint.Model
