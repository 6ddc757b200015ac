/-
# Names of override files

A file overrides others because of the name that its path ends in: `override.tf`, or a stem with
`_override.tf` behind it. In the second case the file belongs to the one of that stem in the same
directory. The stem may not be empty, and the ending has to end the path as well.

Override files are no base files: no template is made for them and none of their resources is
counted again, unless they bring a resource that no base file declares.

## Main definitions

* `NamesOverride`: the names of override files.
* `CountsBases`: templates and resources, counted from the base files alone.

## Main statements

* `ofName_eq_override_some_iff`: the override files that belong to a file.
* `load_counts_named_bases`: what name a file overrides by, and what that leaves to count.
-/

import HclLint.Proofs.Merge.Placement
import HclLint.Proofs.Text.FileName

namespace HclLint.Model

open HclLint.Text HclLint.Text.Path

/-- The names of override files: `override.tf`, and stems with `_override.tf` behind them. -/
def NamesOverride (name : String) : Prop :=
  name = "override.tf" ∨ ∃ stem, stem ≠ "" ∧ name = stem ++ "_override.tf"

variable {name home directory stem last trail : String}

/-! ## Endings and stems -/

theorem withoutEnding?_eq_some_iff (ending text stem : String) :
    withoutEnding? ending text = some stem ↔ text = stem ++ ending := by
  unfold withoutEnding?
  constructor
  · intro found
    simp only [Option.ite_none_right_eq_some, Option.some.injEq] at found
    obtain ⟨ends, rfl⟩ := found
    obtain ⟨front, whole⟩ := List.isSuffixOf_iff_suffix.mp ends
    refine String.ext ?_
    simp [← whole]
  · rintro rfl
    simp

/-- What stands in front of the ending may be the stem of a file unless it is a directory. -/
theorem isDirectory_append_iff (isDirectory : IsDirectory directory)
    (no_slash : '/' ∉ stem.toList) :
    ((directory ++ stem).isEmpty || (directory ++ stem).toList.getLast? == some '/') = true ↔
      stem = "" := by
  constructor
  · intro ends
    by_contra ne_empty
    have ne_nil : stem.toList ≠ [] := by simpa using ne_empty
    -- The whole ends in the last character of the stem, which is no slash.
    have slash : stem.toList.getLast ne_nil = '/' := by
      simpa [ne_empty, List.getLast?_append, List.getLast?_eq_some_getLast ne_nil] using ends
    exact no_slash (slash ▸ List.getLast_mem ne_nil)
  · rintro rfl
    rcases isDirectory with rfl | ⟨path, rfl⟩
    · simp
    · simp

/-- A stem with the ending behind it is longer than the other names of interest. -/
theorem specific_ne {short : String} (few : short.length < 12) :
    stem ++ "_override.tf" ≠ short := by
  rintro rfl
  have ending : "_override.tf".length = 12 := rfl
  rw [String.length_append, ending] at few
  omega

/-- A stem without a slash makes a file name together with the ending. -/
theorem isFileName_specific (no_slash : '/' ∉ stem.toList) :
    IsFileName (stem ++ "_override.tf") := by
  refine ⟨?_, specific_ne (by decide), specific_ne (by decide), specific_ne (by decide)⟩
  rw [String.toList_append, List.mem_append]
  exact not_or.mpr ⟨no_slash, by decide⟩

/-! ## Roles -/

theorem endsIn_specific (isDirectory : IsDirectory directory) (no_slash : '/' ∉ stem.toList) :
    EndsIn (directory ++ stem ++ "_override.tf") directory (stem ++ "_override.tf") "" where
  path_eq := by rw [String.append_assoc, String.append_empty]
  directory := isDirectory
  name := isFileName_specific no_slash
  trail := .nil

/-- The override files that belong to a file are those whose paths end in a stem and the ending.
They belong to the file of that stem in their directory. -/
theorem ofName_eq_override_some_iff : FileRole.ofName name = .override (some home) ↔
    ∃ directory stem, IsDirectory directory ∧ '/' ∉ stem.toList ∧ stem ≠ "" ∧
      name = directory ++ stem ++ "_override.tf" ∧ home = directory ++ stem ++ ".tf" := by
  unfold FileRole.ofName
  constructor
  · intro role
    split at role
    · cases role
    · cases found : withoutEnding? "_override.tf" name with
      | none => simp [found] at role
      | some front =>
        obtain rfl := (withoutEnding?_eq_some_iff _ _ _).mp found
        -- What stands in front of the ending is no directory, so it has a stem.
        obtain ⟨directory, stem, isDirectory, no_slash, rfl⟩ := exists_directory front
        simp only [found] at role
        split at role
        · cases role
        · next proper =>
          obtain rfl := Option.some.inj (FileRole.override.inj role)
          exact ⟨directory, stem, isDirectory, no_slash,
            mt (isDirectory_append_iff isDirectory no_slash).mpr proper, rfl, rfl⟩
  · rintro ⟨directory, stem, isDirectory, no_slash, ne_empty, rfl, rfl⟩
    -- The name that the path ends in is longer than `override.tf`.
    have specific := (endsIn_specific isDirectory no_slash).fileName?
    have proper := mt (isDirectory_append_iff isDirectory no_slash).mp ne_empty
    rw [specific, Option.getD_some, if_neg (specific_ne (by decide)),
      (withoutEnding?_eq_some_iff _ _ _).mpr rfl]
    exact if_neg proper

/-- The override files that belong to no file are those whose paths end in `override.tf`. -/
theorem ofName_eq_override_none_iff_endsIn : FileRole.ofName name = .override none ↔
    ∃ directory trail, EndsIn name directory "override.tf" trail := by
  rw [ofName_eq_override_none_iff, fileName?_eq_some_iff]

/-- A file that overrides others has the name of an override file. -/
theorem namesOverride_of_isOverride (overrides : (FileRole.ofName name).isOverride = true) :
    ∃ directory last trail, EndsIn name directory last trail ∧ NamesOverride last := by
  cases role : FileRole.ofName name with
  | base => simp [role, FileRole.isOverride] at overrides
  | override home =>
    cases home with
    | none =>
      obtain ⟨directory, trail, ends⟩ := ofName_eq_override_none_iff_endsIn.mp role
      exact ⟨directory, _, trail, ends, .inl rfl⟩
    | some home =>
      obtain ⟨directory, stem, isDirectory, no_slash, ne_empty, rfl, _⟩ :=
        ofName_eq_override_some_iff.mp role
      exact ⟨directory, _, _, endsIn_specific isDirectory no_slash, .inr ⟨stem, ne_empty, rfl⟩⟩

/-- A path that ends in the name of an override file, with nothing behind it, belongs to the file
of the same stem in the same directory. -/
theorem ofName_of_endsIn (ends : EndsIn name directory (stem ++ "_override.tf") "")
    (ne_empty : stem ≠ "") :
    FileRole.ofName name = .override (some (directory ++ stem ++ ".tf")) := by
  obtain ⟨rfl, isDirectory, proper, _⟩ := ends
  have no_slash : '/' ∉ stem.toList := by
    intro slash
    exact proper.no_slash (by simp [slash])
  refine ofName_eq_override_some_iff.mpr
    ⟨directory, stem, isDirectory, no_slash, ne_empty, ?_, rfl⟩
  rw [String.append_empty, String.append_assoc]

/-- Where nothing follows the name that a path ends in, that name alone settles whether the file
overrides others. -/
theorem isOverride_iff_namesOverride (ends : EndsIn name directory last "") :
    (FileRole.ofName name).isOverride = true ↔ NamesOverride last := by
  constructor
  · intro overrides
    obtain ⟨_, other, _, endsIn, named⟩ := namesOverride_of_isOverride overrides
    obtain rfl := endsIn.unique ends
    exact named
  · rintro (rfl | ⟨stem, ne_empty, rfl⟩)
    · rw [ofName_eq_override_none_iff_endsIn.mpr ⟨directory, "", ends⟩]
      rfl
    · rw [ofName_of_endsIn ends ne_empty]
      rfl

/-! ## What is counted -/

/-- Templates and their resources, counted from the base files alone. There is one template for
each base file, and further ones only for override files that bring a resource which no base file
declares. A resource that some file declares is there once for each base file that declares it,
and once if none does. No base file has the name of an override file. -/
structure CountsBases (all : List Declarations) (templates : List Template) : Prop where
  named : ∀ d ∈ all, ∀ directory last, EndsIn d.file directory last "" →
    (d ∈ baseFiles all ↔ ¬NamesOverride last)
  files : ∃ made, templates.map (·.file) = (baseFiles all).map (·.file) ++ made ∧
    ∀ file ∈ made, ∃ d ∈ all, d.file = file ∧
      (∃ directory last trail, EndsIn file directory last trail ∧ NamesOverride last) ∧
      ∃ key, d.declares key = true ∧ ∀ base ∈ baseFiles all, base.declares key = false
  distinct_files : (templates.map (·.file)).Nodup
  resources : ∀ key, (∃ d ∈ all, d.declares key = true) →
    (templates.flatMap (·.resources)).countP (·.key == key) =
      max 1 ((baseFiles all).countP (·.declares key))

theorem countsBases_mergedTemplates {precedence : Precedence} {all : List Declarations}
    (sound : ∀ d ∈ all, d.WellFormed) (ordered : all.Pairwise (·.file < ·.file)) :
    CountsBases all (mergedTemplates precedence all) where
  named := by
    intro d member directory last ends
    rw [mem_baseFiles_iff, and_iff_right member, ← isOverride_iff_namesOverride ends,
      Bool.not_eq_true, Declarations.isOverride]
  files := by
    -- Further templates are those of the places that no base file has.
    refine ⟨newPlaces (baseNames all) (additionsOf precedence all), ?_, fun file new => ?_⟩
    · rw [← files_outlines, outlines_mergedTemplates ordered, files_completed, List.map_map]
      rfl
    · obtain ⟨⟨a, member, rfl⟩, outside⟩ := mem_newPlaces_iff.mp new
      obtain ⟨d, overriding, file, declares⟩ := declares_of_place member outside
      obtain ⟨inAll, overrides⟩ := mem_overrideFiles_iff.mp overriding
      rw [Declarations.isOverride, file] at overrides
      exact ⟨d, inAll, file, namesOverride_of_isOverride overrides, declares⟩
  distinct_files := nodup_files_mergedTemplates ordered
  resources := by
    intro key declared
    rw [← length_holders]
    exact length_holders_mergedTemplates sound declared

/-! ## The main result -/

/-- **Override files are recognised by the names that their paths end in.** A file that overrides
others has a path that ends in `override.tf` or in a stem with `_override.tf` behind it, and where
nothing follows that name, every such file does. One whose path ends in `override.tf` belongs to no
file, and one whose path ends in a stem and `_override.tf` to the file of that stem in the same
directory. So in any configuration templates and resources are counted from the base files alone,
and none of these has the name of an override file. -/
theorem load_counts_named_bases :
    (∀ name, (FileRole.ofName name).isOverride = true →
      ∃ directory last trail, EndsIn name directory last trail ∧ NamesOverride last) ∧
    (∀ name directory last, EndsIn name directory last "" →
      ((FileRole.ofName name).isOverride = true ↔ NamesOverride last)) ∧
    (∀ name directory trail, EndsIn name directory "override.tf" trail →
      FileRole.ofName name = .override none) ∧
    (∀ name directory stem, EndsIn name directory (stem ++ "_override.tf") "" → stem ≠ "" →
      FileRole.ofName name = .override (some (directory ++ stem ++ ".tf"))) ∧
    ∀ precedence set c, Configuration.load precedence set = .ok c →
      ∃ all, set.files.mapM declarationsOf = .ok all ∧ CountsBases all c.templates := by
  refine ⟨fun _ => namesOverride_of_isOverride, fun _ _ _ => isOverride_iff_namesOverride,
    fun _ directory trail ends => ofName_eq_override_none_iff_endsIn.mpr ⟨directory, trail, ends⟩,
    fun _ _ _ => ofName_of_endsIn, fun precedence set c loaded => ?_⟩
  obtain ⟨all, read, rfl⟩ := load_eq_ok loaded
  exact ⟨all, read, countsBases_mergedTemplates (wellFormed_of_mapM read) (ordered_of_mapM read)⟩

/-- A name in a directory belongs to a file of that directory, and the resources of two base files
and two override files are counted from the base files. -/
theorem load_counts_named_bases_sharedKeyFiles :
    FileRole.ofName "net/a_override.tf" = .override (some "net/a.tf") ∧
    ∃ c, Configuration.load .lexical sharedKeyFiles = .ok c ∧
      ∃ all, sharedKeyFiles.files.mapM declarationsOf = .ok all ∧ CountsBases all c.templates := by
  obtain ⟨_, _, _, belongs, counts⟩ := load_counts_named_bases
  have ends : EndsIn "net/a_override.tf" "net/" ("a" ++ "_override.tf") "" :=
    ⟨rfl, .inr ⟨"net", rfl⟩, isFileName_specific (by decide), .nil⟩
  obtain ⟨c, loaded⟩ := load_sharedKeyFiles .lexical
  exact ⟨belongs _ _ _ ends (by decide), c, loaded, counts _ _ c loaded⟩

/-- A file that has the ending for a name, beside one that declares the same resource. -/
def bareEndingFiles : SourceSet := .ofList [
  ⟨"_override.tf", "resource \"x\" \"one\" \x7b\x7d\n"⟩,
  ⟨"main.tf", "resource \"x\" \"one\" \x7b\x7d\n"⟩]

/-- Neither the ending alone nor a name with a slash behind it makes an override file, although
both paths end in a name with that ending. The first is a base file with a template of its own, and
its resource is counted again. -/
theorem bareEnding_is_base :
    (EndsIn "_override.tf" "" ("" ++ "_override.tf") "" ∧
      FileRole.ofName "_override.tf" = .base) ∧
    (EndsIn "a_override.tf/" "" ("a" ++ "_override.tf") "/" ∧
      FileRole.ofName "a_override.tf/" = .base) ∧
    ∃ c, Configuration.load .lexical bareEndingFiles = .ok c ∧
      c.templates.map (fun t => (t.file, t.resources.map (·.key.id))) =
        [("_override.tf", ["one"]), ("main.tf", ["one"])] := by
  refine ⟨⟨⟨rfl, .inl rfl, isFileName_specific (by decide), .nil⟩, by decide +kernel⟩,
    ⟨⟨rfl, .inl rfl, isFileName_specific (by decide), .slash .nil⟩, by decide +kernel⟩, ?_⟩
  have holds : (Configuration.load .lexical bareEndingFiles).toOption.any (fun c =>
      c.templates.map (fun t => (t.file, t.resources.map (·.key.id))) ==
        [("_override.tf", ["one"]), ("main.tf", ["one"])]) = true := by
    decide +kernel
  obtain ⟨c, loaded, same⟩ := exists_eq_ok_of_any holds
  exact ⟨c, loaded, beq_iff_eq.mp same⟩

end HclLint.Model
