/-
# The name that a path ends in

A path falls into a directory, the name of a file in it, and what adds nothing behind that name:
slashes, and dots between them. Where a path falls apart in this way, the name is the file name of
the path, and every path that has a file name falls apart in this way.

## Main definitions

* `IsDirectory`, `IsFileName`, `IsIdle`: the parts of a path.
* `EndsIn`: a path falls into three such parts.

## Main statements

* `EndsIn.unique`: a path ends in one name only.
* `fileName?_eq_some_iff`: a path's file name is the name that the path ends in.
-/

import HclLint.Text.Path

namespace HclLint.Text.Path

/-- What may stand in front of a file name: nothing, or a text with a slash at its end. -/
def IsDirectory (directory : String) : Prop :=
  directory = "" ∨ ∃ path : String, directory = path ++ "/"

/-- A file name holds something other than one or two dots, and no slash. -/
structure IsFileName (name : String) : Prop where
  no_slash : '/' ∉ name.toList
  ne_empty : name ≠ ""
  ne_dot : name ≠ "."
  ne_dots : name ≠ ".."

/-- What adds nothing behind a name: slashes, with no more than a dot behind each. -/
inductive IsIdle : List Char → Prop
  | nil : IsIdle []
  | slash {trail : List Char} : IsIdle trail → IsIdle ('/' :: trail)
  | dot {trail : List Char} : IsIdle trail → IsIdle ('/' :: '.' :: trail)

/-- A path is a directory, a name in it, and a trail that adds nothing. -/
structure EndsIn (path directory name trail : String) : Prop where
  path_eq : path = directory ++ name ++ trail
  directory : IsDirectory directory
  name : IsFileName name
  trail : IsIdle trail.toList

variable {path directory name trail : String} {front back : List (List Char)}
  {stretch cs : List Char}

/-! ## Stretches between slashes -/

/-- A trail adds stretches to those of the text before it that are empty or a dot. -/
theorem IsIdle.split (idle : IsIdle cs) : ∃ stretches : List (List Char),
    (∀ s ∈ stretches, s = [] ∨ s = ['.']) ∧
      ∀ before, split '/' (before ++ cs) = split '/' before ++ stretches := by
  induction idle with
  | nil => exact ⟨[], by simp, by simp⟩
  | slash _ ih =>
    obtain ⟨stretches, plain, behind⟩ := ih
    refine ⟨[] :: stretches, by simpa using plain, fun before => ?_⟩
    have rest := behind []
    rw [List.nil_append] at rest
    rw [split_append_cons, rest]
    rfl
  | dot _ ih =>
    obtain ⟨stretches, plain, behind⟩ := ih
    refine ⟨['.'] :: stretches, by simpa using plain, fun before => ?_⟩
    have rest := behind ['.']
    rw [List.singleton_append] at rest
    rw [split_append_cons, rest]
    rfl

theorem isIdle_flatMap (plain : ∀ s ∈ back, s = [] ∨ s = ['.']) :
    IsIdle (back.flatMap ('/' :: ·)) := by
  induction back with
  | nil => exact .nil
  | cons s back ih =>
    obtain ⟨first, rest⟩ := List.forall_mem_cons.mp plain
    rcases first with rfl | rfl
    · exact .slash (ih rest)
    · exact .dot (ih rest)

/-- A text with a slash behind each of its stretches is a directory. -/
theorem isDirectory_flatMap (front : List (List Char)) :
    IsDirectory (String.ofList (front.flatMap (· ++ ['/']))) := by
  rcases List.eq_nil_or_concat front with rfl | ⟨front, s, rfl⟩
  · exact .inl rfl
  · refine .inr ⟨String.ofList (front.flatMap (· ++ ['/']) ++ s), String.ext ?_⟩
    simp

theorem intercalate_append_cons (front : List (List Char)) (stretch : List Char)
    (back : List (List Char)) : List.intercalate ['/'] (front ++ stretch :: back) =
      front.flatMap (· ++ ['/']) ++ stretch ++ back.flatMap ('/' :: ·) := by
  induction front with
  | nil =>
    induction back generalizing stretch with
    | nil => simp
    | cons s back ih =>
      simp only [List.nil_append] at ih ⊢
      rw [List.intercalate_cons_cons, ih]
      simp
  | cons s front ih =>
    obtain ⟨next, rest, listed⟩ := List.exists_cons_of_ne_nil
      (List.append_ne_nil_of_right_ne_nil front (List.cons_ne_nil stretch back))
    rw [List.cons_append, listed, List.intercalate_cons_cons, ← listed, ih]
    simp

/-- A text is a directory and what stands behind its last slash. -/
theorem exists_directory (text : String) : ∃ directory stem, IsDirectory directory ∧
    '/' ∉ stem.toList ∧ text = directory ++ stem := by
  have whole := intercalate_split '/' text.toList
  rcases List.eq_nil_or_concat (split '/' text.toList) with none | ⟨front, stem, stretches⟩
  · exact absurd none (split_ne_nil _ _)
  · rw [List.concat_eq_append] at stretches
    rw [stretches, intercalate_append_cons] at whole
    have member : stem ∈ split '/' text.toList := by simp [stretches]
    refine ⟨_, String.ofList stem, isDirectory_flatMap front, ?_, String.ext ?_⟩
    · rw [String.toList_ofList]
      exact not_mem_of_mem_split member
    · simpa using whole.symm

/-! ## Pieces of a path -/

/-- A stretch that is not only a dot is a component exactly if it is not empty. -/
theorem pieces_of_split (stretches : split '/' path.toList = front ++ stretch :: back)
    (ne_nil : stretch ≠ []) (ne_dot : stretch ≠ ['.']) :
    ∃ before, pieces path = before ++ ⟨stretch, true⟩ :: back.map .behindSlash := by
  rw [pieces, stretches]
  cases front with
  | nil => exact ⟨[], by simp [ne_nil]⟩
  | cons first front =>
    refine ⟨⟨first, !first.isEmpty⟩ :: front.map .behindSlash, ?_⟩
    simp [Piece.behindSlash, ne_nil, ne_dot]

theorem split_of_pieces {before after : List Piece} {p : Piece}
    (listed : pieces path = before ++ p :: after) (component : p.isComponent = true) :
    ∃ front back, split '/' path.toList = front ++ p.text :: back ∧
      after = back.map .behindSlash ∧ p.text ≠ [] := by
  obtain ⟨first, rest, stretches⟩ := List.exists_cons_of_ne_nil (split_ne_nil '/' path.toList)
  rw [pieces, stretches] at listed
  rcases List.cons_eq_append_iff.mp listed with ⟨rfl, same⟩ | ⟨before, rfl, later⟩
  · obtain ⟨rfl, rfl⟩ := List.cons.inj same
    exact ⟨[], rest, stretches, rfl, by simpa using component⟩
  · obtain ⟨front, behind, rfl, rfl, marked⟩ := List.map_eq_append_iff.mp later
    obtain ⟨stretch, back, rfl, rfl, rfl⟩ := List.map_eq_cons_iff.mp marked
    refine ⟨first :: front, back, stretches, rfl, ?_⟩
    rintro (rfl : stretch = [])
    cases component

/-- A stretch behind a slash that is no component is empty or a dot. -/
theorem isComponent_behindSlash_eq_false_iff (s : List Char) :
    (Piece.behindSlash s).isComponent = false ↔ s = [] ∨ s = ['.'] := by
  simp [Piece.behindSlash, Classical.or_iff_not_imp_left]

/-- The file name is the text of the last component, if that is a name. -/
theorem fileName?_eq_some_iff_getLast? : fileName? path = some name ↔
    isName name.toList = true ∧
      (((pieces path).filter (·.isComponent)).map (·.text)).getLast? = some name.toList := by
  have named : fileName? path = some name ↔
      isName name.toList = true ∧ (components path).getLast? = some name.toList := by
    unfold fileName?
    cases (components path).getLast? with
    | none => simp
    | some last =>
      simp only [Option.ite_none_right_eq_some, Option.some.injEq]
      constructor
      · rintro ⟨isName, rfl⟩
        exact ⟨by simpa using isName, by simp⟩
      · rintro ⟨isName, rfl⟩
        exact ⟨isName, String.ofList_toList⟩
  rw [named, components]
  refine and_congr_right fun isName => ?_
  -- The slash of an absolute path is not a name.
  cases listed : ((pieces path).filter (·.isComponent)).map (·.text) with
  | nil =>
    rw [List.append_nil]
    split
    · refine iff_of_false (fun same => ?_) (by simp)
      rw [← Option.some.inj same] at isName
      exact absurd isName (by decide)
    · rfl
  | cons first rest => simp [List.getLast?_append]

/-! ## The main result -/

theorem EndsIn.fileName? (ends : EndsIn path directory name trail) :
    fileName? path = some name := by
  obtain ⟨rfl, isDirectory, proper, idle⟩ := ends
  have ne_nil : name.toList ≠ [] := by simpa using proper.ne_empty
  have ne_dot : name.toList ≠ ['.'] := fun same => proper.ne_dot (String.ext same)
  have ne_dots : name.toList ≠ ['.', '.'] := fun same => proper.ne_dots (String.ext same)
  have ne_slash : name.toList ≠ ['/'] := fun same => proper.no_slash (by simp [same])
  obtain ⟨stretches, plain, behind⟩ := idle.split
  -- The name is a stretch of its own, and the trail's stretches come behind it.
  have cut : ∃ front,
      split '/' (directory ++ name ++ trail).toList = front ++ name.toList :: stretches := by
    rw [String.toList_append, behind]
    rcases isDirectory with rfl | ⟨path, rfl⟩
    · exact ⟨[], by simp [split_of_not_mem proper.no_slash]⟩
    · refine ⟨split '/' path.toList, ?_⟩
      simp [split_append_cons, split_of_not_mem proper.no_slash]
  obtain ⟨front, stretches_eq⟩ := cut
  obtain ⟨before, listed⟩ := pieces_of_split stretches_eq ne_nil ne_dot
  have rest : (stretches.map Piece.behindSlash).filter (·.isComponent) = [] := by
    refine List.filter_eq_nil_iff.mpr fun p member => ?_
    obtain ⟨s, inTrail, rfl⟩ := List.mem_map.mp member
    simpa using (isComponent_behindSlash_eq_false_iff s).mpr (plain s inTrail)
  refine fileName?_eq_some_iff_getLast?.mpr ⟨by simp [isName, ne_slash, ne_dot, ne_dots], ?_⟩
  rw [listed, List.filter_append, List.filter_cons_of_pos rfl, rest]
  simp

/-- A path ends in one name only. -/
theorem EndsIn.unique {directory' other trail' : String}
    (ends : EndsIn path directory name trail) (ends' : EndsIn path directory' other trail') :
    name = other :=
  Option.some.inj (ends.fileName?.symm.trans ends'.fileName?)

theorem exists_endsIn_of_fileName? (found : fileName? path = some name) :
    ∃ directory trail, EndsIn path directory name trail := by
  obtain ⟨named, last⟩ := fileName?_eq_some_iff_getLast?.mp found
  -- The last component is the last piece that is one; those behind it are idle.
  obtain ⟨others, isLast⟩ := List.getLast?_eq_some_iff.mp last
  obtain ⟨_, final, kept, rfl, single⟩ := List.map_eq_append_iff.mp isLast
  obtain ⟨p, none, rfl, text, nothing⟩ := List.map_eq_cons_iff.mp single
  obtain rfl := List.map_eq_nil_iff.mp nothing
  obtain ⟨before, behind, listed, rfl, one⟩ := List.filter_eq_append_iff.mp kept
  obtain ⟨skipped, after, rfl, _, component, rest⟩ := List.filter_eq_cons_iff.mp one
  rw [← List.append_assoc] at listed
  obtain ⟨front, back, stretches, rfl, ne_nil⟩ := split_of_pieces listed component
  rw [text] at stretches ne_nil
  have plain : ∀ s ∈ back, s = [] ∨ s = ['.'] := by
    intro s member
    have idle := List.filter_eq_nil_iff.mp rest _ (List.mem_map_of_mem member)
    exact (isComponent_behindSlash_eq_false_iff s).mp (by simpa using idle)
  refine ⟨String.ofList (front.flatMap (· ++ ['/'])), String.ofList (back.flatMap ('/' :: ·)), ?_,
    isDirectory_flatMap front, ⟨?_, ?_, ?_, ?_⟩, ?_⟩
  · refine String.ext ?_
    have whole := intercalate_split '/' path.toList
    rw [stretches, intercalate_append_cons] at whole
    simpa using whole.symm
  · have member : name.toList ∈ split '/' path.toList := by simp [stretches]
    exact not_mem_of_mem_split member
  · simpa using ne_nil
  · rintro rfl
    exact absurd named (by decide)
  · rintro rfl
    exact absurd named (by decide)
  · simpa using isIdle_flatMap plain

/-- A path's file name is the name that the path ends in. -/
theorem fileName?_eq_some_iff :
    fileName? path = some name ↔ ∃ directory trail, EndsIn path directory name trail :=
  ⟨exists_endsIn_of_fileName?, fun ⟨_, _, ends⟩ => ends.fileName?⟩

end HclLint.Text.Path
