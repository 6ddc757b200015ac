/-
# Which files are accepted

A set of files is accepted when each file is a body whose resources have two labels, whose
variables have one, and which declares no resource twice. Otherwise the first file in the order
of names that fails this is blamed, at the place where it first does.

## Main definitions

* `IsAcceptable`, `IsUsable`: the bodies and the files that are accepted.
* `HasFault`: what is wrong with a structure behind others that declare some resources.
* `IsBlamedFor`: a file's first fault and its place.

## Main statements

* `foldlM_declare_eq_error_iff`: the first structure with a fault is the one that is refused.
* `reads_label`, `reads_label_quoted`: a bare label and a quoted one are the same text.
* `load_accepts_exactly`: when a set of files is accepted, and what is blamed otherwise.
-/

import HclLint.Model.Configuration
import HclLint.Proofs.Hcl.Reference
import HclLint.Proofs.Merge.Declared

namespace HclLint.Model

open HclLint.Text HclLint.Hcl HclLint.Hcl.Grammar HclLint.Hcl.Parser

/-! ## Structures and bodies -/

/-- Whether a structure that declares something has the labels for it. -/
def IsLabelled : Item → Prop
  | .attribute .. => True
  | .block _ kind labels _ =>
    (kind = "resource" → labels.length = 2) ∧ (kind = "variable" → labels.length = 1)

/-- Bodies of files that are accepted. -/
structure IsAcceptable (body : Body) : Prop where
  labelled : ∀ item ∈ body, IsLabelled item
  distinct_keys : (body.filterMap declaredKey?).Nodup

/-- What is wrong with a structure, once the resources with some keys have been declared. -/
inductive HasFault (declared : List ResourceKey) : Item → Fault → Prop
  | resourceLabels (start : Nat) (labels : List String) (inner : Body)
      (other : labels.length ≠ 2) :
      HasFault declared (.block start "resource" labels inner) (.resourceLabels labels.length)
  | variableLabels (start : Nat) (labels : List String) (inner : Body)
      (other : labels.length ≠ 1) :
      HasFault declared (.block start "variable" labels inner) (.variableLabels labels.length)
  | duplicate (start : Nat) (type id : String) (inner : Body) (old : ⟨type, id⟩ ∈ declared) :
      HasFault declared (.block start "resource" [type, id] inner) (.duplicateResource type id)

/-- Files that are accepted. -/
def IsUsable (source : Source) : Prop :=
  ∃ body, readBody source.text = .ok body ∧ IsAcceptable body

/-- A file's first fault, at the place where the grammar refuses it or else at the structure
that follows on faultless ones. -/
inductive IsBlamedFor (source : Source) : SourceError → Prop
  | grammar {refusal : Refusal} (refused : readBody source.text = .error refusal) :
      IsBlamedFor source (.ofRefusal source refusal)
  | structure {before after : Body} {item : Item} {fault : Fault}
      (read : readBody source.text = .ok (before ++ item :: after))
      (faultless : IsAcceptable before)
      (found : HasFault (before.filterMap declaredKey?) item fault) :
      IsBlamedFor source (.atOffset source item.start fault)

variable {source : Source} {d d' before after : Declarations} {item : Item} {body : Body}

/-! ## One structure -/

/-- A resource needs two labels. -/
theorem resourceOf_of_length_ne {start : Nat} {labels : List String} {inner : Body}
    (other : labels.length ≠ 2) : resourceOf source start labels inner =
      .error (.atOffset source start (.resourceLabels labels.length)) := by
  unfold resourceOf
  split
  · exact absurd rfl other
  · rfl

/-- A variable needs one label. -/
theorem variableOf_of_length_ne {start : Nat} {labels : List String} {inner : Body}
    (other : labels.length ≠ 1) : variableOf source start labels inner =
      .error (.atOffset source start (.variableLabels labels.length)) := by
  unfold variableOf
  split
  · exact absurd rfl other
  · rfl

/-- An item that is refused has the fault that is reported, at its start. -/
theorem hasFault_of_declare {e : SourceError} (refused : declare source d item = .error e) :
    ∃ fault, HasFault d.keys item fault ∧ e = .atOffset source item.start fault := by
  match item with
  | .attribute _ _ => cases refused
  | .block start kind labels inner =>
    simp only [declare] at refused
    split at refused
    · next same =>
      subst same
      by_cases two : labels.length = 2
      · obtain ⟨type, id, rfl⟩ := List.length_eq_two.mp two
        rcases except_bind_eq_error_iff.mp refused with missing | ⟨r, made, twice⟩
        · cases missing
        · obtain rfl := Except.ok.inj made
          split at twice
          · next old =>
            obtain ⟨other, member, same⟩ := List.any_eq_true.mp old
            have declared : ⟨type, id⟩ ∈ d.keys := List.mem_map.mpr ⟨other, member, eq_of_beq same⟩
            exact ⟨_, .duplicate start type id inner declared, (Except.error.inj twice).symm⟩
          · cases twice
      · rw [resourceOf_of_length_ne two] at refused
        exact ⟨_, .resourceLabels start labels inner two, (Except.error.inj refused).symm⟩
    · split at refused
      · next same =>
        subst same
        by_cases one : labels.length = 1
        · obtain ⟨name, rfl⟩ := List.length_eq_one_iff.mp one
          rcases except_bind_eq_error_iff.mp refused with missing | ⟨_, _, final⟩
          · cases missing
          · cases final
        · rw [variableOf_of_length_ne one] at refused
          exact ⟨_, .variableLabels start labels inner one, (Except.error.inj refused).symm⟩
      · cases refused

/-- An item with a fault is refused with it. -/
theorem declare_of_hasFault {fault : Fault} (found : HasFault d.keys item fault) :
    declare source d item = .error (.atOffset source item.start fault) := by
  cases found with
  | resourceLabels start labels inner other =>
    simp only [declare, if_pos, resourceOf_of_length_ne other]
    rfl
  | variableLabels start labels inner other =>
    simp only [declare, if_pos, variableOf_of_length_ne other]
    rfl
  | duplicate start type id inner old =>
    obtain ⟨r, member, same⟩ := List.mem_map.mp old
    have twice : d.resources.any (·.key == ⟨type, id⟩) = true :=
      List.any_eq_true.mpr ⟨r, member, by simp [same]⟩
    simp only [declare, if_pos, resourceOf]
    exact if_pos twice

/-- A structure is refused for its fault and where it starts. -/
theorem declare_eq_error_iff {e : SourceError} : declare source d item = .error e ↔
    ∃ fault, HasFault d.keys item fault ∧ e = .atOffset source item.start fault := by
  constructor
  · exact hasFault_of_declare
  · rintro ⟨fault, found, rfl⟩
    exact declare_of_hasFault found

/-- A key is declared by a block of a resource with two labels. -/
theorem declaredKey?_eq_some_iff {key : ResourceKey} : declaredKey? item = some key ↔
    ∃ start inner, item = .block start "resource" [key.type, key.id] inner := by
  constructor
  · intro declares
    unfold declaredKey? at declares
    split at declares
    · next start kind type id inner =>
      split at declares
      · next same =>
        obtain rfl := Option.some.inj declares
        exact ⟨start, inner, by rw [same]⟩
      · cases declares
    · cases declares
  · rintro ⟨start, inner, rfl⟩
    rfl

/-- A structure is faultless when it is labelled and its key is new. -/
theorem forall_not_hasFault_iff {keys : List ResourceKey} : (∀ fault, ¬ HasFault keys item fault) ↔
    IsLabelled item ∧ ∀ key ∈ declaredKey? item, key ∉ keys := by
  constructor
  · intro faultless
    constructor
    · match item with
      | .attribute _ _ => trivial
      | .block start kind labels inner =>
        constructor
        · rintro rfl
          by_contra other
          exact faultless _ (.resourceLabels start labels inner other)
        · rintro rfl
          by_contra other
          exact faultless _ (.variableLabels start labels inner other)
    · intro key declares old
      obtain ⟨start, inner, rfl⟩ := declaredKey?_eq_some_iff.mp declares
      exact faultless _ (.duplicate start key.type key.id inner old)
  · rintro ⟨labelled, new⟩ fault found
    cases found with
    | resourceLabels start labels inner other => exact other (labelled.1 rfl)
    | variableLabels start labels inner other => exact other (labelled.2 rfl)
    | duplicate start type id inner old => exact new ⟨type, id⟩ rfl old

/-- An item is accepted exactly if its labels are right and its key is new. -/
theorem declare_succeeds_iff : (∃ after, declare source d item = .ok after) ↔
    IsLabelled item ∧ ∀ key ∈ declaredKey? item, key ∉ d.keys := by
  rw [← forall_not_hasFault_iff]
  cases declared : declare source d item with
  | error e =>
    obtain ⟨fault, found, _⟩ := hasFault_of_declare declared
    simpa using ⟨fault, found⟩
  | ok after =>
    simp only [Except.ok.injEq, exists_eq', true_iff]
    intro fault found
    rw [declare_of_hasFault found] at declared
    cases declared

/-- What was declared stays declared, and a structure's own key comes last. -/
theorem keys_declare (declared : declare source before item = .ok after) :
    after.keys = before.keys ++ (declaredKey? item).toList := by
  obtain ⟨none, rfl⟩ | ⟨start, labels, inner, r, rfl, made, _, rfl⟩ |
    ⟨start, labels, inner, v, rfl, _, rfl⟩ := declare_eq_ok declared
  · rw [none, Option.toList_none, List.append_nil]
  · obtain ⟨_, _, rfl⟩ := resourceOf_eq_ok made
    exact List.map_append
  · rw [declaredKey?_of_kind_ne (by decide), Option.toList_none, List.append_nil]
    rfl

/-! ## A whole body -/

theorem filterMap_declaredKey?_cons (item : Item) (body : Body) :
    (item :: body).filterMap declaredKey? =
      (declaredKey? item).toList ++ body.filterMap declaredKey? := by
  cases declares : declaredKey? item with
  | none => exact List.filterMap_cons_none declares
  | some key => exact List.filterMap_cons_some declares

/-- The keys of a file are those of its items, in order. -/
theorem keys_foldlM_declare (run : body.foldlM (declare source) d = .ok d') :
    d'.keys = d.keys ++ body.filterMap declaredKey? := by
  induction body generalizing d with
  | nil =>
    obtain rfl := Except.ok.inj run
    exact (List.append_nil _).symm
  | cons item body ih =>
    rw [List.foldlM_cons] at run
    obtain ⟨next, declared, run⟩ := except_bind_eq_ok.mp run
    rw [ih run, keys_declare declared, filterMap_declaredKey?_cons, List.append_assoc]

theorem nodup_append_toList_iff {keys : List ResourceKey} {key? : Option ResourceKey}
    (distinct : keys.Nodup) : (keys ++ key?.toList).Nodup ↔ ∀ key ∈ key?, key ∉ keys := by
  cases key? with
  | none => simpa using distinct
  | some key =>
    rw [Option.toList_some, ← List.concat_eq_append, List.nodup_concat]
    simp [distinct]

/-- All items are accepted exactly if their labels are right and no key occurs twice. -/
theorem foldlM_declare_succeeds_iff (distinct : d.keys.Nodup) :
    (∃ d', body.foldlM (declare source) d = .ok d') ↔
      (∀ item ∈ body, IsLabelled item) ∧ (d.keys ++ body.filterMap declaredKey?).Nodup := by
  induction body generalizing d with
  | nil => simpa [pure, Except.pure] using distinct
  | cons item body ih =>
    rw [filterMap_declaredKey?_cons, ← List.append_assoc, List.forall_mem_cons, List.foldlM_cons]
    constructor
    · rintro ⟨d', run⟩
      obtain ⟨next, declared, run⟩ := except_bind_eq_ok.mp run
      obtain ⟨labelled, new⟩ := declare_succeeds_iff.mp ⟨next, declared⟩
      have distinct' := (nodup_append_toList_iff distinct).mpr new
      rw [← keys_declare declared] at distinct' ⊢
      obtain ⟨others, all⟩ := (ih distinct').mp ⟨d', run⟩
      exact ⟨⟨labelled, others⟩, all⟩
    · rintro ⟨⟨labelled, others⟩, all⟩
      have distinct' := all.of_append_left
      have new := (nodup_append_toList_iff distinct).mp distinct'
      obtain ⟨next, declared⟩ := declare_succeeds_iff.mpr ⟨labelled, new⟩
      rw [← keys_declare declared] at distinct' all
      obtain ⟨d', run⟩ := (ih distinct').mpr ⟨others, all⟩
      exact ⟨d', except_bind_eq_ok.mpr ⟨next, declared, run⟩⟩

/-- A body is accepted from the start when it is acceptable. -/
theorem foldlM_declare_start_succeeds_iff :
    (∃ d', body.foldlM (declare source) ⟨source.name, [], []⟩ = .ok d') ↔ IsAcceptable body := by
  rw [foldlM_declare_succeeds_iff (by exact List.nodup_nil)]
  exact ⟨fun ⟨labelled, distinct⟩ => ⟨labelled, distinct⟩,
    fun acceptable => ⟨acceptable.labelled, acceptable.distinct_keys⟩⟩

/-- The first structure with a fault is the one that is refused. -/
theorem foldlM_declare_eq_error_iff {e : SourceError} :
    body.foldlM (declare source) ⟨source.name, [], []⟩ = .error e ↔
      ∃ before item after fault, body = before ++ item :: after ∧ IsAcceptable before ∧
        HasFault (before.filterMap declaredKey?) item fault ∧
        e = .atOffset source item.start fault := by
  rw [foldlM_eq_error_iff_first]
  constructor
  · rintro ⟨before, item, after, d', split, run, refused⟩
    obtain ⟨fault, found, same⟩ := declare_eq_error_iff.mp refused
    rw [keys_foldlM_declare run] at found
    exact ⟨before, item, after, fault, split, foldlM_declare_start_succeeds_iff.mp ⟨d', run⟩,
      found, same⟩
  · rintro ⟨before, item, after, fault, split, acceptable, found, same⟩
    obtain ⟨d', run⟩ := foldlM_declare_start_succeeds_iff.mpr acceptable
    have keys := keys_foldlM_declare run
    refine ⟨before, item, after, d', split, run, declare_eq_error_iff.mpr ⟨fault, ?_, same⟩⟩
    rw [keys]
    exact found

/-! ## A whole file -/

/-- A file is accepted exactly if it is usable. -/
theorem declarationsOf_succeeds_iff :
    (∃ d, declarationsOf source = .ok d) ↔ IsUsable source := by
  simp only [declarationsOf, except_bind_eq_ok, Model.bodyOf, mapError_eq_ok_iff]
  constructor
  · rintro ⟨d, body, read, run⟩
    exact ⟨body, read, foldlM_declare_start_succeeds_iff.mp ⟨d, run⟩⟩
  · rintro ⟨body, read, acceptable⟩
    obtain ⟨d, run⟩ := foldlM_declare_start_succeeds_iff.mpr acceptable
    exact ⟨d, body, read, run⟩

/-- A file is refused with the fault that it is to be blamed for. -/
theorem declarationsOf_eq_error_iff {e : SourceError} :
    declarationsOf source = .error e ↔ IsBlamedFor source e := by
  simp only [declarationsOf, except_bind_eq_error_iff, Model.bodyOf, mapError_eq_ok_iff,
    foldlM_declare_eq_error_iff]
  constructor
  · rintro (refused | ⟨_, read, before, item, after, fault, rfl, faultless, found, rfl⟩)
    · cases read : readBody source.text with
      | ok body =>
        rw [read] at refused
        cases refused
      | error refusal =>
        rw [read] at refused
        exact Except.error.inj refused ▸ .grammar read
    · exact .structure read faultless found
  · rintro (refused | ⟨read, faultless, found⟩)
    · exact .inl (by rw [refused]; rfl)
    · exact .inr ⟨_, read, _, _, _, _, rfl, faultless, found, rfl⟩

/-- A file with a fault is not usable. -/
theorem not_isUsable_of_isBlamedFor {e : SourceError} (blamed : IsBlamedFor source e) :
    ¬ IsUsable source := by
  intro usable
  obtain ⟨d, read⟩ := declarationsOf_succeeds_iff.mpr usable
  rw [declarationsOf_eq_error_iff.mpr blamed] at read
  cases read

/-- A fault names the file it is in. -/
theorem file_of_isBlamedFor {e : SourceError} (blamed : IsBlamedFor source e) :
    e.file = source.name := by
  cases blamed with
  | grammar refused => rfl
  | «structure» read faultless found => rfl

/-- Another name of the file does not change what is found in it. -/
theorem IsBlamedFor.renamed {e : SourceError} (blamed : IsBlamedFor source e) (name : String) :
    IsBlamedFor ⟨name, source.text⟩ { e with file := name } := by
  cases blamed with
  | grammar refused => exact .grammar refused
  | «structure» read faultless found => exact .structure read faultless found

/-! ## A set of files -/

theorem load_eq_error_iff_mapM {precedence : Precedence} {set : SourceSet} {e : SourceError} :
    Configuration.load precedence set = .error e ↔ set.files.mapM declarationsOf = .error e := by
  simp [Configuration.load, declaredFiles, except_bind_eq_error_iff, pure, Except.pure]

/-- A set of files is accepted exactly if all of them are usable. -/
theorem load_succeeds_iff {precedence : Precedence} {set : SourceSet} :
    (∃ c, Configuration.load precedence set = .ok c) ↔ ∀ source ∈ set.files, IsUsable source := by
  constructor
  · rintro ⟨c, loaded⟩ source member
    by_contra unusable
    rw [← declarationsOf_succeeds_iff, not_exists] at unusable
    have refused : ∃ e, declarationsOf source = .error e := by
      cases read : declarationsOf source with
      | error e => exact ⟨e, rfl⟩
      | ok d => exact absurd read (unusable d)
    obtain ⟨e, failed⟩ := mapM_eq_error_iff.mpr ⟨source, member, refused⟩
    rw [load_eq_error_iff_mapM.mpr failed] at loaded
    cases loaded
  · intro usable
    cases loaded : Configuration.load precedence set with
    | ok c => exact ⟨c, rfl⟩
    | error e =>
      obtain ⟨source, member, e, refused⟩ :=
        mapM_eq_error_iff.mp ⟨e, load_eq_error_iff_mapM.mp loaded⟩
      obtain ⟨d, read⟩ := declarationsOf_succeeds_iff.mpr (usable source member)
      rw [read] at refused
      cases refused

/-- Otherwise the first file that is not usable is to blame. -/
theorem load_eq_error_iff {precedence : Precedence} {set : SourceSet} {e : SourceError} :
    Configuration.load precedence set = .error e ↔ ∃ front source back,
      set.files = front ++ source :: back ∧ (∀ other ∈ front, IsUsable other) ∧
        IsBlamedFor source e := by
  simp only [load_eq_error_iff_mapM, mapM_eq_error_iff_first, declarationsOf_succeeds_iff,
    declarationsOf_eq_error_iff]

/-- The files in front of one are those with lower names. -/
theorem SourceSet.mem_front_iff {set : SourceSet} {front back : List Source} {source : Source}
    (split : set.files = front ++ source :: back) {other : Source} :
    other ∈ front ↔ other ∈ set.files ∧ other.name < source.name := by
  have ordered := set.ordered
  rw [split, List.pairwise_append] at ordered
  obtain ⟨_, later, across⟩ := ordered
  rw [split, List.mem_append]
  constructor
  · intro member
    exact ⟨.inl member, across other member source List.mem_cons_self⟩
  · rintro ⟨member | member, lower⟩
    · exact member
    · rcases List.mem_cons.mp member with rfl | member
      · exact absurd lower (String.lt_irrefl _)
      · have higher := (List.pairwise_cons.mp later).1 other member
        exact absurd (String.lt_trans lower higher) (String.lt_irrefl _)

/-- Since files are read by name, it is the one with the least name. -/
theorem load_eq_error_iff_least {precedence : Precedence} {set : SourceSet} {e : SourceError} :
    Configuration.load precedence set = .error e ↔ ∃ source ∈ set.files,
      (∀ other ∈ set.files, other.name < source.name → IsUsable other) ∧ IsBlamedFor source e := by
  rw [load_eq_error_iff]
  constructor
  · rintro ⟨front, source, back, split, usable, blamed⟩
    refine ⟨source, by simp [split], fun other member lower => ?_, blamed⟩
    exact usable other ((SourceSet.mem_front_iff split).mpr ⟨member, lower⟩)
  · rintro ⟨source, member, usable, blamed⟩
    obtain ⟨front, back, split⟩ := List.append_of_mem member
    refine ⟨front, source, back, split, fun other before => ?_, blamed⟩
    obtain ⟨member, lower⟩ := (SourceSet.mem_front_iff split).mp before
    exact usable other member lower

/-- Neither the order in which override files apply nor the names of the files matter, as long
as the files stay in their order. -/
theorem load_renamed {precedence precedence' : Precedence} {set set' : SourceSet}
    {rename : String → String}
    (same : set'.files = set.files.map fun source => ⟨rename source.name, source.text⟩)
    {e : SourceError} (refused : Configuration.load precedence set = .error e) :
    Configuration.load precedence' set' = .error { e with file := rename e.file } := by
  obtain ⟨front, source, back, split, usable, blamed⟩ := load_eq_error_iff.mp refused
  rw [split, List.map_append, List.map_cons] at same
  refine load_eq_error_iff.mpr ⟨_, _, _, same, fun other listed => ?_, ?_⟩
  · obtain ⟨origin, member, rfl⟩ := List.mem_map.mp listed
    exact usable origin member
  · rw [file_of_isBlamedFor blamed]
    exact blamed.renamed _

/-! ## Labels -/

section Labels

variable {name : String} {rest behind : List Char}

/-- The code points below the characters that an identifier may hold, and the backslash. -/
theorem not_identifier_of_escaped : ∀ n ∈ 0x5c :: List.range 0x26,
    isIdentifierStart (Char.ofNat n) = false ∧ isIdentifierRest (Char.ofNat n) = false := by
  decide +kernel

theorem code_of_identifier {c : Char}
    (part : isIdentifierStart c = true ∨ isIdentifierRest c = true) :
    0x26 ≤ c.toNat ∧ c.toNat ≠ 0x5c := by
  have outside := not_identifier_of_escaped c.toNat
  simp only [Char.ofNat_toNat, List.mem_cons, List.mem_range] at outside
  by_contra inside
  obtain ⟨start, rest⟩ := outside (by omega)
  simp [start, rest] at part

theorem escapeChar_of_code {c : Char} (plain : 0x26 ≤ c.toNat ∧ c.toNat ≠ 0x5c) :
    escapeChar c = [c] ∧ c ≠ '$' ∧ c ≠ '%' := by
  have other : ∀ x : Char, x.toNat < 0x26 ∨ x.toNat = 0x5c → c ≠ x := by
    rintro x special rfl
    omega
  refine ⟨?_, other '$' (by decide), other '%' (by decide)⟩
  have solid : ¬ c.toNat < 0x20 := by omega
  simp only [escapeChar, if_neg (other '"' (by decide)), if_neg (other '\\' (by decide)),
    if_neg (other '\x08' (by decide)), if_neg (other '\x0c' (by decide)),
    if_neg (other '\n' (by decide)), if_neg (other '\r' (by decide)),
    if_neg (other '\t' (by decide)), if_neg solid]

theorem literalText_of_isIdentifier (known : isIdentifier name = true) :
    literalText name.toList = name.toList := by
  have plain : ∀ x ∈ name.toList, escapeChar x = [x] ∧ x ≠ '$' ∧ x ≠ '%' :=
    forall_mem_of_isIdentifier known
      (fun _ start => escapeChar_of_code (code_of_identifier (.inl start)))
      fun _ rest => escapeChar_of_code (code_of_identifier (.inr rest))
  generalize name.toList = cs at plain
  induction cs with
  | nil => rfl
  | cons c cs ih =>
    obtain ⟨⟨single, dollar, percent⟩, others⟩ := List.forall_mem_cons.mp plain
    rw [literalText_cons (fun _ sign => absurd sign dollar) fun _ sign => absurd sign percent,
      single, ih others, List.singleton_append]

/-- A bare label is its text. -/
theorem reads_label (known : isIdentifier name = true)
    (ends : ∀ x ∈ rest.head?, isIdentifierRest x = false)
    (blanks : Reads (skip false) rest (fun _ => True) behind) :
    Reads label (name.toList ++ rest) (· = name) behind := by
  have bare : IsUndone stringForm (name.toList ++ rest) := by
    refine IsUndone.bind (isUndone_char ?_) _
    obtain ⟨first, more, same, start, _⟩ := isIdentifier_iff.mp known
    rw [same]
    refine forall_mem_head?_cons ?_ _
    exact ne_of_isIdentifierStart start rfl
  refine ((reads_identifier known ends).choice_right (bare.bind _)).bind fun _ same => ?_
  refine blanks.bind fun _ _ => ?_
  rw [same]
  exact reads_pure name behind

/-- A quoted label is the text between the quotes. -/
theorem reads_label_quoted (known : isIdentifier name = true)
    (blanks : Reads (skip false) rest (fun _ => True) behind) :
    Reads label ('"' :: (name.toList ++ '"' :: rest)) (· = name) behind := by
  have quoted := reads_stringForm name.toList rest
  rw [literalText_of_isIdentifier known, String.ofList_toList] at quoted
  refine ((quoted.bind fun _ same => (?_ : Reads _ rest (· = name) rest)).choice
    identifier).bind fun _ same => blanks.bind fun _ _ => ?_
  · rw [same]
    exact reads_pure name rest
  · rw [same]
    exact reads_pure name behind

end Labels

/-! ## The main result -/

/-- **A set of files is accepted exactly when each of its files is well formed, and otherwise the
first one that is not is blamed.** The blame falls on the place that the grammar complains of,
or else on the first structure that lacks labels or declares a resource again. The order in
which override files apply makes no difference, and neither do the names of the files, by which
some of them are override files. A key is told by the texts of its labels, with
quotes or without. -/
theorem load_accepts_exactly (precedence : Precedence) (set : SourceSet) :
    ((∃ c, Configuration.load precedence set = .ok c) ↔ ∀ source ∈ set.files, IsUsable source) ∧
    (∀ e, Configuration.load precedence set = .error e ↔ ∃ source ∈ set.files,
      e.file = source.name ∧ ¬ IsUsable source ∧
        (∀ other ∈ set.files, other.name < source.name → IsUsable other) ∧
        IsBlamedFor source e) ∧
    (∀ (precedence' : Precedence) (rename : String → String) (set' : SourceSet),
      set'.files = set.files.map (fun source => ⟨rename source.name, source.text⟩) →
        ((∃ c, Configuration.load precedence' set' = .ok c) ↔
          ∃ c, Configuration.load precedence set = .ok c) ∧
        ∀ e, Configuration.load precedence set = .error e →
          Configuration.load precedence' set' = .error { e with file := rename e.file }) ∧
    ∀ (name : String) (rest behind : List Char), isIdentifier name = true →
      (∀ x ∈ rest.head?, isIdentifierRest x = false) →
      Reads (skip false) rest (fun _ => True) behind →
        Reads label (name.toList ++ rest) (· = name) behind ∧
        Reads label ('"' :: (name.toList ++ '"' :: rest)) (· = name) behind := by
  refine ⟨load_succeeds_iff, fun e => ?_, fun precedence' rename set' same => ⟨?_, ?_⟩, ?_⟩
  · rw [load_eq_error_iff_least]
    constructor
    · rintro ⟨source, member, usable, blamed⟩
      exact ⟨source, member, file_of_isBlamedFor blamed, not_isUsable_of_isBlamedFor blamed,
        usable, blamed⟩
    · rintro ⟨source, member, _, _, usable, blamed⟩
      exact ⟨source, member, usable, blamed⟩
  · rw [load_succeeds_iff, load_succeeds_iff, same]
    exact List.forall_mem_map
  · exact fun e refused => load_renamed same refused
  · intro name rest behind known ends blanks
    exact ⟨reads_label known ends blanks, reads_label_quoted known blanks⟩

/-- The later one of two declarations is blamed, be its labels quoted or not. -/
example : Configuration.load .lexical (.ofList [⟨"b.tf", ""⟩,
    ⟨"a.tf", "resource \"x\" y \x7b\x7d\nresource x \"y\" \x7b\x7d\n"⟩]) matches
      .error ⟨"a.tf", 2, 1, .duplicateResource "x" "y"⟩ := by
  decide +kernel

end HclLint.Model
