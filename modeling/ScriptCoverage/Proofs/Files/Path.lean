import ScriptCoverage.Files.Path
import ScriptCoverage.Proofs.Text.Lines

/-!
Where a path leads that was put together from a directory and a name. Its parts are those of the
directory and then those of the name, so a name that is not absolute and has no `..` among its
pieces leads to a place below the directory. And where the name of a path is cut: at its last dot,
if that is not the first character.
-/

namespace ScriptCoverage.Path

/-- Below a directory by its spelling: from the directory on, the path neither goes up nor starts
anew, and it goes on at least by one part. -/
def LiesBelow (root path : Path) : Prop :=
  ∃ rest, rest ≠ [] ∧ path.parts = root.parts ++ rest ∧
    ∀ part ∈ rest, part ≠ .parent ∧ part ≠ .root

/-- The path ends in a name with an extension, which stands behind the last dot of the name and
has a stem before it. -/
structure EndsIn (path : Path) (stem extension : String) : Prop where
  last : path.parts.getLast? = some (.name (stem ++ "." ++ extension))
  stem : stem ≠ ""
  extension : '.' ∉ extension.toList

theorem name?_eq_some_iff {path : Path} {name : String} :
    path.name? = some name ↔ path.parts.getLast? = some (.name name) := by
  unfold name?
  split <;> simp_all

theorem splitName_eq_iff {name stem ending : List Char} :
    splitName name = (stem, some ending) ↔
      name = stem ++ '.' :: ending ∧ stem ≠ [] ∧ '.' ∉ ending := by
  unfold splitName
  constructor
  · intro h
    split at h
    · cases h
    · cases h
    · rename_i hstem hsplit
      cases h
      obtain ⟨hname, hending⟩ := Text.splitLast_eq_some_iff.mp hsplit
      exact ⟨hname, hstem, hending⟩
  · rintro ⟨hname, hstem, hending⟩
    rw [Text.splitLast_eq_some_iff.mpr ⟨hname, hending⟩]
    obtain ⟨c, rest, rfl⟩ := List.exists_cons_of_ne_nil hstem
    rfl

namespace EndsIn

variable {path : Path} {stem extension : String}

theorem name? (h : path.EndsIn stem extension) :
    path.name? = some (stem ++ "." ++ extension) :=
  name?_eq_some_iff.mpr h.last

theorem splitName (h : path.EndsIn stem extension) :
    splitName (stem ++ "." ++ extension).toList = (stem.toList, some extension.toList) := by
  have hstem : stem.toList ≠ [] := by simpa using h.stem
  exact splitName_eq_iff.mpr ⟨by simp, hstem, h.extension⟩

theorem stem? (h : path.EndsIn stem extension) : path.stem? = some stem := by
  rw [Path.stem?, h.name?, Option.map_some, h.splitName, String.ofList_toList]

end EndsIn

theorem extension?_eq_some_iff {path : Path} {extension : String} :
    path.extension? = some extension ↔ ∃ stem, path.EndsIn stem extension := by
  constructor
  · intro h
    obtain ⟨name, hname, hending⟩ := Option.bind_eq_some_iff.mp h
    obtain ⟨ending, hsplit, rfl⟩ := Option.map_eq_some_iff.mp hending
    obtain ⟨stem, hparts⟩ : ∃ stem, splitName name.toList = (stem, some ending) :=
      ⟨_, Prod.ext rfl hsplit⟩
    obtain ⟨htext, hstem, hdot⟩ := splitName_eq_iff.mp hparts
    refine ⟨String.ofList stem, ?_, ?_, ?_⟩
    · rw [name?_eq_some_iff.mp hname, Option.some_inj, Part.name.injEq, ← String.toList_inj, htext]
      simp
    · simpa using hstem
    · simpa using hdot
  · rintro ⟨stem, h⟩
    rw [extension?, h.name?, Option.bind_some, h.splitName]
    simp

variable {root name : Path} {piece : List Char}

theorem pieces_ne_nil (path : Path) : path.pieces ≠ [] :=
  List.splitOn_ne_nil _ _

theorem partOfPiece?_ne_root (piece : List Char) : partOfPiece? piece ≠ some .root := by
  unfold partOfPiece?
  split
  · simp
  · split <;> simp

theorem eq_of_partOfPiece?_eq_parent (h : partOfPiece? piece = some .parent) :
    piece = ['.', '.'] := by
  unfold partOfPiece? at h
  split at h
  · cases h
  · split at h
    · assumption
    · cases h

theorem leadingPart_cons {first : List Char} (hfirst : first ≠ []) (later : List (List Char)) :
    leadingPart (first :: later) = if first = ['.'] then [.current] else [] := by
  unfold leadingPart
  split
  · rename_i heq
    exact absurd (List.cons.inj heq).1 hfirst
  · rename_i heq
    rw [(List.cons.inj heq).1, if_pos rfl]
  · rename_i hother
    rw [if_neg]
    rintro rfl
    exact hother later rfl

/-- What a path starts with is seen in its first two pieces, of the second only whether it is
there. -/
theorem leadingPart_append {front : List (List Char)} (hfront : front ≠ [])
    {rest other : List (List Char)} (hrest : rest ≠ []) (hother : other ≠ []) :
    leadingPart (front ++ rest) = leadingPart (front ++ other) := by
  obtain ⟨first, later, rfl⟩ := List.exists_cons_of_ne_nil hfront
  rw [List.cons_append, List.cons_append]
  cases first with
  | nil =>
      obtain ⟨x, xs, hrest⟩ :=
        List.exists_cons_of_ne_nil (List.append_ne_nil_of_right_ne_nil later hrest)
      obtain ⟨y, ys, hother⟩ :=
        List.exists_cons_of_ne_nil (List.append_ne_nil_of_right_ne_nil later hother)
      rw [hrest, hother, leadingPart, leadingPart]
  | cons c cs =>
      rw [leadingPart_cons (List.cons_ne_nil c cs), leadingPart_cons (List.cons_ne_nil c cs)]

theorem leadingPart_append_self {front rest : List (List Char)} (hfront : front ≠ [])
    (htext : front ≠ [[]]) : leadingPart (front ++ rest) = leadingPart front := by
  obtain ⟨first, later, rfl⟩ := List.exists_cons_of_ne_nil hfront
  cases first with
  | nil =>
      cases later with
      | nil => exact absurd rfl htext
      | cons x xs => rfl
  | cons c cs =>
      rw [List.cons_append, leadingPart_cons (List.cons_ne_nil c cs),
        leadingPart_cons (List.cons_ne_nil c cs)]

/-- A path that is not absolute starts in the directory it is seen from. -/
theorem leadingPart_of_relative (relative : name.isAbsolute = false) :
    leadingPart name.pieces = [] ∨ leadingPart name.pieces = [.current] := by
  unfold leadingPart
  split
  · rename_i x xs hpieces
    have htext : name.text.toList = '/' :: ['/'].intercalate (x :: xs) := by
      rw [((Text.splitOn_eq_iff (List.cons_ne_nil _ _)).mp hpieces).1, List.intercalate_cons_cons]
      rfl
    simp [isAbsolute, htext] at relative
  · exact .inr rfl
  · exact .inl rfl

theorem parts_empty : (Path.mk "").parts = [] := by
  simp [parts, pieces, leadingPart, partOfPiece?, isSkipped]

/-- The pieces of a joined path are pieces of the directory and then those of the name. Where the
directory ends in a separator, the empty piece behind it is left out. -/
theorem exists_pieces_join (nonempty : root.text.isEmpty = false)
    (relative : name.isAbsolute = false) : ∃ front, front ≠ [] ∧
      (root.join name).pieces = front ++ name.pieces ∧
      (root.pieces = front ∧ front ≠ [[]] ∨ root.pieces = front ++ [[]]) := by
  have htext : root.text.toList ≠ [] := by simpa using nonempty
  rw [join, relative, nonempty, Bool.or_self, if_neg Bool.false_ne_true]
  split
  · rename_i hlast
    obtain ⟨front, hfront⟩ := List.getLast?_eq_some_iff.mp hlast
    refine ⟨front.splitOn '/', List.splitOn_ne_nil _ _, ?_, .inr ?_⟩
    · rw [pieces, String.toList_append, hfront, List.append_assoc, List.singleton_append,
        List.splitOn_append_cons_self, pieces]
    · rw [pieces, hfront, List.splitOn_append_cons_self, List.splitOn_nil]
  · refine ⟨root.pieces, pieces_ne_nil root, ?_, .inl ⟨rfl, fun hpieces => ?_⟩⟩
    · rw [pieces, String.toList_append, String.toList_append, List.append_assoc,
        show "/".toList = ['/'] from rfl, List.singleton_append, List.splitOn_append_cons_self,
        pieces, pieces]
    · rw [pieces, Text.splitOn_eq_iff (List.cons_ne_nil _ _)] at hpieces
      exact htext (hpieces.1.trans List.intercalate_singleton)

/-- The parts of a joined path are those of the directory and then those of the name. A `.` at the
front of the name counts only if the directory has no parts. -/
theorem exists_parts_join (root : Path) (relative : name.isAbsolute = false) :
    ∃ lead, (lead = [] ∨ lead = [Part.current]) ∧
      (root.join name).parts = root.parts ++ (lead ++ name.pieces.filterMap partOfPiece?) := by
  cases hempty : root.text.isEmpty with
  | true =>
      have hroot : root = ⟨""⟩ := by cases root; simpa using hempty
      refine ⟨leadingPart name.pieces, leadingPart_of_relative relative, ?_⟩
      rw [join, hempty, Bool.or_true, if_pos rfl, hroot, parts_empty, List.nil_append, parts]
  | false =>
      obtain ⟨front, hne, hpieces, hroot⟩ := exists_pieces_join hempty relative
      refine ⟨[], .inl rfl, ?_⟩
      rw [parts, hpieces, List.filterMap_append, parts, List.nil_append, ← List.append_assoc]
      congr 1
      rcases hroot with ⟨hroot, htext⟩ | hroot
      · rw [hroot, leadingPart_append_self hne htext]
      · rw [hroot, leadingPart_append hne (pieces_ne_nil name) (List.cons_ne_nil [] []),
          List.filterMap_append, List.filterMap_cons_none rfl, List.filterMap_nil, List.append_nil]

theorem getLast?_pieces_join (relative : name.isAbsolute = false) :
    (root.join name).pieces.getLast? = name.pieces.getLast? := by
  cases hempty : root.text.isEmpty with
  | true => rw [join, hempty, Bool.or_true, if_pos rfl]
  | false =>
      obtain ⟨front, -, hpieces, -⟩ := exists_pieces_join hempty relative
      rw [hpieces, List.getLast?_append_of_ne_nil _ (pieces_ne_nil name)]

/-- A path that ends in a name has a part that is its last name. -/
theorem filterMap_pieces_ne_nil (hname : name.endsInName = true) :
    name.pieces.filterMap partOfPiece? ≠ [] := by
  unfold endsInName at hname
  split at hname
  · rename_i piece hlast
    rw [Bool.and_eq_true, Bool.not_eq_true', bne_iff_ne] at hname
    have hpart : partOfPiece? piece = some (.name (String.ofList piece)) := by
      rw [partOfPiece?, hname.1, if_neg Bool.false_ne_true, if_neg hname.2]
    exact List.ne_nil_of_mem (List.mem_filterMap.mpr ⟨piece, List.mem_of_getLast? hlast, hpart⟩)
  · cases hname

/-- A name that is not absolute and has no `..` among its pieces does not lead out of a
directory. -/
theorem liesBelow_join (relative : name.isAbsolute = false)
    (hdots : ['.', '.'] ∉ name.pieces) (hname : (root.join name).endsInName = true) :
    root.LiesBelow (root.join name) := by
  obtain ⟨lead, hlead, hparts⟩ := exists_parts_join root relative
  have hends : name.endsInName = true := by
    rwa [endsInName, getLast?_pieces_join relative, ← endsInName] at hname
  refine ⟨_, List.append_ne_nil_of_right_ne_nil _ (filterMap_pieces_ne_nil hends), hparts, ?_⟩
  intro part hmem
  rcases List.mem_append.mp hmem with hfront | hpart
  · rcases hlead with rfl | rfl
    · cases hfront
    · rw [List.mem_singleton.mp hfront]
      exact ⟨nofun, nofun⟩
  · obtain ⟨piece, hpiece, hpart⟩ := List.mem_filterMap.mp hpart
    refine ⟨?_, ?_⟩
    · rintro rfl
      exact hdots (eq_of_partOfPiece?_eq_parent hpart ▸ hpiece)
    · rintro rfl
      exact partOfPiece?_ne_root piece hpart

end ScriptCoverage.Path
