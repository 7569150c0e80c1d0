import ScriptCoverage.Files.FileStore
import ScriptCoverage.Proofs.Data.OrderedMap

/-!
What the changes of a file tree leave as it was. Making directories keeps all there is, and
writing a file keeps all but the content of that file. Directories are never lost, so a path leads
where it led.
-/

namespace ScriptCoverage.FileTree

variable {tree changed later : FileTree} {location here : Location} {path : Path}
  {bytes : List UInt8} {touched? : Option Location}

theorem node?_set (hlocation : location ≠ []) (node : FileNode) (other : Location) :
    (tree.set location node).node? other =
      if other = location then some node else tree.node? other := by
  unfold node? set
  cases other with
  | nil => rw [List.isEmpty_nil, if_pos rfl, if_pos rfl, if_neg hlocation.symm]
  | cons name rest =>
      rw [List.isEmpty_cons, if_neg Bool.false_ne_true, if_neg Bool.false_ne_true,
        OrderedMap.get?_insert]

theorem content?_eq_some_iff : tree.content? path = some bytes ↔
    path.endsInName = true ∧
      ∃ location, tree.locate? path = some location ∧ tree.node? location = some (.file bytes) := by
  unfold content? lookup?
  constructor
  · intro h
    split at h
    · rename_i found hlookup
      cases h
      split at hlookup
      · rename_i held hnode
        split at hlookup
        · rename_i hends
          cases hlookup
          exact ⟨hends, Option.bind_eq_some_iff.mp hnode⟩
        · cases hlookup
      · rename_i hother
        exact absurd hlookup (hother bytes)
    · cases h
  · rintro ⟨hends, hnode⟩
    rw [Option.bind_eq_some_iff.mpr hnode, hends]
    rfl

/-- What is left of a tree by a change that touches at most the content of one file. -/
structure Keeps (touched? : Option Location) (tree later : FileTree) : Prop where
  directory : ∀ {location}, tree.node? location = some .directory →
    later.node? location = some .directory
  file : ∀ {location bytes}, touched? ≠ some location →
    tree.node? location = some (.file bytes) → later.node? location = some (.file bytes)

namespace Keeps

theorem refl (touched? : Option Location) (tree : FileTree) : Keeps touched? tree tree where
  directory := id
  file _ := id

theorem trans (first : Keeps none tree changed) (second : Keeps touched? changed later) :
    Keeps touched? tree later where
  directory h := second.directory (first.directory h)
  file hother h := second.file hother (first.file nofun h)

/-- A node takes the place of no directory, and of a file only where one may be touched. -/
theorem set (hlocation : location ≠ []) (hfree : tree.node? location ≠ some .directory)
    (hfile : ∀ bytes, tree.node? location = some (.file bytes) → touched? = some location)
    (node : FileNode) : Keeps touched? tree (tree.set location node) where
  directory {other} h := by
    have hne : other ≠ location := by
      rintro rfl
      exact hfree h
    rw [node?_set hlocation, if_neg hne, h]
  file {other bytes} hother h := by
    have hne : other ≠ location := by
      rintro rfl
      exact hother (hfile bytes h)
    rw [node?_set hlocation, if_neg hne, h]

/-- A path is followed through directories only, and these stay. -/
theorem follow? (keeps : Keeps touched? tree later) {parts : List Path.Part}
    (h : tree.follow? here parts = some location) : later.follow? here parts = some location := by
  induction parts generalizing here with
  | nil => exact h
  | cons part parts ih =>
      unfold FileTree.follow? at h ⊢
      split at h
      · cases h
      · rename_i hdirectory
        have hhere := keeps.directory (not_not.mp hdirectory)
        rw [if_neg (not_not.mpr hhere)]
        cases part with
        | root => cases h
        | current => exact ih h
        | parent =>
            dsimp only at h ⊢
            split at h
            · cases h
            · rename_i htop
              rw [if_neg htop]
              exact ih h
        | name s =>
            dsimp only at h ⊢
            split at h
            · rename_i hvalid
              rw [if_pos hvalid]
              exact ih h
            · cases h

theorem locate? (keeps : Keeps touched? tree later) (h : tree.locate? path = some location) :
    later.locate? path = some location := by
  unfold FileTree.locate? at h ⊢
  split at h
  · cases h
  · rename_i htext
    rw [if_neg htext]
    exact keeps.follow? h

theorem content? (keeps : Keeps touched? tree later) (h : tree.content? path = some bytes)
    (hother : touched? ≠ tree.locate? path) : later.content? path = some bytes := by
  obtain ⟨hends, location, hlocation, hnode⟩ := content?_eq_some_iff.mp h
  rw [hlocation] at hother
  exact content?_eq_some_iff.mpr
    ⟨hends, location, keeps.locate? hlocation, keeps.file hother hnode⟩

end Keeps

theorem keeps_of_grow? {parts : List Path.Part} (h : tree.grow? here parts = some later) :
    Keeps none tree later := by
  induction parts generalizing tree here with
  | nil =>
      cases h
      exact .refl none _
  | cons part parts ih =>
      unfold grow? at h
      cases part with
      | root => cases h
      | current => exact ih h
      | parent =>
          dsimp only at h
          split at h
          · cases h
          · exact ih h
      | name s =>
          dsimp only at h
          split at h
          · exact ih h
          · cases h
          · rename_i hnone
            split at h
            · have hlocation : here ++ [s] ≠ [] := List.append_ne_nil_of_right_ne_nil _ nofun
              have keeps : Keeps none tree (tree.set (here ++ [s]) .directory) :=
                .set hlocation (hnone ▸ nofun) (hnone ▸ nofun) .directory
              exact keeps.trans (ih h)
            · cases h

theorem keeps_of_makeDirectories? (h : tree.makeDirectories? path = some later) :
    Keeps none tree later :=
  keeps_of_grow? h

/-- A file has got its content, and all else is left as it was. -/
structure Fills (path : Path) (bytes : List UInt8) (location : Location) (tree later : FileTree) :
    Prop where
  located : later.locate? path = some location
  content : later.content? path = some bytes
  keeps : Keeps (some location) tree later

namespace Fills

theorem of_keeps (first : Keeps none tree changed)
    (second : Fills path bytes location changed later) : Fills path bytes location tree later where
  located := second.located
  content := second.content
  keeps := first.trans second.keeps

/-- Every path that leads to the file shows the new content. -/
theorem content? {other : Path} {held : List UInt8}
    (fills : Fills path bytes location tree later) (hheld : tree.content? other = some held)
    (hother : tree.locate? other = some location) : later.content? other = some bytes := by
  obtain ⟨-, _, hlocated, hnode⟩ := content?_eq_some_iff.mp fills.content
  cases fills.located.symm.trans hlocated
  have hends := (content?_eq_some_iff.mp hheld).1
  exact content?_eq_some_iff.mpr ⟨hends, location, fills.keeps.locate? hother, hnode⟩

end Fills

theorem fills_of_write? (h : tree.write? path bytes = some later) :
    ∃ location, Fills path bytes location tree later := by
  unfold write? at h
  split at h
  · cases h
  · rename_i location hlocate
    split at h
    · cases h
    · rename_i name hlast
      split at h
      · cases h
      · rename_i hopen
        cases h
        simp only [Bool.or_eq_true, Bool.not_eq_true', decide_eq_true_eq, not_or,
          Bool.not_eq_false] at hopen
        obtain ⟨⟨hends, -⟩, hfree⟩ := hopen
        have hlocation : location ≠ [] := by
          rintro rfl
          cases hlast
        have keeps : Keeps (some location) tree (tree.set location (.file bytes)) :=
          .set hlocation hfree (fun _ _ => rfl) (.file bytes)
        have hnode : (tree.set location (.file bytes)).node? location = some (.file bytes) := by
          rw [node?_set hlocation, if_pos rfl]
        have hlocated := keeps.locate? hlocate
        exact ⟨location, hlocated,
          content?_eq_some_iff.mpr ⟨hends, location, hlocated, hnode⟩, keeps⟩

theorem keeps_attempt {change : FileTree → Option FileTree}
    (h : ∀ changed, change tree = some changed → Keeps none tree changed) :
    Keeps none tree (attempt change tree).2 := by
  unfold attempt
  split
  · rename_i changed hchange
    exact h changed hchange
  · exact .refl none tree

theorem write_of_some (h : tree.write? path bytes = some later) :
    (FileStore.write path bytes : StateM FileTree Bool) tree = (true, later) := by
  dsimp only [FileStore.write, attempt]
  rw [h]

theorem write_of_none (h : tree.write? path bytes = none) :
    (FileStore.write path bytes : StateM FileTree Bool) tree = (false, tree) := by
  dsimp only [FileStore.write, attempt]
  rw [h]

end ScriptCoverage.FileTree
