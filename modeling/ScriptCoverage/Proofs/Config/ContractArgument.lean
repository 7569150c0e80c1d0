import ScriptCoverage.Config.ContractSource
import ScriptCoverage.Proofs.ContractHash.Text
import ScriptCoverage.Proofs.Data.Except

/-!
The argument that names a contract. It is split at its first equals sign, and what stands behind
its last `@` is a hash if it starts as one. What is written for a name, a path and a hash is read
back, and what is read is written and read again as the same.
-/

namespace ScriptCoverage

namespace ContractHash

theorem isMarked_iff {text : List Char} :
    isMarked text = true ↔ ['0', 'x'] <+: text ∨ ['0', 'X'] <+: text := by
  constructor
  · intro h
    unfold isMarked at h
    split at h
    · exact .inl ⟨_, rfl⟩
    · exact .inr ⟨_, rfl⟩
    · cases h
  · rintro (⟨rest, rfl⟩ | ⟨rest, rfl⟩)
    · rfl
    · rfl

/-- A mark has no blanks, so trimming keeps it. -/
theorem isMarked_trim {text : List Char} (h : isMarked text = true) :
    isMarked (Text.trim text) = true := by
  have hlower : Text.IsWord ['0', 'x'] := ⟨List.cons_ne_nil _ _, by simp [Text.isBlank]⟩
  have hupper : Text.IsWord ['0', 'X'] := ⟨List.cons_ne_nil _ _, by simp [Text.isBlank]⟩
  rw [isMarked_iff] at h ⊢
  exact h.imp (Text.isPrefix_trim hlower) (Text.isPrefix_trim hupper)

theorem notMem_chars (hash : ContractHash) : '@' ∉ hash.chars := by
  intro hmem
  have hdigits := (Hex.of_decode_eq_some (Hex.decode_encode hash.toBytes.reverse)).1
  have hmark : '@' ∉ ['0', 'x'] := by decide
  have hnone : ¬ Hex.IsDigit '@' := by decide
  rcases List.mem_append.mp (show '@' ∈ ['0', 'x'] ++ Hex.encode hash.toBytes.reverse from hmem)
    with hfront | hdigit
  · exact hmark hfront
  · exact hnone (hdigits _ hdigit)

end ContractHash

namespace ContractSource

/-- What stands behind the last `@` starts as a hash does. -/
def EndsMarked (text : List Char) : Prop :=
  ∃ front after, text = front ++ '@' :: after ∧ '@' ∉ after ∧
    (['0', 'x'] <+: after ∨ ['0', 'X'] <+: after)

/-- A name or a path as it is kept: not empty, and without blanks around it. -/
structure IsPart (text : String) : Prop where
  nonempty : text.toList ≠ []
  trimmed : Text.Trimmed text.toList

variable {text front after name rest : List Char} {argument : String} {source : ContractSource}

theorem splitHash_of_marked (hafter : '@' ∉ after) (hmarked : ContractHash.isMarked after = true) :
    splitHash (front ++ '@' :: after) = (front, some (Text.trim after)) := by
  rw [splitHash, Text.splitLast_eq_some_iff.mpr ⟨rfl, hafter⟩]
  exact if_pos hmarked

theorem splitHash_of_not_endsMarked (h : ¬ EndsMarked text) : splitHash text = (text, none) := by
  rw [splitHash]
  split
  · rename_i front after hsplit
    obtain ⟨htext, hafter⟩ := Text.splitLast_eq_some_iff.mp hsplit
    refine if_neg fun hmarked => h ⟨front, after, htext, hafter, ?_⟩
    exact ContractHash.isMarked_iff.mp hmarked
  · rfl

/-- A hash is read where the text behind the last `@` starts as one, and nowhere else. -/
theorem splitHash_cases (text : List Char) :
    (¬ EndsMarked text ∧ splitHash text = (text, none)) ∨
      ∃ front after, text = front ++ '@' :: after ∧ '@' ∉ after ∧
        ContractHash.isMarked after = true ∧
        splitHash text = (front, some (Text.trim after)) := by
  by_cases h : EndsMarked text
  · obtain ⟨front, after, rfl, hafter, hmarked⟩ := h
    have hmarked := ContractHash.isMarked_iff.mpr hmarked
    exact .inr ⟨front, after, rfl, hafter, hmarked, splitHash_of_marked hafter hmarked⟩
  · exact .inl ⟨h, splitHash_of_not_endsMarked h⟩

/-- Blanks around a text matter neither to its last `@` nor to what it starts with behind it. -/
theorem endsMarked_of_trim (h : EndsMarked (Text.trim text)) : EndsMarked text := by
  obtain ⟨front, after, htrim, hafter, hmarked⟩ := h
  obtain ⟨lead, trail, -, htrail, htext⟩ := Text.exists_eq_trim text
  refine ⟨lead ++ front, after ++ trail, ?_, ?_, ?_⟩
  · rw [htext, htrim]
    simp
  · have hblank : '@' ∉ trail := fun hmem => absurd (htrail _ hmem) (by decide)
    rw [List.mem_append, not_or]
    exact ⟨hafter, hblank⟩
  · exact hmarked.imp (·.trans (List.prefix_append _ _)) (·.trans (List.prefix_append _ _))

/-- What is read from the two sides of an equals sign, before it is checked. -/
def ofSides (name rest : List Char) : ContractSource where
  name := String.ofList (Text.trim name)
  debugInfo := ⟨String.ofList (Text.trim (splitHash rest).1)⟩
  hash := (splitHash rest).2.map String.ofList

theorem parse_of_splitFirst (h : Text.splitFirst '=' argument.toList = some (name, rest)) :
    parse argument =
      if Text.trim name = [] then .error (.emptyName argument)
      else if Text.trim (splitHash rest).1 = [] then .error (.emptyPath argument)
      else (ofSides name rest).declared.map fun _ => ofSides name rest := by
  unfold parse
  rw [h]
  by_cases hname : Text.trim name = []
  · simp [hname]
    rfl
  · by_cases hpath : Text.trim (splitHash rest).1 = []
    · simp [hname, hpath]
      rfl
    · simp [hname, hpath]
      rfl

theorem exists_sides_of_parse (h : parse argument = .ok source) :
    ∃ name rest, argument.toList = name ++ '=' :: rest ∧ '=' ∉ name := by
  cases hsplit : Text.splitFirst '=' argument.toList with
  | none =>
      unfold parse at h
      rw [hsplit] at h
      cases h
  | some sides => exact ⟨sides.1, sides.2, Text.splitFirst_eq_some_iff.mp hsplit⟩

/-- An argument with an equals sign is read if the name in front of the first one and the path
behind it are not blank, and the hash, if there is one, is that of a contract. -/
theorem parse_eq_ok_iff (hargument : argument.toList = name ++ '=' :: rest) (hname : '=' ∉ name) :
    parse argument = .ok source ↔ Text.trim name ≠ [] ∧ Text.trim (splitHash rest).1 ≠ [] ∧
      source = ofSides name rest ∧ ∃ hash, source.declared = .ok hash := by
  rw [parse_of_splitFirst (Text.splitFirst_eq_some_iff.mpr ⟨hargument, hname⟩)]
  constructor
  · intro h
    split at h
    · cases h
    · rename_i hfront
      split at h
      · cases h
      · rename_i hpath
        obtain ⟨hash, hdeclared, rfl⟩ := Except.map_eq_ok_iff.mp h
        exact ⟨hfront, hpath, rfl, hash, hdeclared⟩
  · rintro ⟨hfront, hpath, rfl, hash, hdeclared⟩
    rw [if_neg hfront, if_neg hpath, hdeclared]
    rfl

/-- The hash of a source is that of a contract if its text is read as one. -/
theorem declared_eq_ok_iff {digits : String} (h : source.hash = some digits)
    {result : Option ContractHash} : source.declared = .ok result ↔
      ∃ hash, ContractHash.parse digits = .ok hash ∧ result = some hash := by
  simp only [declared, h]
  cases ContractHash.parse digits with
  | error e => simp [Except.map, Except.mapError]
  | ok hash => simp [Except.map, Except.mapError, eq_comm]

theorem IsPart.trim_eq {text : String} (h : IsPart text) : Text.trim text.toList = text.toList :=
  Text.trim_of_trimmed h.trimmed

theorem isPart_trim (h : Text.trim text ≠ []) : IsPart (String.ofList (Text.trim text)) where
  nonempty := by rwa [String.toList_ofList]
  trimmed := by
    rw [String.toList_ofList]
    exact Text.trimmed_trim text

section Written

variable {name path : String} {hash : ContractHash}

/-- A name, a path and a hash are read back. -/
theorem parse_name_path_hash (hname : '=' ∉ name.toList) (hpart : IsPart name)
    (hpath : IsPart path) (hash : ContractHash) :
    parse (name ++ "=" ++ path ++ "@" ++ hash.text) = .ok ⟨name, ⟨path⟩, some hash.text⟩ := by
  have hargument : (name ++ "=" ++ path ++ "@" ++ hash.text).toList =
      name.toList ++ '=' :: (path.toList ++ '@' :: hash.chars) := by
    simp [ContractHash.text]
  have hsplit : splitHash (path.toList ++ '@' :: hash.chars) =
      (path.toList, some (Text.trim hash.chars)) :=
    splitHash_of_marked hash.notMem_chars rfl
  have hdeclared : (⟨name, ⟨path⟩, some hash.text⟩ : ContractSource).declared = .ok (some hash) :=
    (declared_eq_ok_iff rfl).mpr ⟨hash, ContractHash.parse_text hash, rfl⟩
  rw [parse_eq_ok_iff hargument hname, ofSides, hsplit, hpart.trim_eq, hpath.trim_eq,
    Text.trim_of_trimmed hash.isWord_chars.trimmed]
  refine ⟨hpart.nonempty, hpath.nonempty, ?_, some hash, hdeclared⟩
  simp [ContractHash.text]

/-- A name and a path without a hash are read back unless the path ends as if it had one. -/
theorem parse_name_path_iff (hname : '=' ∉ name.toList) (hpart : IsPart name)
    (hpath : IsPart path) :
    parse (name ++ "=" ++ path) = .ok ⟨name, ⟨path⟩, none⟩ ↔ ¬ EndsMarked path.toList := by
  have hargument : (name ++ "=" ++ path).toList = name.toList ++ '=' :: path.toList := by simp
  rw [parse_eq_ok_iff hargument hname, ofSides]
  rcases splitHash_cases path.toList with
    ⟨hnot, hsplit⟩ | ⟨front, after, htext, hafter, hmarked, hsplit⟩
  · rw [hsplit, hpart.trim_eq, hpath.trim_eq]
    refine iff_of_true ⟨hpart.nonempty, hpath.nonempty, ?_, none, rfl⟩ hnot
    simp
  · have hends : EndsMarked path.toList :=
      ⟨front, after, htext, hafter, ContractHash.isMarked_iff.mp hmarked⟩
    rw [hsplit]
    refine iff_of_false ?_ (not_not_intro hends)
    rintro ⟨-, -, hsource, -⟩
    exact absurd (congrArg ContractSource.hash hsource) (by simp)

end Written

/-- The sides of an argument that is written for a source give this source. -/
theorem exists_sides_argument (name rest : List Char) :
    ∃ rest', (ofSides name rest).argument.toList = Text.trim name ++ '=' :: rest' ∧
      Text.trim (splitHash rest').1 = Text.trim (splitHash rest).1 ∧
      ofSides (Text.trim name) rest' = ofSides name rest := by
  rcases splitHash_cases rest with ⟨hnot, hsplit⟩ | ⟨front, after, -, hafter, hmarked, hsplit⟩
  · have hsplit' : splitHash (Text.trim rest) = (Text.trim rest, none) :=
      splitHash_of_not_endsMarked (mt endsMarked_of_trim hnot)
    refine ⟨Text.trim rest, ?_, ?_, ?_⟩
    · simp [argument, ofSides, hsplit]
    · rw [hsplit, hsplit', Text.trim_trim]
    · simp only [ofSides, hsplit, hsplit', Text.trim_trim]
  · have hsplit' : splitHash (Text.trim front ++ '@' :: Text.trim after) =
        (Text.trim front, some (Text.trim (Text.trim after))) :=
      splitHash_of_marked (mt Text.mem_of_mem_trim hafter) (ContractHash.isMarked_trim hmarked)
    refine ⟨Text.trim front ++ '@' :: Text.trim after, ?_, ?_, ?_⟩
    · simp [argument, ofSides, hsplit]
    · rw [hsplit, hsplit', Text.trim_trim]
    · simp only [ofSides, hsplit, hsplit', Text.trim_trim]

/-- What is read is written and read again as the same. -/
theorem parse_argument (h : parse argument = .ok source) :
    parse source.argument = .ok source := by
  obtain ⟨name, rest, hargument, hname⟩ := exists_sides_of_parse h
  obtain ⟨hfront, hpath, rfl, hdeclared⟩ := (parse_eq_ok_iff hargument hname).mp h
  obtain ⟨rest', hwritten, hpath', hsame⟩ := exists_sides_argument name rest
  rw [parse_eq_ok_iff hwritten (mt Text.mem_of_mem_trim hname), Text.trim_trim, hpath', hsame]
  exact ⟨hfront, hpath, rfl, hdeclared⟩

/-- Arguments are unambiguous. A name, a path and a hash that are written into an argument are
read back from it, whatever marks the path contains; a name and a path without a hash are read
back exactly when the path does not end as if it had one. What is read has a name and a path
without blanks around them and a hash that is one, and reading what is written for it gives the
same again. -/
theorem argument_unambiguous :
    (∀ name path : String, '=' ∉ name.toList → IsPart name → IsPart path →
      (∀ hash : ContractHash, parse (name ++ "=" ++ path ++ "@" ++ hash.text) =
        .ok ⟨name, ⟨path⟩, some hash.text⟩) ∧
      (parse (name ++ "=" ++ path) = .ok ⟨name, ⟨path⟩, none⟩ ↔ ¬ EndsMarked path.toList)) ∧
    ∀ argument source, parse argument = .ok source →
      IsPart source.name ∧ IsPart source.debugInfo.text ∧
      (∀ digits, source.hash = some digits → ∃ hash, source.declared = .ok (some hash)) ∧
      parse source.argument = .ok source := by
  refine ⟨fun name path hname hpart hpath => ⟨?written, ?plain⟩, fun argument source h => ?read⟩
  case written => exact parse_name_path_hash hname hpart hpath
  case plain => exact parse_name_path_iff hname hpart hpath
  case read =>
    obtain ⟨name, rest, hargument, hname⟩ := exists_sides_of_parse h
    obtain ⟨hfront, hpath, rfl, result, hdeclared⟩ := (parse_eq_ok_iff hargument hname).mp h
    refine ⟨isPart_trim hfront, isPart_trim hpath, fun digits hdigits => ?_, parse_argument h⟩
    obtain ⟨hash, -, rfl⟩ := (declared_eq_ok_iff hdigits).mp hdeclared
    exact ⟨hash, hdeclared⟩

/-- A path with both marks, with and without a hash behind it, and an argument with blanks around
its parts. -/
theorem argument_unambiguous_marks :
    parse ("Token" ++ "=" ++ "out=1/a@b.json" ++ "@" ++ ContractHash.zero.text) =
        .ok ⟨"Token", ⟨"out=1/a@b.json"⟩, some ContractHash.zero.text⟩ ∧
      parse ("Token" ++ "=" ++ "out=1/a@b.json") = .ok ⟨"Token", ⟨"out=1/a@b.json"⟩, none⟩ ∧
      parse (ContractSource.argument ⟨"Token", ⟨"a@ b"⟩, none⟩) =
        .ok ⟨"Token", ⟨"a@ b"⟩, none⟩ := by
  obtain ⟨hwritten, hread⟩ := argument_unambiguous
  have hname : IsPart "Token" := by
    refine ⟨by decide, ?_, ?_⟩
    · rintro c ⟨⟩
      rfl
    · rintro c ⟨⟩
      rfl
  have hpath : IsPart "out=1/a@b.json" := by
    refine ⟨by decide, ?_, ?_⟩
    · rintro c ⟨⟩
      rfl
    · rintro c ⟨⟩
      rfl
  have hplain : ¬ EndsMarked "out=1/a@b.json".toList := by
    rintro ⟨front, after, htext, hafter, hmarked⟩
    have hsplit := Text.splitLast_eq_some_iff.mpr ⟨htext, hafter⟩
    have hlast : Text.splitLast '@' "out=1/a@b.json".toList =
        some ("out=1/a".toList, "b.json".toList) := by decide
    obtain ⟨-, rfl⟩ := Prod.mk.inj (Option.some_inj.mp (hlast.symm.trans hsplit))
    exact absurd hmarked (by decide)
  obtain ⟨hhash, hnone⟩ := hwritten "Token" "out=1/a@b.json" (by decide) hname hpath
  have hblanks : parse " Token = a@ b " = .ok ⟨"Token", ⟨"a@ b"⟩, none⟩ := by rfl
  exact ⟨hhash ContractHash.zero, hnone.mpr hplain, (hread _ _ hblanks).2.2.2⟩

end ContractSource

end ScriptCoverage
