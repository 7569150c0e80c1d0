import Mathlib.Data.List.Basic
import Mathlib.Data.List.TakeWhile
import ScriptCoverage.Text.Blank

/-!
Parts, words and lines of a text that was put together from them. A text splits at its marks
into parts without one. Blanks around a line do not matter to its words, and a text that ends
with a newline ends with a line.
-/

namespace ScriptCoverage.Text

/-- Nonempty, and without blanks. -/
structure IsWord (text : List Char) : Prop where
  nonempty : text ≠ []
  visible : ∀ c ∈ text, isBlank c = false

/-- A text that does not start or end with a blank. -/
def Trimmed (text : List Char) : Prop :=
  (∀ c, text.head? = some c → isBlank c = false) ∧
    ∀ c, text.getLast? = some c → isBlank c = false

theorem dropWhile_of_head? {p : Char → Bool} {text : List Char}
    (h : ∀ c, text.head? = some c → p c = false) : text.dropWhile p = text := by
  cases text with
  | nil => rfl
  | cons c rest => rw [List.dropWhile_cons_of_neg (by simp [h c rfl])]

theorem takeWhile_of_head? {p : Char → Bool} {text : List Char}
    (h : ∀ c, text.head? = some c → p c = false) : text.takeWhile p = [] := by
  cases text with
  | nil => rfl
  | cons c rest => rw [List.takeWhile_cons_of_neg (by simp [h c rfl])]

/-- The parts of a text that splits; the first of them does not hold the mark. -/
theorem splitFirst_eq_some_iff {mark : Char} {text front after : List Char} :
    splitFirst mark text = some (front, after) ↔
      text = front ++ mark :: after ∧ mark ∉ front := by
  unfold splitFirst
  constructor
  · intro h
    split at h
    · cases h
    · rename_i c after hdrop
      cases h
      have hc : c = mark := by
        have hnot := List.head?_dropWhile_not (· != mark) text
        simpa [hdrop] using hnot
      subst hc
      refine ⟨?_, fun hmem => ?_⟩
      · rw [← hdrop, List.takeWhile_append_dropWhile]
      · simpa using List.mem_takeWhile_imp hmem
  · rintro ⟨rfl, hmark⟩
    have hfront : ∀ c ∈ front, (c != mark) = true := by
      intro c hc
      rw [bne_iff_ne]
      rintro rfl
      exact hmark hc
    have hstop : ∀ c, (mark :: after).head? = some c → (c != mark) = false := by simp
    rw [List.dropWhile_append_of_pos hfront, dropWhile_of_head? hstop,
      List.takeWhile_append_of_pos hfront, takeWhile_of_head? hstop, List.append_nil]

/-- A text splits at a mark that does not stand in front of it. -/
theorem splitFirst_append {mark : Char} {front : List Char} (h : mark ∉ front) (rest : List Char) :
    splitFirst mark (front ++ mark :: rest) = some (front, rest) :=
  splitFirst_eq_some_iff.mpr ⟨rfl, h⟩

/-- The parts of a text that splits at its last mark; the second of them does not hold it. -/
theorem splitLast_eq_some_iff {mark : Char} {text front after : List Char} :
    splitLast mark text = some (front, after) ↔ text = front ++ mark :: after ∧ mark ∉ after := by
  rw [splitLast, Option.map_eq_some_iff]
  constructor
  · rintro ⟨⟨last, first⟩, hsplit, hparts⟩
    obtain ⟨rfl, rfl⟩ := Prod.mk.inj hparts
    obtain ⟨htext, hmark⟩ := splitFirst_eq_some_iff.mp hsplit
    refine ⟨?_, by simpa using hmark⟩
    rw [← List.reverse_inj, htext]
    simp
  · rintro ⟨rfl, hmark⟩
    refine ⟨(after.reverse, front.reverse), splitFirst_eq_some_iff.mpr ⟨?_, ?_⟩, by simp⟩
    · simp
    · simpa using hmark

theorem notMem_of_mem_splitOn {mark : Char} {text part : List Char}
    (h : part ∈ text.splitOn mark) : mark ∉ part := by
  induction text generalizing part with
  | nil =>
      rw [List.splitOn_nil, List.mem_singleton] at h
      subst h
      exact List.not_mem_nil
  | cons c rest ih =>
      rw [List.splitOn_cons_eq_if_modifyHead] at h
      split at h
      · rcases List.mem_cons.mp h with rfl | hrest
        · exact List.not_mem_nil
        · exact ih hrest
      · rename_i hc
        -- the first part of the rest grows by a character that is no mark
        obtain ⟨first, later, hparts⟩ := List.exists_cons_of_ne_nil (List.splitOn_ne_nil mark rest)
        rw [hparts, List.modifyHead_cons] at h
        rcases List.mem_cons.mp h with rfl | hlater
        · have hfirst : mark ∉ first := ih (hparts ▸ List.mem_cons_self)
          rw [List.mem_cons, not_or]
          exact ⟨fun heq => hc (beq_iff_eq.mpr heq.symm), hfirst⟩
        · exact ih (hparts ▸ List.mem_cons_of_mem _ hlater)

theorem infix_of_mem_splitOn {mark : Char} {text part : List Char}
    (h : part ∈ text.splitOn mark) : part <:+: text := by
  obtain ⟨i, hi⟩ := List.mem_iff_getElem?.mp h
  have hmem : part ∈ (text.splitOn mark).intersperse [mark] :=
    List.mem_iff_getElem?.mpr ⟨2 * i, by rw [List.getElem?_intersperse_two_mul, hi]⟩
  have hinfix := List.infix_of_mem_flatten hmem
  rwa [← List.intercalate, List.intercalate_splitOn] at hinfix

/-- The parts between marks are those without a mark that make up the text. -/
theorem splitOn_eq_iff {mark : Char} {text : List Char} {parts : List (List Char)}
    (h : parts ≠ []) : text.splitOn mark = parts ↔
      text = [mark].intercalate parts ∧ ∀ part ∈ parts, mark ∉ part := by
  constructor
  · rintro rfl
    exact ⟨(List.intercalate_splitOn mark).symm, fun _ => notMem_of_mem_splitOn⟩
  · rintro ⟨rfl, hparts⟩
    exact List.splitOn_intercalate mark hparts h

/-- A line that a reader of trimmed, nonempty lines sees as it is. -/
structure IsContent (line : List Char) : Prop where
  nonempty : line ≠ []
  trimmed : Trimmed line
  single : '\n' ∉ line

theorem dropTrailing_of_getLast? {p : Char → Bool} {text : List Char}
    (h : ∀ c, text.getLast? = some c → p c = false) : dropTrailing p text = text := by
  rw [dropTrailing, dropWhile_of_head?, List.reverse_reverse]
  rwa [List.head?_reverse]

theorem dropTrailing_append_replicate (c : Char) (text : List Char) (count : Nat) :
    dropTrailing (· == c) (text ++ List.replicate count c) = dropTrailing (· == c) text := by
  rw [dropTrailing, dropTrailing, List.reverse_append, List.reverse_replicate,
    List.dropWhile_append_of_pos (by simp)]

theorem exists_eq_dropTrailing (p : Char → Bool) (text : List Char) :
    ∃ dropped, (∀ c ∈ dropped, p c = true) ∧ text = dropTrailing p text ++ dropped := by
  refine ⟨(text.reverse.takeWhile p).reverse, fun c hc => ?_, ?_⟩
  · exact List.mem_takeWhile_imp (List.mem_reverse.mp hc)
  · calc text = (text.reverse.takeWhile p ++ text.reverse.dropWhile p).reverse := by
          rw [List.takeWhile_append_dropWhile, List.reverse_reverse]
      _ = dropTrailing p text ++ (text.reverse.takeWhile p).reverse := List.reverse_append

theorem exists_eq_dropTrailing_append (c : Char) (text : List Char) :
    ∃ count, text = dropTrailing (· == c) text ++ List.replicate count c := by
  obtain ⟨dropped, hdropped, htext⟩ := exists_eq_dropTrailing (· == c) text
  refine ⟨dropped.length, ?_⟩
  rwa [← List.eq_replicate_of_mem fun d hd => eq_of_beq (hdropped d hd)]

/-- Trimming takes blanks off both ends. -/
theorem exists_eq_trim (text : List Char) :
    ∃ lead trail, (∀ c ∈ lead, isBlank c = true) ∧ (∀ c ∈ trail, isBlank c = true) ∧
      text = lead ++ (trim text ++ trail) := by
  obtain ⟨trail, htrail, htext⟩ := exists_eq_dropTrailing isBlank (trimStart text)
  refine ⟨text.takeWhile isBlank, trail, fun c hc => List.mem_takeWhile_imp hc, htrail, ?_⟩
  rw [trim, ← htext, trimStart, List.takeWhile_append_dropWhile]

theorem mem_of_mem_trim {text : List Char} {c : Char} (h : c ∈ trim text) : c ∈ text := by
  obtain ⟨lead, trail, -, -, htext⟩ := exists_eq_trim text
  rw [htext]
  exact List.mem_append_right _ (List.mem_append_left _ h)

theorem trimmed_trim (text : List Char) : Trimmed (trim text) := by
  have hhead {p : Char → Bool} {text : List Char} {c : Char}
      (h : (text.dropWhile p).head? = some c) : p c = false := by
    have hnot := List.head?_dropWhile_not p text
    simpa [h] using hnot
  constructor
  · intro c hc
    obtain ⟨dropped, -, htext⟩ := exists_eq_dropTrailing isBlank (trimStart text)
    have hfront : (trimStart text).head? = some c := by
      rw [htext, ← trim, List.head?_append, hc]
      rfl
    exact hhead hfront
  · intro c hc
    rw [trim, dropTrailing, List.getLast?_reverse] at hc
    exact hhead hc

theorem trim_eq_nil_iff {text : List Char} :
    trim text = [] ↔ ∀ c ∈ text, isBlank c = true := by
  constructor
  · intro htrim
    obtain ⟨lead, trail, hlead, htrail, htext⟩ := exists_eq_trim text
    rw [htrim, List.nil_append] at htext
    rw [htext]
    exact List.forall_mem_append.mpr ⟨hlead, htrail⟩
  · intro hblank
    rw [trim, trimStart, List.dropWhile_eq_nil_iff.mpr hblank]
    rfl

theorem trim_of_trimmed {text : List Char} (h : Trimmed text) : trim text = text := by
  rw [trim, trimStart, dropWhile_of_head? h.1, dropTrailing_of_getLast? h.2]

theorem trim_trim (text : List Char) : trim (trim text) = trim text :=
  trim_of_trimmed (trimmed_trim text)

/-- A word is what is left between blanks. -/
theorem trim_between_blanks {lead text trail : List Char} (hlead : ∀ c ∈ lead, isBlank c = true)
    (htext : IsWord text) (htrail : ∀ c ∈ trail, isBlank c = true) :
    trim (lead ++ (text ++ trail)) = text := by
  have hhead : ∀ c, (text ++ trail).head? = some c → isBlank c = false := by
    rw [List.head?_append_of_ne_nil _ htext.nonempty]
    exact fun c hc => htext.visible c (List.mem_of_head? hc)
  have htrail' : ∀ c ∈ trail.reverse, isBlank c = true := by simpa using htrail
  rw [trim, trimStart, List.dropWhile_append_of_pos hlead, dropWhile_of_head? hhead, dropTrailing,
    List.reverse_append, List.dropWhile_append_of_pos htrail']
  exact dropTrailing_of_getLast? fun c hc => htext.visible c (List.mem_of_getLast? hc)

/-- Trimming does not reach a word at the front. -/
theorem isPrefix_trim {front text : List Char} (hfront : IsWord front) (h : front <+: text) :
    front <+: trim text := by
  obtain ⟨rest, rfl⟩ := h
  have hstart : trimStart (front ++ rest) = front ++ rest := by
    refine dropWhile_of_head? fun c hc => hfront.visible c ?_
    rw [List.head?_append_of_ne_nil _ hfront.nonempty] at hc
    exact List.mem_of_head? hc
  obtain ⟨dropped, hdropped, htext⟩ := exists_eq_dropTrailing isBlank (front ++ rest)
  rw [trim, hstart]
  rcases List.append_eq_append_iff.mp htext with ⟨more, hkept, -⟩ | ⟨more, hsplit, hmore⟩
  · exact ⟨more, hkept.symm⟩
  · -- what is cut off is blank, and nothing of the word is
    have hnil : more = [] := by
      refine List.eq_nil_iff_forall_not_mem.mpr fun c hc => ?_
      have hvisible := hfront.visible c (hsplit ▸ List.mem_append_right _ hc)
      have hblank := hdropped c (hmore ▸ List.mem_append_left _ hc)
      rw [hvisible] at hblank
      cases hblank
    rw [hnil, List.append_nil] at hsplit
    exact ⟨[], (List.append_nil _).trans hsplit⟩

theorem IsWord.trimmed {text : List Char} (h : IsWord text) : Trimmed text :=
  ⟨fun c hc => h.visible c (List.mem_of_head? hc),
    fun c hc => h.visible c (List.mem_of_getLast? hc)⟩

theorem IsWord.isContent {text : List Char} (h : IsWord text) : IsContent text where
  nonempty := h.nonempty
  trimmed := h.trimmed
  single := fun hmem => absurd (h.visible _ hmem) (by decide)

/-- A text between two words starts and ends with them. -/
theorem trimmed_between {first last : List Char} (hfirst : IsWord first) (hlast : IsWord last)
    (middle : List Char) : Trimmed (first ++ middle ++ last) := by
  constructor
  · intro c hc
    rw [List.append_assoc, List.head?_append_of_ne_nil _ hfirst.nonempty] at hc
    exact hfirst.visible c (List.mem_of_head? hc)
  · intro c hc
    rw [List.getLast?_append_of_ne_nil _ hlast.nonempty] at hc
    exact hlast.visible c (List.mem_of_getLast? hc)

theorem words_append_blank (front : List Char) {blank : Char} (hblank : isBlank blank = true)
    (rest : List Char) : words (front ++ blank :: rest) = words front ++ words rest := by
  rw [words, List.splitOnP_append_cons front rest hblank, List.filter_append]
  rfl

theorem words_of_isWord {word : List Char} (h : IsWord word) : words word = [word] := by
  rw [words, List.splitOnP_eq_singleton h.visible]
  simp [h.nonempty]

theorem words_append_cons {word : List Char} (h : IsWord word) {blank : Char}
    (hblank : isBlank blank = true) (rest : List Char) :
    words (word ++ blank :: rest) = word :: words rest := by
  rw [words_append_blank word hblank, words_of_isWord h, List.singleton_append]

theorem words_of_blank {text : List Char} (h : ∀ c ∈ text, isBlank c = true) :
    words text = [] := by
  induction text with
  | nil => rfl
  | cons c rest ih =>
      obtain ⟨hc, hrest⟩ := List.forall_mem_cons.mp h
      exact (words_append_blank [] hc rest).trans (ih hrest)

theorem words_blank_append {lead : List Char} (h : ∀ c ∈ lead, isBlank c = true)
    (text : List Char) : words (lead ++ text) = words text := by
  induction lead with
  | nil => rfl
  | cons c rest ih =>
      obtain ⟨hc, hrest⟩ := List.forall_mem_cons.mp h
      exact (words_append_blank [] hc (rest ++ text)).trans (ih hrest)

theorem words_append_of_blank (text : List Char) {trail : List Char}
    (h : ∀ c ∈ trail, isBlank c = true) : words (text ++ trail) = words text := by
  cases trail with
  | nil => rw [List.append_nil]
  | cons c rest =>
      obtain ⟨hc, hrest⟩ := List.forall_mem_cons.mp h
      rw [words_append_blank text hc, words_of_blank hrest, List.append_nil]

/-- A line has the words that it has between its blanks. -/
theorem words_trim (text : List Char) : words (trim text) = words text := by
  obtain ⟨lead, trail, hlead, htrail, htext⟩ := exists_eq_trim text
  conv_rhs => rw [htext, words_blank_append hlead, words_append_of_blank _ htrail]

theorem withoutReturn_of_getLast? {line : List Char} (h : line.getLast? ≠ some '\r') :
    withoutReturn line = line := by
  unfold withoutReturn
  split
  · contradiction
  · rfl

/-- Lines that each end with a newline are read back. -/
theorem lines_flatMap {segments : List (List Char)}
    (content : ∀ line ∈ segments, IsContent line) :
    lines (segments.flatMap fun line => line ++ ['\n']) = segments := by
  have hparts : (segments.flatMap fun line => line ++ ['\n']).splitOn '\n' =
      segments ++ [[]] := by
    induction segments with
    | nil => rfl
    | cons line rest ih =>
        obtain ⟨hline, hrest⟩ := List.forall_mem_cons.mp content
        rw [List.flatMap_cons, List.append_assoc, List.singleton_append,
          List.splitOn_append_cons_self_of_not_mem hline.single, ih hrest, List.cons_append]
  have hclean : segments.map withoutReturn = segments := by
    refine (List.map_congr_left fun line hmem => ?_).trans (List.map_id segments)
    refine withoutReturn_of_getLast? fun hlast => ?_
    exact absurd ((content line hmem).trimmed.2 _ hlast) (by decide)
  simp [lines, hparts, hclean]

/-- The lines up to a newline are those of the text that ends there. -/
theorem lines_append_newline (front rest : List Char) :
    lines (front ++ '\n' :: rest) = lines (front ++ ['\n']) ++ lines rest := by
  have hparts (rest : List Char) : lines (front ++ '\n' :: rest) =
      (front.splitOn '\n').map withoutReturn ++ lines rest := by
    have hne : rest.splitOn '\n' ≠ [] := List.splitOn_ne_nil _ _
    rw [lines, List.splitOn_append_cons_self, List.dropLast_append_of_ne_nil hne,
      List.getLast?_append_of_ne_nil _ hne, List.map_append, List.append_assoc]
    rfl
  have hnil : lines [] = [] := rfl
  rw [hparts rest, hparts [], hnil, List.append_nil]

/-- A text after which another one starts on a new line. -/
def EndsLine (text : List Char) : Prop :=
  text = [] ∨ text.getLast? = some '\n'

theorem lines_append {text : List Char} (h : EndsLine text) (rest : List Char) :
    lines (text ++ rest) = lines text ++ lines rest := by
  rcases h with rfl | hlast
  · rfl
  · obtain ⟨front, rfl⟩ := List.getLast?_eq_some_iff.mp hlast
    rw [List.append_assoc, List.singleton_append, lines_append_newline]

end ScriptCoverage.Text
