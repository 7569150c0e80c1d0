import ScriptCoverage.Proofs.Nef.Reader
import ScriptCoverage.Proofs.Text.Lines

/-!
The writer writes the layout with every length in its shortest form, and it is the only
one to do so. Hence a container within its limits is read back as it was, and bytes that
are read are written again as they were when nothing in them had a choice.
-/

namespace ScriptCoverage.Nef

structure MethodToken.Bounded (token : MethodToken) : Prop where
  method : token.method.utf8ByteSize ≤ maxMethodName
  unreserved : token.method.toList.head? ≠ some '_'

/-- The limits of a container. Its compiler has none: the writer cuts it to its field. -/
structure Container.Bounded (nef : Container) : Prop where
  source : nef.source.utf8ByteSize ≤ maxSource
  count : nef.tokens.length ≤ maxTokens
  tokens : ∀ token ∈ nef.tokens, token.Bounded
  nonempty : nef.script ≠ []
  script : nef.script.length ≤ maxScript

/-- A name that its field holds whole, and that can be told from the zeros behind it. -/
structure FitsField (compiler : String) : Prop where
  width : compiler.utf8ByteSize ≤ compilerWidth
  unfilled : compiler.toList.getLast? ≠ some '\x00'

section Limits

variable {form : Grammar Nat}

theorem TextLayout.size_le {limit : Nat} {bytes : List UInt8} {text : String}
    (h : TextLayout form limit bytes text) : text.utf8ByteSize ≤ limit := by
  obtain ⟨size⟩ := h
  rw [← Utf8.length_encode]
  exact size.le

theorem TokensLayout.bounded {bytes : List UInt8} {tokens : List MethodToken}
    (h : TokensLayout form bytes tokens) : ∀ token ∈ tokens, token.Bounded := by
  induction h with
  | nil =>
      intro token htoken
      cases htoken
  | cons head tail ih =>
      obtain ⟨name, free⟩ := head
      exact List.forall_mem_cons.mpr ⟨⟨name.size_le, free⟩, ih⟩

/-- Whatever has the layout is within the limits, in whichever form its lengths are. -/
theorem BodyLayout.bounded {bytes : List UInt8} {nef : Container}
    (h : BodyLayout form bytes nef) : nef.Bounded := by
  obtain ⟨-, -, text, count, list, size, nonempty⟩ := h
  exact ⟨text.size_le, count.le, list.bounded, nonempty, size.le⟩

end Limits

theorem lengthLayout_shortest_iff {limit n : Nat} {bytes : List UInt8} (h : limit < 256 ^ 8) :
    LengthLayout VarInt.Shortest limit bytes n ↔ n ≤ limit ∧ bytes = VarInt.encode n := by
  constructor
  · rintro ⟨hform, hle⟩
    exact ⟨hle, (VarInt.shortest_iff.mp hform).2⟩
  · rintro ⟨hle, rfl⟩
    exact ⟨VarInt.shortest_iff.mpr ⟨Nat.lt_of_le_of_lt hle h, rfl⟩, hle⟩

theorem textLayout_shortest_iff {limit : Nat} {bytes : List UInt8} {text : String}
    (h : limit < 256 ^ 8) : TextLayout VarInt.Shortest limit bytes text ↔
      text.utf8ByteSize ≤ limit ∧ bytes = stringField text := by
  constructor
  · intro hlayout
    refine ⟨hlayout.size_le, ?_⟩
    obtain ⟨size⟩ := hlayout
    rw [((lengthLayout_shortest_iff h).mp size).2]
    rfl
  · rintro ⟨hle, rfl⟩
    rw [← Utf8.length_encode] at hle
    exact .bytes ((lengthLayout_shortest_iff h).mpr ⟨hle, rfl⟩)

theorem tokenLayout_shortest_iff {bytes : List UInt8} {token : MethodToken} :
    TokenLayout VarInt.Shortest bytes token ↔ token.Bounded ∧ bytes = token.toBytes := by
  have hlimit : maxMethodName < 256 ^ 8 := by decide
  constructor
  · rintro ⟨name, free⟩
    obtain ⟨hle, rfl⟩ := (textLayout_shortest_iff hlimit).mp name
    exact ⟨⟨hle, free⟩, rfl⟩
  · rintro ⟨⟨hle, free⟩, rfl⟩
    exact .fields ((textLayout_shortest_iff hlimit).mpr ⟨hle, rfl⟩) free

theorem tokensLayout_shortest_iff {bytes : List UInt8} {tokens : List MethodToken} :
    TokensLayout VarInt.Shortest bytes tokens ↔
      (∀ token ∈ tokens, token.Bounded) ∧ bytes = tokens.flatMap MethodToken.toBytes := by
  constructor
  · intro h
    refine ⟨h.bounded, ?_⟩
    induction h with
    | nil => rfl
    | cons head tail ih => rw [(tokenLayout_shortest_iff.mp head).2, ih, List.flatMap_cons]
  · rintro ⟨hbounded, rfl⟩
    induction tokens with
    | nil => exact .nil
    | cons token tokens ih =>
        obtain ⟨hfirst, hrest⟩ := List.forall_mem_cons.mp hbounded
        exact .cons (tokenLayout_shortest_iff.mpr ⟨hfirst, rfl⟩) (ih hrest)

theorem length_compilerField (compiler : String) :
    (compilerField compiler).length = compilerWidth := by
  simp only [compilerField, List.length_append, List.length_replicate, List.length_take]
  omega

/-- Zero is written as one zero byte. -/
theorem encode_append_zeros (text : List Char) (count : Nat) :
    Utf8.encode (text ++ List.replicate count '\x00') =
      Utf8.encode text ++ List.replicate count 0 := by
  rw [Utf8.encode, List.flatMap_append, ← Utf8.encode]
  congr 1
  induction count with
  | zero => rfl
  | succ count ih =>
      rw [List.replicate_succ, List.flatMap_cons, ih]
      rfl

theorem compilerName_compilerField {compiler : String} (h : FitsField compiler) :
    compilerName (compilerField compiler) = compiler := by
  have hwhole : (Utf8.encode compiler.toList).take compilerWidth = Utf8.encode compiler.toList := by
    apply List.take_of_length_le
    rw [Utf8.length_encode]
    exact h.width
  have hunfilled : ∀ c, compiler.toList.getLast? = some c → (c == '\x00') = false := by
    intro c hc
    rw [beq_eq_false_iff_ne]
    rintro rfl
    exact h.unfilled hc
  simp only [compilerName, compilerField, hwhole]
  rw [← encode_append_zeros, Utf8.decodeLossy_encode, Text.dropTrailing_append_replicate,
    Text.dropTrailing_of_getLast? hunfilled, String.ofList_toList]

/-- A field of whole characters is filled again as it was. -/
theorem compilerField_compilerName {field : List UInt8} (hwidth : field.length = compilerWidth)
    (hvalid : (Utf8.decode field).isSome) : compilerField (compilerName field) = field := by
  obtain ⟨text, htext⟩ := Option.isSome_iff_exists.mp hvalid
  obtain rfl := Utf8.decode_eq_some_iff.mp htext
  obtain ⟨count, hcount⟩ := Text.exists_eq_dropTrailing_append '\x00' text
  have hname : compilerName (Utf8.encode text) =
      String.ofList (Text.dropTrailing (· == '\x00') text) := by
    rw [compilerName, Utf8.decodeLossy_encode]
  generalize Text.dropTrailing (· == '\x00') text = name at hcount hname
  have hfield : Utf8.encode text = Utf8.encode name ++ List.replicate count 0 := by
    rw [hcount, encode_append_zeros]
  have hfilled : compilerWidth - (Utf8.encode name).length = count := by
    rw [hfield, List.length_append, List.length_replicate] at hwidth
    omega
  have hwhole : (Utf8.encode name).take compilerWidth = Utf8.encode name := by
    apply List.take_of_length_le
    rw [hfield, List.length_append] at hwidth
    omega
  rw [hname, hfield]
  simp only [compilerField, String.toList_ofList, hwhole, hfilled]

/-- The layout of what the writer writes before the checksum. -/
theorem Container.Bounded.bodyLayout {nef : Container} (h : nef.Bounded) :
    BodyLayout VarInt.Shortest nef.body
      { nef with compiler := compilerName (compilerField nef.compiler) } := by
  have hlayout : BodyLayout VarInt.Shortest _
      ⟨_, nef.source, nef.tokens, nef.script, nef.checksum⟩ :=
    .fields (length_compilerField nef.compiler) rfl
      ((textLayout_shortest_iff (by decide)).mpr ⟨h.source, rfl⟩)
      ((lengthLayout_shortest_iff (by decide)).mpr ⟨h.count, rfl⟩)
      (tokensLayout_shortest_iff.mpr ⟨h.tokens, rfl⟩)
      ((lengthLayout_shortest_iff (by decide)).mpr ⟨h.script, rfl⟩) h.nonempty
  rw [Container.body, VarInt.encodeBytes, ← List.append_assoc]
  exact hlayout

/-- The body is written again as it was, when the compiler's field is. -/
theorem BodyLayout.eq_body {body : List UInt8} {nef : Container}
    (h : BodyLayout VarInt.Shortest body nef) (rest : List UInt8)
    (hvalid : (Utf8.decode (((body ++ rest).drop 4).take compilerWidth)).isSome) :
    body = nef.body := by
  obtain @⟨_, field, source, _, _, _, width, name, text, count, list, size, nonempty⟩ := h
  simp only [List.append_assoc] at hvalid
  rw [List.drop_left' (LittleEndian.length_encode 4 magic), List.take_left' width] at hvalid
  obtain ⟨-, rfl⟩ := (textLayout_shortest_iff (by decide)).mp text
  obtain ⟨-, rfl⟩ := (lengthLayout_shortest_iff (by decide)).mp count
  obtain ⟨-, rfl⟩ := tokensLayout_shortest_iff.mp list
  obtain ⟨-, rfl⟩ := (lengthLayout_shortest_iff (by decide)).mp size
  rw [Container.body, VarInt.encodeBytes, name, compilerField_compilerName width hvalid,
    ← List.append_assoc]

theorem parse_eq_ok_iff {data : List UInt8} {nef : Container} :
    Container.parse data = .ok nef ↔ Layout VarInt.Form data nef := by
  rw [← parseContainer_eq_ok_iff, Container.parse]
  cases parseContainer data with
  | ok found =>
      constructor
      · rintro ⟨⟩
        rfl
      · rintro ⟨⟩
        rfl
  | error e =>
      constructor
      · rintro ⟨⟩
      · rintro ⟨⟩

/-- The writer's checksum is the one of all that it writes before it. -/
theorem take_toBytes (nef : Container) :
    nef.toBytes.take (nef.toBytes.length - 4) = nef.body := by
  have hlength : nef.toBytes.length = nef.body.length + 4 := by
    rw [Container.toBytes, List.length_append, LittleEndian.length_encode]
  rw [hlength, Nat.add_sub_cancel, Container.toBytes, List.take_left]

theorem parse_toBytes {nef : Container} (h : nef.Bounded) :
    Container.parse nef.toBytes = .ok { nef with
      compiler := compilerName (compilerField nef.compiler), checksum := checksumOf nef.body } :=
  parse_eq_ok_iff.mpr (h.bodyLayout.layout.mono fun _ _ hshortest => hshortest.form)

theorem isContainer_toBytes (nef : Container) : isContainer nef.toBytes = true := by
  simp only [isContainer, Container.toBytes, Container.body, List.append_assoc]
  rw [List.take_left' (LittleEndian.length_encode 4 magic), beq_self_eq_true]

/-- A container within its limits, whose compiler's name fits its field, is read back as it was;
its script is found in its bytes. -/
theorem parse_toBytes_of_fitsField {nef : Container} (bounded : nef.Bounded)
    (fits : FitsField nef.compiler) :
    Container.parse nef.toBytes = .ok { nef with
        checksum := checksumOf (nef.toBytes.take (nef.toBytes.length - 4)) } ∧
      scriptBytes nef.toBytes = .ok nef.script := by
  have hparse := parse_toBytes bounded
  rw [compilerName_compilerField fits] at hparse
  constructor
  · rw [take_toBytes]
    exact hparse
  · rw [scriptBytes, isContainer_toBytes, if_pos rfl, hparse]
    rfl

/-- A script that is long enough for a marked length. -/
theorem parse_toBytes_of_fitsField_marked_length :
    let token : MethodToken :=
      ⟨ContractHash.ofBytes (List.replicate 20 7), "transfer", 4, true, 15⟩
    let nef : Container := ⟨"neo-csharp", "", [token], List.replicate 300 0x21, 0⟩
    Container.parse nef.toBytes = .ok { nef with
        checksum := checksumOf (nef.toBytes.take (nef.toBytes.length - 4)) } ∧
      scriptBytes nef.toBytes = .ok nef.script := by
  intro token nef
  have htoken : token.Bounded := ⟨by decide, by decide⟩
  have bounded : nef.Bounded := {
    source := by decide
    count := by decide
    tokens := List.forall_mem_singleton.mpr htoken
    nonempty := by decide
    script := by
      rw [List.length_replicate]
      decide }
  exact parse_toBytes_of_fitsField bounded ⟨by decide, by decide⟩

/-- No accepted container goes on to another one. -/
theorem eq_nil_of_layout_append {data more : List UInt8} {nef nef' : Container}
    (h : Layout VarInt.Form data nef) (h' : Layout VarInt.Form (data ++ more) nef') :
    more = [] := by
  obtain @⟨_, body, layout, -⟩ := h
  generalize hwhole : body ++ LittleEndian.encode 4 nef.checksum.toNat ++ more = whole at h'
  obtain @⟨_, body', layout', -⟩ := h'
  rw [List.append_assoc] at hwhole
  obtain ⟨rfl, -⟩ := Read.exact_body.unique ⟨layout.withChecksum 0, rfl⟩
    ⟨layout'.withChecksum 0, rfl⟩ hwhole
  have hlength := congrArg List.length (List.append_cancel_left hwhole)
  rw [List.length_append, LittleEndian.length_encode, LittleEndian.length_encode] at hlength
  exact List.eq_nil_of_length_eq_zero (by omega)

/-- Reading accepts exactly the layout, and no accepted bytes continue others. What was
accepted is accepted again after it is written; it is written as it was when its lengths are
shortest and its compiler's field is a text. -/
theorem parse_exact :
    (∀ data nef, Container.parse data = .ok nef ↔ Layout VarInt.Form data nef) ∧
    (∀ data more nef nef', Container.parse data = .ok nef →
      Container.parse (data ++ more) = .ok nef' → more = []) ∧
    (∀ data nef, Container.parse data = .ok nef →
      ∃ again, Container.parse nef.toBytes = .ok again ∧
        again.source = nef.source ∧ again.tokens = nef.tokens ∧ again.script = nef.script) ∧
    ∀ data nef, Layout VarInt.Shortest data nef →
      (Utf8.decode ((data.drop 4).take compilerWidth)).isSome →
      Container.parse data = .ok nef ∧ nef.toBytes = data := by
  refine ⟨fun data nef => parse_eq_ok_iff, ?prefixFree, ?again, ?rewritten⟩
  case prefixFree =>
    intro data more nef nef' h h'
    exact eq_nil_of_layout_append (parse_eq_ok_iff.mp h) (parse_eq_ok_iff.mp h')
  case again =>
    intro data nef h
    obtain ⟨layout, -⟩ := parse_eq_ok_iff.mp h
    exact ⟨_, parse_toBytes layout.bounded, rfl, rfl, rfl⟩
  case rewritten =>
    intro data nef h hvalid
    refine ⟨parse_eq_ok_iff.mpr (h.mono fun _ _ hshortest => hshortest.form), ?_⟩
    obtain @⟨_, body, layout, checksum⟩ := h
    rw [Container.toBytes, ← layout.eq_body _ hvalid, checksum]

end ScriptCoverage.Nef
