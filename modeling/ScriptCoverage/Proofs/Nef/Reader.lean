import ScriptCoverage.Proofs.ContractHash
import ScriptCoverage.Proofs.Data.Except
import ScriptCoverage.Proofs.Nef.Layout

/-!
The reader accepts exactly the layout, with every length in any form. A reader is exact
for a grammar when it succeeds on its words and on nothing else, whatever follows them;
exact readers compose, so each field is treated once.
-/

namespace ScriptCoverage.Nef

namespace Read

/-- A reader succeeds exactly when bytes of the grammar are next, and goes on behind them. -/
def Exact {α : Type} (read : Read α) (grammar : Grammar α) : Prop :=
  ∀ cursor value after, read cursor = .ok (value, after) ↔
    ∃ bytes, grammar bytes value ∧ cursor.rest = bytes ++ after.rest ∧
      after.offset = cursor.offset + bytes.length

variable {α β : Type}

theorem Exact.congr {read : Read α} {grammar grammar' : Grammar α} (h : Exact read grammar)
    (same : ∀ bytes value, grammar bytes value ↔ grammar' bytes value) : Exact read grammar' := by
  intro cursor value after
  rw [h cursor value after]
  exact exists_congr fun bytes => and_congr_left' (same bytes value)

theorem exact_pure (value : α) :
    Exact (pure value) fun bytes result => bytes = [] ∧ result = value := by
  intro cursor result after
  constructor
  · rintro ⟨⟩
    exact ⟨[], ⟨rfl, rfl⟩, rfl, rfl⟩
  · rintro ⟨_, ⟨rfl, rfl⟩, hrest, hoffset⟩
    obtain ⟨offset, rest⟩ := cursor
    obtain ⟨offset', rest'⟩ := after
    cases hrest
    cases hoffset
    rfl

theorem exact_throw (e : NefError) : Exact (throw e : Read α) fun _ _ => False := by
  intro cursor value after
  constructor
  · rintro ⟨⟩
  · rintro ⟨_, ⟨⟩, -⟩

theorem Exact.bind {read : Read α} {next : α → Read β} {grammar : Grammar α}
    {grammar' : α → Grammar β} (h : Exact read grammar)
    (hnext : ∀ value, Exact (next value) (grammar' value)) :
    Exact (read >>= next) fun bytes result => ∃ value first second,
      grammar first value ∧ grammar' value second result ∧ bytes = first ++ second := by
  intro cursor result after
  have hrun : (read >>= next) cursor = read cursor >>= fun (value, middle) => next value middle :=
    rfl
  rw [hrun, Except.bind_eq_ok_iff]
  constructor
  · rintro ⟨⟨value, middle⟩, hread, hresult⟩
    obtain ⟨first, hfirst, hrest, hoffset⟩ := (h _ _ _).mp hread
    obtain ⟨second, hsecond, hrest', hoffset'⟩ := (hnext _ _ _ _).mp hresult
    refine ⟨first ++ second, ⟨value, first, second, hfirst, hsecond, rfl⟩, ?_, ?_⟩
    · rw [hrest, hrest', List.append_assoc]
    · rw [hoffset', hoffset, List.length_append, Nat.add_assoc]
  · rintro ⟨_, ⟨value, first, second, hfirst, hsecond, rfl⟩, hrest, hoffset⟩
    rw [List.append_assoc] at hrest
    rw [List.length_append, ← Nat.add_assoc] at hoffset
    refine ⟨(value, ⟨cursor.offset + first.length, second ++ after.rest⟩), ?_, ?_⟩
    · exact (h _ _ _).mpr ⟨first, hfirst, hrest, rfl⟩
    · exact (hnext _ _ _ _).mpr ⟨second, hsecond, rfl, hoffset⟩

theorem Exact.map {read : Read α} {grammar : Grammar α} (h : Exact read grammar) (f : α → β) :
    Exact (read >>= fun value => pure (f value)) fun bytes result =>
      ∃ value, grammar bytes value ∧ result = f value := by
  refine (h.bind fun value => exact_pure (f value)).congr fun bytes result => ?_
  constructor
  · rintro ⟨value, first, _, hfirst, ⟨rfl, hresult⟩, rfl⟩
    rw [List.append_nil]
    exact ⟨value, hfirst, hresult⟩
  · rintro ⟨value, hbytes, hresult⟩
    exact ⟨value, bytes, [], hbytes, ⟨rfl, hresult⟩, (List.append_nil bytes).symm⟩

/-- A check before the rest of a reader. -/
theorem Exact.check {refused : Prop} [Decidable refused] {e : NefError}
    {next : PUnit → Read α} {grammar : Grammar α} (h : ¬refused → Exact (next ⟨⟩) grammar) :
    Exact (if refused then throw e >>= next else next ⟨⟩)
      fun bytes value => ¬refused ∧ grammar bytes value := by
  by_cases hrefused : refused
  · rw [if_pos hrefused]
    intro cursor value after
    constructor
    · rintro ⟨⟩
    · rintro ⟨_, ⟨hpassed, -⟩, -⟩
      exact absurd hrefused hpassed
  · rw [if_neg hrefused]
    exact (h hrefused).congr fun bytes value => (and_iff_right hrefused).symm

theorem exact_bytes (count : Nat) :
    Exact (bytes count) fun bytes value => bytes = value ∧ value.length = count := by
  rintro ⟨offset, rest⟩ value ⟨offset', rest'⟩
  unfold Read.bytes
  by_cases hshort : (rest.take count).length < count
  · simp only [if_pos hshort]
    constructor
    · rintro ⟨⟩
    · rintro ⟨_, ⟨rfl, hcount⟩, hrest, -⟩
      rw [List.length_take, hrest, List.length_append] at hshort
      omega
  · have hcount : (rest.take count).length = count := by
      rw [List.length_take] at hshort ⊢
      omega
    simp only [if_neg hshort]
    constructor
    · rintro ⟨⟩
      exact ⟨_, ⟨rfl, hcount⟩, (List.take_append_drop _ _).symm, by rw [hcount]⟩
    · rintro ⟨_, ⟨rfl, rfl⟩, rfl, rfl⟩
      rw [List.take_left, List.drop_left]

theorem exact_number (width : Nat) :
    Exact (number width) fun bytes n => n < 256 ^ width ∧ bytes = LittleEndian.encode width n := by
  refine ((exact_bytes width).map LittleEndian.decode).congr fun bytes n => ?_
  constructor
  · rintro ⟨_, ⟨rfl, rfl⟩, rfl⟩
    exact ⟨LittleEndian.decode_lt _, (LittleEndian.encode_decode _).symm⟩
  · rintro ⟨hlt, rfl⟩
    have hdecoded := LittleEndian.decode_encode width n hlt
    exact ⟨_, ⟨rfl, LittleEndian.length_encode width n⟩, hdecoded.symm⟩

/-- What stands behind the first byte of a length, if that byte announces more. -/
def BehindMark (limit first : Nat) (bytes : List UInt8) (n : Nat) : Prop :=
  n ≤ limit ∧ match VarInt.markedWidth? (UInt8.ofNat first) with
    | some width => n < 256 ^ width ∧ bytes = LittleEndian.encode width n
    | none => bytes = [] ∧ n = first

theorem exact_count (limit : Nat) : Exact (count limit) (LengthLayout VarInt.Form limit) := by
  unfold count
  refine ((exact_number 1).bind fun first =>
    show Exact _ (BehindMark limit first) from ?_).congr fun bytes n => ?_
  · unfold BehindMark
    cases VarInt.markedWidth? (UInt8.ofNat first) with
    | some width =>
        refine ((exact_number width).bind fun n =>
          Exact.check fun _ => exact_pure n).congr fun bytes n => ?_
        constructor
        · rintro ⟨_, _, _, ⟨hlt, rfl⟩, ⟨hlimit, rfl, rfl⟩, rfl⟩
          exact ⟨Nat.le_of_not_lt hlimit, hlt, List.append_nil _⟩
        · rintro ⟨hlimit, hlt, rfl⟩
          exact ⟨_, _, [], ⟨hlt, rfl⟩, ⟨Nat.not_lt_of_le hlimit, rfl, rfl⟩,
            (List.append_nil _).symm⟩
    | none =>
        refine ((exact_pure first).bind fun n =>
          Exact.check fun _ => exact_pure n).congr fun bytes n => ?_
        constructor
        · rintro ⟨_, _, _, ⟨rfl, rfl⟩, ⟨hlimit, rfl, rfl⟩, rfl⟩
          exact ⟨Nat.le_of_not_lt hlimit, rfl, rfl⟩
        · rintro ⟨hlimit, rfl, rfl⟩
          exact ⟨_, [], [], ⟨rfl, rfl⟩, ⟨Nat.not_lt_of_le hlimit, rfl, rfl⟩, rfl⟩
  · constructor
    · rintro ⟨first, _, rest, ⟨hfirst, rfl⟩, ⟨hlimit, hbehind⟩, rfl⟩
      refine ⟨VarInt.form_iff.mpr ⟨UInt8.ofNat first, rest, rfl, ?_⟩, hlimit⟩
      cases hmark : VarInt.markedWidth? (UInt8.ofNat first) with
      | some width =>
          rw [hmark] at hbehind
          exact hbehind
      | none =>
          rw [hmark] at hbehind
          obtain ⟨hrest, hn⟩ := hbehind
          refine ⟨hrest, hn.trans ?_⟩
          rw [UInt8.toNat_ofNat']
          omega
    · rintro ⟨hform, hlimit⟩
      obtain ⟨first, rest, rfl, hbehind⟩ := VarInt.form_iff.mp hform
      refine ⟨first.toNat, [first], rest, ⟨first.toNat_lt, ?_⟩, ⟨hlimit, ?_⟩, rfl⟩
      · rw [LittleEndian.encode, LittleEndian.encode, UInt8.ofNat_toNat]
      · rwa [UInt8.ofNat_toNat]

/-- The text in bytes that have been read. -/
def decoded (read : List UInt8) : Read String :=
  match Utf8.decode read with
  | some text => pure (String.ofList text)
  | none => throw .notUtf8

theorem exact_text (limit : Nat) : Exact (string limit) (TextLayout VarInt.Form limit) := by
  have hdecode (read : List UInt8) : Exact (decoded read)
      fun bytes text => bytes = [] ∧ Utf8.decode read = some text.toList := by
    unfold decoded
    cases Utf8.decode read with
    | some text =>
        refine (exact_pure _).congr fun bytes result => and_congr_right' ?_
        rw [Option.some_inj]
        constructor
        · rintro rfl
          rw [String.toList_ofList]
        · rintro rfl
          rw [String.ofList_toList]
    | none =>
        refine (exact_throw _).congr fun bytes result => ?_
        constructor
        · rintro ⟨⟩
        · rintro ⟨-, ⟨⟩⟩
  simp only [Utf8.decode_eq_some_iff] at hdecode
  refine ((exact_count limit).bind fun length => (exact_bytes length).bind hdecode).congr
    fun bytes text => ?_
  constructor
  · rintro ⟨_, _, _, hlength, ⟨_, _, _, ⟨rfl, rfl⟩, ⟨rfl, rfl⟩, rfl⟩, rfl⟩
    rw [List.append_nil]
    exact .bytes hlength
  · rintro ⟨hlength⟩
    exact ⟨_, _, _, hlength, ⟨_, _, [], ⟨rfl, rfl⟩, ⟨rfl, rfl⟩, (List.append_nil _).symm⟩, rfl⟩

theorem exact_boolean : Exact boolean fun bytes flag => bytes = [if flag then 1 else 0] := by
  unfold boolean
  refine ((exact_number 1).bind fun n => show Exact _ fun bytes flag =>
    bytes = [] ∧ n = if flag then 1 else 0 from ?_).congr fun bytes flag => ?_
  · split_ifs with hzero hone
    · refine (exact_pure false).congr fun bytes flag => and_congr_right' ?_
      cases flag <;> simp [hzero]
    · refine (exact_pure true).congr fun bytes flag => and_congr_right' ?_
      cases flag <;> simp [hone]
    · refine (exact_throw _).congr fun bytes flag => ?_
      cases flag <;> simp [hzero, hone]
  · constructor
    · rintro ⟨_, _, _, ⟨-, rfl⟩, ⟨rfl, rfl⟩, rfl⟩
      cases flag <;> rfl
    · rintro rfl
      refine ⟨if flag then 1 else 0, _, [], ⟨?_, rfl⟩, ⟨rfl, rfl⟩, ?_⟩
      · cases flag <;> decide
      · cases flag <;> rfl

theorem exact_zero (width : Nat) (e : NefError) :
    Exact (zero width e) fun bytes _ => bytes = LittleEndian.encode width 0 := by
  unfold zero
  refine ((exact_number width).bind fun n => show Exact _ fun bytes _ =>
    bytes = [] ∧ n = 0 from ?_).congr fun bytes _ => ?_
  · split_ifs with hzero
    · refine (exact_throw e).congr fun bytes _ => ?_
      simp [hzero]
    · refine (exact_pure _).congr fun bytes _ => ?_
      simp [not_not.mp hzero]
  · constructor
    · rintro ⟨_, _, _, ⟨-, rfl⟩, ⟨rfl, rfl⟩, rfl⟩
      exact List.append_nil _
    · rintro rfl
      exact ⟨0, _, [], ⟨Nat.pow_pos (by decide), rfl⟩, ⟨rfl, rfl⟩, (List.append_nil _).symm⟩

theorem exact_methodToken : Exact methodToken (TokenLayout VarInt.Form) := by
  unfold methodToken
  refine ((exact_bytes _).bind fun hash => (exact_text _).bind fun method =>
    Exact.check fun _ => (exact_number 2).bind fun parameters =>
      exact_boolean.bind fun flag => (exact_number 1).map _).congr fun bytes token => ?_
  constructor
  · rintro ⟨_, hash, _, ⟨rfl, hhash⟩, hrest, rfl⟩
    obtain ⟨method, _, _, hname, ⟨hfree, hrest⟩, rfl⟩ := hrest
    obtain ⟨parameters, _, _, ⟨hparameters, rfl⟩, hrest, rfl⟩ := hrest
    obtain ⟨flag, _, _, rfl, hrest, rfl⟩ := hrest
    obtain ⟨flags, ⟨-, rfl⟩, rfl⟩ := hrest
    have hlayout : TokenLayout VarInt.Form _ ⟨ContractHash.ofBytes hash, method,
      UInt16.ofNat parameters, flag, UInt8.ofNat flags⟩ := .fields hname hfree
    rw [ContractHash.toBytes_ofBytes hhash, UInt16.toNat_ofNat_of_lt' hparameters] at hlayout
    simpa [LittleEndian.encode] using hlayout
  · rintro ⟨hname, hfree⟩
    refine ⟨token.hash.toBytes, _, _, ⟨rfl, token.hash.length_toBytes⟩, ⟨token.method, _, _,
      hname, ⟨hfree, token.parameterCount.toNat, _, _, ⟨token.parameterCount.toNat_lt, rfl⟩,
        ⟨token.hasReturnValue, _, _, rfl, ⟨token.callFlags.toNat,
          ⟨token.callFlags.toNat_lt, rfl⟩, ?_⟩, rfl⟩, rfl⟩, rfl⟩, ?_⟩
    · simp [ContractHash.ofBytes_toBytes]
    · simp [LittleEndian.encode]

/-- As many tokens as were counted. -/
theorem exact_methodTokens (count : Nat) :
    Exact (methodTokens count) fun bytes tokens =>
      TokensLayout VarInt.Form bytes tokens ∧ tokens.length = count := by
  induction count with
  | zero =>
      refine (exact_pure []).congr fun bytes tokens => ?_
      constructor
      · rintro ⟨rfl, rfl⟩
        exact ⟨.nil, rfl⟩
      · rintro ⟨hlayout, hlength⟩
        cases hlayout with
        | nil => exact ⟨rfl, rfl⟩
        | cons head tail => cases hlength
  | succ count ih =>
      unfold methodTokens
      refine (exact_methodToken.bind fun token => ih.map (token :: ·)).congr
        fun bytes tokens => ?_
      constructor
      · rintro ⟨token, _, _, hhead, ⟨rest, ⟨htail, rfl⟩, rfl⟩, rfl⟩
        exact ⟨.cons hhead htail, rfl⟩
      · rintro ⟨hlayout, hlength⟩
        cases hlayout with
        | nil => cases hlength
        | cons head tail =>
            exact ⟨_, _, _, head, ⟨_, ⟨tail, Nat.succ.inj hlength⟩, rfl⟩, rfl⟩

/-- The checksum of what is read is not known yet. -/
theorem exact_body :
    Exact body fun bytes nef => BodyLayout VarInt.Form bytes nef ∧ nef.checksum = 0 := by
  unfold body
  refine ((exact_number 4).bind fun found => Exact.check fun _ =>
    (exact_bytes _).bind fun compiler => (exact_text _).bind fun source =>
      (exact_zero 1 _).bind fun _ => (exact_count _).bind fun tokenCount =>
        (exact_methodTokens tokenCount).bind fun tokens => (exact_zero 2 _).bind fun _ =>
          (exact_count _).bind fun scriptLength => Exact.check fun _ =>
            (exact_bytes scriptLength).map _).congr fun bytes nef => ?_
  constructor
  · rintro ⟨found, _, _, ⟨-, rfl⟩, ⟨hmagic, hrest⟩, rfl⟩
    obtain ⟨_, compiler, _, ⟨rfl, hwidth⟩, hrest, rfl⟩ := hrest
    obtain ⟨source, _, _, hsource, hrest, rfl⟩ := hrest
    obtain ⟨_, _, _, rfl, hrest, rfl⟩ := hrest
    obtain ⟨_, _, _, hcount, hrest, rfl⟩ := hrest
    obtain ⟨tokens, _, _, ⟨htokens, rfl⟩, hrest, rfl⟩ := hrest
    obtain ⟨_, _, _, rfl, hrest, rfl⟩ := hrest
    obtain ⟨_, _, script, hsize, ⟨hnonempty, hrest⟩, rfl⟩ := hrest
    obtain ⟨_, ⟨rfl, rfl⟩, rfl⟩ := hrest
    have hlayout : BodyLayout VarInt.Form _ ⟨compilerName compiler, source, tokens, script, 0⟩ :=
      .fields hwidth rfl hsource hcount htokens hsize (mt List.length_eq_zero_iff.mpr hnonempty)
    rw [not_not.mp hmagic]
    refine ⟨?_, rfl⟩
    simpa [LittleEndian.encode, compilerName] using hlayout
  · rintro ⟨⟨hwidth, hname, hsource, hcount, htokens, hsize, hnonempty⟩, hchecksum⟩
    refine ⟨magic, _, _, ⟨by decide, rfl⟩, ⟨not_not.mpr rfl, _, _, _, ⟨rfl, hwidth⟩,
      ⟨nef.source, _, _, hsource, ⟨⟨⟩, _, _, rfl, ⟨_, _, _, hcount, ⟨nef.tokens, _, _,
        ⟨htokens, rfl⟩, ⟨⟨⟩, _, _, rfl, ⟨_, _, _, hsize,
          ⟨mt List.length_eq_zero_iff.mp hnonempty, nef.script, ⟨rfl, rfl⟩, ?_⟩, rfl⟩, rfl⟩,
            rfl⟩, rfl⟩, rfl⟩, rfl⟩, rfl⟩, ?_⟩
    · change nef = ⟨compilerName _, nef.source, nef.tokens, nef.script, 0⟩
      rw [← hname, ← hchecksum]
    · simp [LittleEndian.encode]

/-- No word of the grammar of an exact reader continues another one. -/
theorem Exact.unique {read : Read α} {grammar : Grammar α} (h : Exact read grammar)
    {first second rest rest' : List UInt8} {value value' : α} (hfirst : grammar first value)
    (hsecond : grammar second value') (same : first ++ rest = second ++ rest') :
    first = second ∧ value = value' := by
  have hread : read ⟨0, first ++ rest⟩ = .ok (value, ⟨0 + first.length, rest⟩) :=
    (h _ _ _).mpr ⟨first, hfirst, rfl, rfl⟩
  have hread' : read ⟨0, second ++ rest'⟩ = .ok (value', ⟨0 + second.length, rest'⟩) :=
    (h _ _ _).mpr ⟨second, hsecond, rfl, rfl⟩
  rw [same, hread'] at hread
  simp only [Except.ok.injEq, Prod.mk.injEq, Cursor.mk.injEq, Nat.zero_add] at hread
  obtain ⟨hvalue, hlength, hrest⟩ := hread
  exact ⟨(List.append_inj same hlength.symm).1, hvalue.symm⟩

end Read

/-- The checksum is not part of the body. -/
theorem BodyLayout.withChecksum {form : Grammar Nat} {body : List UInt8} {nef : Container}
    (h : BodyLayout form body nef) (checksum : UInt32) :
    BodyLayout form body { nef with checksum } := by
  obtain ⟨width, name, text, count, list, size, nonempty⟩ := h
  have hlayout : BodyLayout form _ ⟨nef.compiler, nef.source, nef.tokens, nef.script, checksum⟩ :=
    .fields width name text count list size nonempty
  exact hlayout

theorem BodyLayout.layout {form : Grammar Nat} {body : List UInt8} {nef : Container}
    (h : BodyLayout form body nef) :
    Layout form (body ++ LittleEndian.encode 4 (checksumOf body).toNat)
      { nef with checksum := checksumOf body } :=
  @Layout.fields form { nef with checksum := checksumOf body } body (h.withChecksum _) rfl

/-- A container is read exactly when it has the layout, with lengths in any form. -/
theorem parseContainer_eq_ok_iff {data : List UInt8} {nef : Container} :
    parseContainer data = .ok nef ↔ Layout VarInt.Form data nef := by
  constructor
  · intro h
    obtain ⟨⟨read, afterBody⟩, hbody, h⟩ := Except.bind_eq_ok_iff.mp h
    obtain ⟨⟨found, afterChecksum⟩, hfound, h⟩ := Except.bind_eq_ok_iff.mp h
    obtain ⟨body, ⟨hlayout, -⟩, hdata, hoffset⟩ := (Read.exact_body _ _ _).mp hbody
    obtain ⟨_, ⟨-, rfl⟩, hrest, -⟩ := (Read.exact_number 4 _ _ _).mp hfound
    dsimp only at h hdata hoffset
    have htake : data.take afterBody.offset = body := by
      rw [hoffset, Nat.zero_add, hdata, List.take_left]
    rw [htake] at h
    have hend : afterChecksum.rest = [] := by
      by_contra htrailing
      rw [if_pos htrailing] at h
      cases h
    rw [if_neg (not_not.mpr hend)] at h
    have hequal : found = (checksumOf body).toNat := by
      by_contra hmismatch
      rw [if_pos hmismatch] at h
      cases h
    rw [if_neg (not_not.mpr hequal)] at h
    cases h
    rw [hdata, hrest, hend, List.append_nil, hequal]
    exact hlayout.layout
  · rintro @⟨_, body, hlayout, hchecksum⟩
    have hbody (rest : List UInt8) : Read.body ⟨0, body ++ rest⟩ =
        .ok ({ nef with checksum := 0 }, ⟨body.length, rest⟩) :=
      (Read.exact_body _ _ _).mpr ⟨body, ⟨hlayout.withChecksum 0, rfl⟩, rfl, (Nat.zero_add _).symm⟩
    have hfound : Read.number 4 ⟨body.length, LittleEndian.encode 4 nef.checksum.toNat⟩ =
        .ok (nef.checksum.toNat, ⟨body.length + 4, []⟩) := by
      apply (Read.exact_number 4 _ _ _).mpr
      refine ⟨_, ⟨nef.checksum.toNat_lt, rfl⟩, (List.append_nil _).symm, ?_⟩
      rw [LittleEndian.length_encode]
    have hequal : nef.checksum.toNat = (checksumOf body).toNat := by rw [hchecksum]
    refine Except.bind_eq_ok_iff.mpr ⟨_, hbody _, Except.bind_eq_ok_iff.mpr ⟨_, hfound, ?_⟩⟩
    dsimp only
    rw [if_neg (not_not.mpr rfl), List.take_left, if_neg (not_not.mpr hequal), ← hchecksum]
    rfl

end ScriptCoverage.Nef
