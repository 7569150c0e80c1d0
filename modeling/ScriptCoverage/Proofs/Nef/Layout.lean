import ScriptCoverage.Nef.Reader
import ScriptCoverage.Proofs.Binary.VarInt
import ScriptCoverage.Proofs.Text.Utf8

/-!
The layout of a container, field by field. It leaves open in which form a length is
written, so that it describes both what a reader may accept and what a writer may choose.
-/

namespace ScriptCoverage.Nef

/-- Which bytes may stand for a value. -/
abbrev Grammar (α : Type) := List UInt8 → α → Prop

/-- The compiler's name, without the zeros that fill its field. -/
def compilerName (field : List UInt8) : String :=
  String.ofList (Text.dropTrailing (· == '\x00') (Utf8.decodeLossy field))

variable (form : Grammar Nat)

/-- A length that is within its limit. -/
structure LengthLayout (limit : Nat) (bytes : List UInt8) (length : Nat) : Prop where
  form : form bytes length
  le : length ≤ limit

/-- The length of a text in bytes, and these bytes. -/
inductive TextLayout (limit : Nat) : Grammar String where
  | bytes {length : List UInt8} {text : String}
      (size : LengthLayout form limit length (Utf8.encode text.toList).length) :
      TextLayout limit (length ++ Utf8.encode text.toList) text

inductive TokenLayout : Grammar MethodToken where
  | fields {token : MethodToken} {method : List UInt8}
      (name : TextLayout form maxMethodName method token.method)
      (free : token.method.toList.head? ≠ some '_') :
      TokenLayout (token.hash.toBytes ++ method ++
        LittleEndian.encode 2 token.parameterCount.toNat ++
        [if token.hasReturnValue then 1 else 0, token.callFlags]) token

inductive TokensLayout : Grammar (List MethodToken) where
  | nil : TokensLayout [] []
  | cons {token : MethodToken} {tokens : List MethodToken} {first rest : List UInt8}
      (head : TokenLayout form first token) (tail : TokensLayout rest tokens) :
      TokensLayout (first ++ rest) (token :: tokens)

/-- Everything before the checksum. -/
inductive BodyLayout : Grammar Container where
  | fields {nef : Container} {compiler source tokenCount tokens scriptLength : List UInt8}
      (width : compiler.length = compilerWidth) (name : nef.compiler = compilerName compiler)
      (text : TextLayout form maxSource source nef.source)
      (count : LengthLayout form maxTokens tokenCount nef.tokens.length)
      (list : TokensLayout form tokens nef.tokens)
      (size : LengthLayout form maxScript scriptLength nef.script.length)
      (nonempty : nef.script ≠ []) :
      BodyLayout (LittleEndian.encode 4 magic ++ compiler ++ source ++ [0] ++ tokenCount ++
        tokens ++ LittleEndian.encode 2 0 ++ scriptLength ++ nef.script) nef

/-- A body and its checksum, and nothing after it. -/
inductive Layout : Grammar Container where
  | fields {nef : Container} {body : List UInt8} (layout : BodyLayout form body nef)
      (checksum : nef.checksum = checksumOf body) :
      Layout (body ++ LittleEndian.encode 4 nef.checksum.toNat) nef

section Mono

variable {form : Grammar Nat} {form' : Grammar Nat}
  (weaker : ∀ bytes n, form bytes n → form' bytes n)

include weaker

theorem LengthLayout.mono {limit n : Nat} {bytes : List UInt8}
    (h : LengthLayout form limit bytes n) : LengthLayout form' limit bytes n :=
  ⟨weaker _ _ h.form, h.le⟩

theorem TextLayout.mono {limit : Nat} {bytes : List UInt8} {text : String}
    (h : TextLayout form limit bytes text) : TextLayout form' limit bytes text := by
  obtain ⟨size⟩ := h
  exact .bytes (size.mono weaker)

theorem TokenLayout.mono {bytes : List UInt8} {token : MethodToken}
    (h : TokenLayout form bytes token) : TokenLayout form' bytes token := by
  obtain ⟨name, free⟩ := h
  exact .fields (name.mono weaker) free

theorem TokensLayout.mono {bytes : List UInt8} {tokens : List MethodToken}
    (h : TokensLayout form bytes tokens) : TokensLayout form' bytes tokens := by
  induction h with
  | nil => exact .nil
  | cons head tail ih => exact .cons (head.mono weaker) ih

theorem BodyLayout.mono {bytes : List UInt8} {nef : Container} (h : BodyLayout form bytes nef) :
    BodyLayout form' bytes nef := by
  obtain ⟨width, name, text, count, list, size, nonempty⟩ := h
  exact .fields width name (text.mono weaker) (count.mono weaker) (list.mono weaker)
    (size.mono weaker) nonempty

/-- A form that allows more lengths allows more layouts. -/
theorem Layout.mono {bytes : List UInt8} {nef : Container} (h : Layout form bytes nef) :
    Layout form' bytes nef := by
  obtain ⟨layout, checksum⟩ := h
  exact .fields (layout.mono weaker) checksum

end Mono

end ScriptCoverage.Nef
