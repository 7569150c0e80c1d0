/-!
UTF-8. `next` reads one character off a byte list, or says which bytes cannot be
part of one: the longest run that starts some well-formed sequence, and at least
one byte. `decode` refuses such a run and `decodeLossy` writes one replacement
character for it, so the two agree on every well-formed text.
-/

namespace ScriptCoverage.Utf8

def isTail (b : UInt8) : Bool :=
  0x80 ≤ b && b ≤ 0xBF

/-- The range of the second byte after the lead byte of a longer sequence; it
excludes overlong forms, surrogates and values above 0x10FFFF. -/
def secondRange (lead : UInt8) : UInt8 × UInt8 :=
  if lead = 0xE0 then (0xA0, 0xBF)
  else if lead = 0xED then (0x80, 0x9F)
  else if lead = 0xF0 then (0x90, 0xBF)
  else if lead = 0xF4 then (0x80, 0x8F)
  else (0x80, 0xBF)

def isSecond (lead b : UInt8) : Bool :=
  (secondRange lead).1 ≤ b && b ≤ (secondRange lead).2

def scalar (lead : Nat) (tail : List UInt8) : Char :=
  Char.ofNat (tail.foldl (fun read b => 64 * read + (b.toNat - 0x80)) lead)

/-- What stands at the front of a nonempty byte list, and the bytes after it. -/
inductive Front where
  | char (c : Char) (rest : List UInt8)
  | broken (rest : List UInt8)

def Front.rest : Front → List UInt8
  | .char _ rest | .broken rest => rest

def next (lead : UInt8) (bytes : List UInt8) : Front :=
  if lead < 0x80 then .char (Char.ofNat lead.toNat) bytes
  else if 0xC2 ≤ lead ∧ lead ≤ 0xDF then
    match bytes with
    | b :: rest =>
        if isTail b then .char (scalar (lead.toNat - 0xC0) [b]) rest else .broken bytes
    | [] => .broken []
  else if 0xE0 ≤ lead ∧ lead ≤ 0xEF then
    match bytes with
    | b :: rest =>
        if isSecond lead b then
          match rest with
          | c :: rest' =>
              if isTail c then .char (scalar (lead.toNat - 0xE0) [b, c]) rest'
              else .broken rest
          | [] => .broken []
        else .broken bytes
    | [] => .broken []
  else if 0xF0 ≤ lead ∧ lead ≤ 0xF4 then
    match bytes with
    | b :: rest =>
        if isSecond lead b then
          match rest with
          | c :: rest' =>
              if isTail c then
                match rest' with
                | d :: rest'' =>
                    if isTail d then .char (scalar (lead.toNat - 0xF0) [b, c, d]) rest''
                    else .broken rest'
                | [] => .broken []
              else .broken rest
          | [] => .broken []
        else .broken bytes
    | [] => .broken []
  else .broken bytes

theorem next_rest_length_le (lead : UInt8) (bytes : List UInt8) :
    (next lead bytes).rest.length ≤ bytes.length := by
  unfold next
  repeat' split
  all_goals simp [Front.rest]
  all_goals omega

/-- The text of a well-formed byte list. -/
def decode : List UInt8 → Option (List Char)
  | [] => some []
  | lead :: bytes =>
      match h : next lead bytes with
      | .char c rest =>
          have : rest.length ≤ bytes.length := by
            simpa [h, Front.rest] using next_rest_length_le lead bytes
          (decode rest).map (c :: ·)
      | .broken _ => none
termination_by bytes => bytes.length
decreasing_by simp only [List.length_cons]; omega

/-- The text of any byte list, a replacement character for each broken run. -/
def decodeLossy : List UInt8 → List Char
  | [] => []
  | lead :: bytes =>
      match h : next lead bytes with
      | .char c rest =>
          have : rest.length ≤ bytes.length := by
            simpa [h, Front.rest] using next_rest_length_le lead bytes
          c :: decodeLossy rest
      | .broken rest =>
          have : rest.length ≤ bytes.length := by
            simpa [h, Front.rest] using next_rest_length_le lead bytes
          '\uFFFD' :: decodeLossy rest
termination_by bytes => bytes.length
decreasing_by all_goals (simp only [List.length_cons]; omega)

def tailByte (n : Nat) : UInt8 :=
  UInt8.ofNat (0x80 + n % 64)

def encodeChar (c : Char) : List UInt8 :=
  let n := c.toNat
  if n < 0x80 then [UInt8.ofNat n]
  else if n < 0x800 then [UInt8.ofNat (0xC0 + n / 64), tailByte n]
  else if n < 0x10000 then
    [UInt8.ofNat (0xE0 + n / 4096), tailByte (n / 64), tailByte n]
  else
    [UInt8.ofNat (0xF0 + n / 262144), tailByte (n / 4096), tailByte (n / 64), tailByte n]

def encode (text : List Char) : List UInt8 :=
  text.flatMap encodeChar

end ScriptCoverage.Utf8
