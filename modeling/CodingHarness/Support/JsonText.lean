import CodingHarness.Support.Json
import CodingHarness.Library.Decimal

/-!
# JSON text

The compact writer and the recursive-descent reader of `support/Json.cpp`. The reader works on the
bytes that remain, and a failure is `none`; `readJson` turns it into the source's error. Every call of
the reader consumes a byte, so the length of the text is enough fuel.
-/

namespace CodingHarness.Support

open Library Library.Double

/-! ## Writing -/

def digitBytes (digits : List Nat) : Bytes := digits.map fun digit => UInt8.ofNat (0x30 + digit)

/-- Digits without trailing zeros; the first digit stays. -/
def dropTrailingZeros : List Nat → List Nat
  | [] => []
  | first :: rest => first :: (rest.reverse.dropWhile (· == 0)).reverse

/-- Digits with the decimal exponent of the first one: fixed notation for exponents from -4 to 15,
scientific notation with an upper-case `E` otherwise. -/
def layoutNumber (digits : List Nat) (decimalExponent : Int) : Bytes :=
  if -4 ≤ decimalExponent ∧ decimalExponent ≤ 15 then
    if 0 ≤ decimalExponent then
      let integerLength := decimalExponent.toNat + 1
      if digits.length ≤ integerLength then
        digitBytes (digits ++ List.replicate (integerLength - digits.length) 0)
      else
        digitBytes (digits.take integerLength) ++ 0x2E :: digitBytes (digits.drop integerLength)
    else
      [0x30, 0x2E] ++ digitBytes (List.replicate (-decimalExponent - 1).toNat 0 ++ digits)
  else
    digitBytes (digits.take 1) ++ (if 1 < digits.length then 0x2E :: digitBytes (digits.drop 1) else []) ++
      0x45 :: ((if decimalExponent < 0 then [0x2D] else []) ++ digitBytes (digitsOf decimalExponent.natAbs))

def formatNumber : Double → Bytes
  | .nan => "null"
  | .infinity _ => "null"
  | .zero negative => if negative then "-0" else "0"
  | .finite negative mantissa exponent representable =>
    let shortest := shortestDecimal mantissa exponent representable
    let digits := digitsOf shortest.1
    let decimalExponent := shortest.2 + digits.length - 1
    (if negative then [0x2D] else []) ++ layoutNumber (dropTrailingZeros digits) decimalExponent

def hexDigit (n : Nat) : UInt8 := UInt8.ofNat (if n < 10 then 0x30 + n else 0x37 + n)

def escapeByte (c : UInt8) : Bytes := if c = 0x22 then [0x5C, 0x22]
  else if c = 0x5C then [0x5C, 0x5C]
  else if c = 0x08 then [0x5C, 0x62]
  else if c = 0x0C then [0x5C, 0x66]
  else if c = 0x0A then [0x5C, 0x6E]
  else if c = 0x0D then [0x5C, 0x72]
  else if c = 0x09 then [0x5C, 0x74]
  else if c < 0x20 then
    [0x5C, 0x75, 0x30, 0x30, hexDigit (c.toNat / 16), hexDigit (c.toNat % 16)]
  else [c]

def writeString (text : Bytes) : Bytes := 0x22 :: (text.flatMap escapeByte ++ [0x22])

mutual
/-- `write_value` in insertion order. -/
def writeValue : Json → Bytes
  | .null => "null"
  | .bool flag => if flag then "true" else "false"
  | .number value => formatNumber value
  | .string text => writeString text
  | .array items => 0x5B :: (writeItems true items ++ [0x5D])
  | .object members => 0x7B :: (writeMembers true members ++ [0x7D])
/-- The items of an array, with a comma before all but the first. -/
def writeItems (first : Bool) : List Json → Bytes
  | [] => []
  | item :: rest =>
    (if first then [] else [0x2C]) ++ (writeValue item ++ writeItems false rest)
def writeMembers (first : Bool) : List (Bytes × Json) → Bytes
  | [] => []
  | (key, value) :: rest =>
    (if first then [] else [0x2C]) ++ (writeString key ++ 0x3A :: (writeValue value ++ writeMembers false rest))
end

def writeJson (value : Json) : Bytes := writeValue value

/-! ## Reading -/

def isSpace (c : UInt8) : Bool := c == 0x20 || c == 0x09 || c == 0x0A || c == 0x0D

def skipWs : Bytes → Bytes
  | [] => []
  | c :: rest => if isSpace c then skipWs rest else c :: rest

def consume (expected : UInt8) : Bytes → Option Bytes
  | [] => none
  | c :: rest => if c = expected then some rest else none

def isDigit (c : UInt8) : Bool := 0x30 ≤ c && c ≤ 0x39

def hexValue (c : UInt8) : Option Nat := if isDigit c then some (c.toNat - 0x30)
  else if 0x61 ≤ c && c ≤ 0x66 then some (c.toNat - 0x57)
  else if 0x41 ≤ c && c ≤ 0x46 then some (c.toNat - 0x37)
  else none

def parseHex4 : Bytes → Option (Nat × Bytes)
  | a :: b :: c :: d :: rest => do
      let a ← hexValue a
      let b ← hexValue b
      let c ← hexValue c
      let d ← hexValue d
      return (((a * 16 + b) * 16 + c) * 16 + d, rest)
  | _ => none

/-- `append_utf8`. -/
def utf8Bytes (codePoint : Nat) : Bytes := if codePoint < 0x80 then [UInt8.ofNat codePoint]
  else if codePoint < 0x800 then
    [UInt8.ofNat (0xC0 ||| (codePoint >>> 6)), UInt8.ofNat (0x80 ||| (codePoint &&& 0x3F))]
  else if codePoint < 0x10000 then
    [UInt8.ofNat (0xE0 ||| (codePoint >>> 12)), UInt8.ofNat (0x80 ||| ((codePoint >>> 6) &&& 0x3F)),
      UInt8.ofNat (0x80 ||| (codePoint &&& 0x3F))]
  else
    [UInt8.ofNat (0xF0 ||| (codePoint >>> 18)), UInt8.ofNat (0x80 ||| ((codePoint >>> 12) &&& 0x3F)),
      UInt8.ofNat (0x80 ||| ((codePoint >>> 6) &&& 0x3F)),
      UInt8.ofNat (0x80 ||| (codePoint &&& 0x3F))]

def simpleEscape (c : UInt8) : Option UInt8 := if c = 0x22 then some 0x22
  else if c = 0x5C then some 0x5C
  else if c = 0x2F then some 0x2F
  else if c = 0x62 then some 0x08
  else if c = 0x66 then some 0x0C
  else if c = 0x6E then some 0x0A
  else if c = 0x72 then some 0x0D
  else if c = 0x74 then some 0x09
  else none

/-- The bytes of a `\u` escape, after its `u`; a high surrogate needs a low one. -/
def parseUnicode (text : Bytes) : Option (Bytes × Bytes) := do
  let (first, rest) ← parseHex4 text
  if 0xD800 ≤ first ∧ first ≤ 0xDBFF then
    let rest ← consume 0x5C rest
    let rest ← consume 0x75 rest
    let (second, rest) ← parseHex4 rest
    if second < 0xDC00 ∨ 0xDFFF < second then none
    else return (utf8Bytes (0x10000 + ((first - 0xD800) <<< 10) + (second - 0xDC00)), rest)
  else if 0xDC00 ≤ first ∧ first ≤ 0xDFFF then none
  else return (utf8Bytes first, rest)

/-- `parse_string` after its opening quote. -/
def parseString : Nat → Bytes → Option (Bytes × Bytes)
  | 0, _ => none
  | _ + 1, [] => none
  | fuel + 1, c :: rest =>
    if c = 0x22 then some ([], rest)
    else if c = 0x5C then
      match rest with
      | [] => none
      | escaped :: rest =>
        match simpleEscape escaped with
        | some byte => do
            let (later, rest) ← parseString fuel rest
            return (byte :: later, rest)
        | none =>
          if escaped = 0x75 then do
            let (bytes, rest) ← parseUnicode rest
            let (later, rest) ← parseString fuel rest
            return (bytes ++ later, rest)
          else none
    else if c < 0x20 then none
    else do
      let (later, rest) ← parseString fuel rest
      return (c :: later, rest)

def takeDigits : Bytes → List Nat × Bytes
  | [] => ([], [])
  | c :: rest =>
    if isDigit c then
      let later := takeDigits rest
      ((c.toNat - 0x30) :: later.1, later.2)
    else ([], c :: rest)

/-- The integer part: a single zero, or digits that do not start with one. -/
def parseInteger : Bytes → Option (List Nat × Bytes)
  | [] => none
  | c :: rest =>
    if c = 0x30 then if rest.head?.any isDigit then none else some ([0], rest)
    else if isDigit c then some (takeDigits (c :: rest))
    else none

/-- The optional fraction; a dot requires digits. -/
def parseFraction (text : Bytes) : Option (List Nat × Bytes) := match consume 0x2E text with
  | none => some ([], text)
  | some rest => if (takeDigits rest).1.isEmpty then none else some (takeDigits rest)

/-- The optional exponent; a marker without digits is not part of the number. -/
def parseExponent : Bytes → Int × Bytes
  | [] => (0, [])
  | c :: rest =>
    if c = 0x65 ∨ c = 0x45 then
      let negative := rest.head? = some 0x2D
      let afterSign := if negative ∨ rest.head? = some 0x2B then rest.drop 1 else rest
      let digits := takeDigits afterSign
      if digits.1.isEmpty then (0, c :: rest)
      else (if negative then -(ofDigits digits.1 : Int) else ofDigits digits.1, digits.2)
    else (0, c :: rest)

/-- `std::from_chars`: a value beyond the range, or a nonzero numeral below it, is an error. -/
def fromChars (negative : Bool) (digits : Nat) (exponent : Int) : Option Double :=
  match ofDecimal negative digits exponent with
  | .zero negative => if digits = 0 then some (.zero negative) else none
  | .finite negative mantissa exponent representable =>
    some (.finite negative mantissa exponent representable)
  | _ => none

def parseNumber (text : Bytes) : Option (Double × Bytes) := do
  let negative := text.head? = some 0x2D
  let text := if negative then text.drop 1 else text
  let (integer, text) ← parseInteger text
  let (fraction, text) ← parseFraction text
  let (exponent, text) := parseExponent text
  let value ← fromChars negative (ofDigits (integer ++ fraction)) (exponent - fraction.length)
  return (value, text)

def parseLiteral (literal : Bytes) (value : Json) (text : Bytes) : Option (Json × Bytes) :=
  if literal.isPrefixOf text then some (value, text.drop literal.length) else none

mutual
def parseValue : Nat → Bytes → Option (Json × Bytes)
  | 0, _ => none
  | fuel + 1, text =>
    match skipWs text with
    | [] => none
    | c :: rest =>
      if c = 0x22 then (parseString rest.length rest).map fun r => (.string r.1, r.2)
      else if c = 0x7B then
        match consume 0x7D (skipWs rest) with
        | some rest => some (.object [], rest)
        | none => (parseMembers fuel [] rest).map fun r => (.object r.1, r.2)
      else if c = 0x5B then
        match consume 0x5D (skipWs rest) with
        | some rest => some (.array [], rest)
        | none => (parseItems fuel rest).map fun r => (.array r.1, r.2)
      else if c = 0x74 then parseLiteral "true" (.bool true) (c :: rest)
      else if c = 0x66 then parseLiteral "false" (.bool false) (c :: rest)
      else if c = 0x6E then parseLiteral "null" .null (c :: rest)
      else if c = 0x2D || isDigit c then
        (parseNumber (c :: rest)).map fun r => (.number r.1, r.2)
      else none
/-- The loop of `parse_array`. -/
def parseItems : Nat → Bytes → Option (List Json × Bytes)
  | 0, _ => none
  | fuel + 1, text =>
    match parseValue fuel text with
    | none => none
    | some (item, text) =>
      match consume 0x5D (skipWs text) with
      | some rest => some ([item], rest)
      | none =>
        match consume 0x2C (skipWs text) with
        | some rest => (parseItems fuel rest).map fun r => (item :: r.1, r.2)
        | none => none
/-- The loop of `parse_object`; a repeated key keeps its place and takes the last value. -/
def parseMembers : Nat → List (Bytes × Json) → Bytes → Option (List (Bytes × Json) × Bytes)
  | 0, _, _ => none
  | fuel + 1, members, text =>
    match consume 0x22 (skipWs text) with
    | none => none
    | some rest =>
      match parseString rest.length rest with
      | none => none
      | some (key, text) =>
        match consume 0x3A (skipWs text) with
        | none => none
        | some rest =>
          match parseValue fuel rest with
          | none => none
          | some (value, text) =>
            let members := JsonObject.insertOrAssign key value members
            match consume 0x7D (skipWs text) with
            | some rest => some (members, rest)
            | none =>
              match consume 0x2C (skipWs text) with
              | some rest => parseMembers fuel members rest
              | none => none
end

/-- `read_json`: the first complete value; trailing content is ignored. -/
def readJson (text : Bytes) : Expected Json := match parseValue text.length text with
  | some (value, _) => .ok value
  | none => .error ⟨.jsonParse, "failed to parse JSON"⟩

attribute [grind =] skipWs consume parseHex4 parseString takeDigits parseInteger parseExponent parseValue

end CodingHarness.Support
