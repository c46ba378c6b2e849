import CodingHarness.Support.JsonText

/-!
# The grammar of JSON text

`Denotes` is the value grammar of RFC 8259 with the values its texts stand for, without `\u` escapes of
lone surrogates. The unescaped characters of a string are a parameter: the reader of `support/Json.cpp`
takes any bytes (`Unescaped`), the RFC only those of a character (`Utf8Char`).

`Denotes.reads` says that the reader reads every text of the grammar, `parse_sound` that it reads no other.
`readJson_grammar` puts both together, and `readJson_writeJson` is the round trip of the writer, whose texts
belong to the grammar.
-/

variable {text : Bytes}

namespace CodingHarness.Support

open Library Library.Double
open List (append_assoc append_nil cons_append length_append length_cons mem_cons_of_mem mem_cons_self nil_append)
open Option (bind_eq_bind bind_some map_some)

/-! ## The grammar -/

def Spaces (text : Bytes) : Prop := ∀ c ∈ text, isSpace c = true

/-- Four hexadecimal digits. -/
inductive HexText : Bytes → Nat → Prop where
  | digits {a b c d : UInt8} {i j k l : Nat} (ha : hexValue a = some i) (hb : hexValue b = some j)
      (hc : hexValue c = some k) (hd : hexValue d = some l) : HexText [a, b, c, d] (((i * 16 + j) * 16 + k) * 16 + l)

/-- What stands between the quotes of a string, and the bytes of the string. -/
inductive StringText (unescaped : Bytes → Prop) : Bytes → Bytes → Prop where
  | nil : StringText unescaped [] []
  | plain {unit text string : Bytes} (hunit : unescaped unit) (rest : StringText unescaped text string) :
      StringText unescaped (unit ++ text) (unit ++ string)
  | escape {c byte : UInt8} {text string : Bytes} (hc : simpleEscape c = some byte)
      (rest : StringText unescaped text string) : StringText unescaped (0x5C :: c :: text) (byte :: string)
  | unicode {hex text string : Bytes} {code : Nat} (hhex : HexText hex code)
      (hcode : code < 0xD800 ∨ 0xDFFF < code) (rest : StringText unescaped text string) :
      StringText unescaped (0x5C :: 0x75 :: (hex ++ text)) (utf8Bytes code ++ string)
  | pair {first second text string : Bytes} {high low : Nat} (hfirst : HexText first high)
      (hhigh : 0xD800 ≤ high ∧ high ≤ 0xDBFF) (hsecond : HexText second low)
      (hlow : 0xDC00 ≤ low ∧ low ≤ 0xDFFF) (rest : StringText unescaped text string) :
      StringText unescaped (0x5C :: 0x75 :: (first ++ 0x5C :: 0x75 :: (second ++ text)))
        (utf8Bytes (0x10000 + ((high - 0xD800) <<< 10) + (low - 0xDC00)) ++ string)

def Digits (digits : List Nat) : Prop := ∀ digit ∈ digits, digit < 10

/-- An integer part: a zero, or digits that do not start with one. -/
inductive IntegerText : Bytes → List Nat → Prop where
  | zero : IntegerText [0x30] [0]
  | digits {head : Nat} {tail : List Nat} (hhead : head ≠ 0) (hdigits : Digits (head :: tail)) :
      IntegerText (digitBytes (head :: tail)) (head :: tail)

/-- An optional fraction. -/
inductive FractionText : Bytes → List Nat → Prop where
  | none : FractionText [] []
  | digits {digits : List Nat} (hne : digits ≠ []) (hdigits : Digits digits) :
      FractionText (0x2E :: digitBytes digits) digits

/-- An optional exponent. -/
inductive ExponentText : Bytes → Int → Prop where
  | none : ExponentText [] 0
  | positive {marker : UInt8} {sign : Bytes} {digits : List Nat} (hmarker : marker = 0x65 ∨ marker = 0x45)
      (hsign : sign = [] ∨ sign = [0x2B]) (hne : digits ≠ []) (hdigits : Digits digits) :
      ExponentText (marker :: (sign ++ digitBytes digits)) (ofDigits digits)
  | negative {marker : UInt8} {digits : List Nat} (hmarker : marker = 0x65 ∨ marker = 0x45)
      (hne : digits ≠ []) (hdigits : Digits digits) :
      ExponentText (marker :: 0x2D :: digitBytes digits) (-(ofDigits digits : Int))

/-- A number in range, and its value. -/
inductive NumberText : Bytes → Double → Prop where
  | parts {integer fraction exponent : Bytes} {whole digits : List Nat} {scale : Int} {value : Double}
      (negative : Bool) (hinteger : IntegerText integer whole) (hfraction : FractionText fraction digits)
      (hexponent : ExponentText exponent scale)
      (hvalue : fromChars negative (ofDigits (whole ++ digits)) (scale - digits.length) = some value) :
      NumberText ((if negative then [0x2D] else []) ++ (integer ++ (fraction ++ exponent))) value

/-- What a text of the grammar can stand for. An element is a value with whitespace around it. -/
inductive Shape where
  | value (value : Json)
  | element (value : Json)
  | items (items : List Json)
  | member (key : Bytes) (value : Json)
  | members (members : List (Bytes × Json))

/-- An object of members in order: a repeated key keeps its place and its last value. -/
def assigned (before members : List (Bytes × Json)) : List (Bytes × Json) :=
  members.foldl (fun object member => JsonObject.insertOrAssign member.1 member.2 object) before

/-- The texts of the grammar with their values. -/
inductive Denotes (unescaped : Bytes → Prop) : Bytes → Shape → Prop where
  | null : Denotes unescaped "null" (.value .null)
  | bool (flag : Bool) : Denotes unescaped (ofString (if flag then "true" else "false")) (.value (.bool flag))
  | number {text : Bytes} {value : Double} (h : NumberText text value) :
      Denotes unescaped text (.value (.number value))
  | string {text string : Bytes} (h : StringText unescaped text string) :
      Denotes unescaped (0x22 :: (text ++ [0x22])) (.value (.string string))
  | emptyArray {spaces : Bytes} (h : Spaces spaces) :
      Denotes unescaped (0x5B :: (spaces ++ [0x5D])) (.value (.array []))
  | array {text : Bytes} {items : List Json} (h : Denotes unescaped text (.items items)) :
      Denotes unescaped (0x5B :: (text ++ [0x5D])) (.value (.array items))
  | emptyObject {spaces : Bytes} (h : Spaces spaces) :
      Denotes unescaped (0x7B :: (spaces ++ [0x7D])) (.value (.object []))
  | object {text : Bytes} {members : List (Bytes × Json)} (h : Denotes unescaped text (.members members)) :
      Denotes unescaped (0x7B :: (text ++ [0x7D])) (.value (.object (assigned [] members)))
  | element {before text after : Bytes} {value : Json} (hbefore : Spaces before)
      (h : Denotes unescaped text (.value value)) (hafter : Spaces after) :
      Denotes unescaped (before ++ (text ++ after)) (.element value)
  | item {text : Bytes} {value : Json} (h : Denotes unescaped text (.element value)) :
      Denotes unescaped text (.items [value])
  | items {text later : Bytes} {value : Json} {items : List Json} (h : Denotes unescaped text (.element value))
      (rest : Denotes unescaped later (.items items)) :
      Denotes unescaped (text ++ 0x2C :: later) (.items (value :: items))
  | member {before key after text string : Bytes} {value : Json} (hbefore : Spaces before)
      (hkey : StringText unescaped key string) (hafter : Spaces after)
      (h : Denotes unescaped text (.element value)) :
      Denotes unescaped (before ++ 0x22 :: (key ++ 0x22 :: (after ++ 0x3A :: text))) (.member string value)
  | lastMember {text key : Bytes} {value : Json} (h : Denotes unescaped text (.member key value)) :
      Denotes unescaped text (.members [(key, value)])
  | members {text later key : Bytes} {value : Json} {members : List (Bytes × Json)}
      (h : Denotes unescaped text (.member key value)) (rest : Denotes unescaped later (.members members)) :
      Denotes unescaped (text ++ 0x2C :: later) (.members ((key, value) :: members))

/-- Bytes that the reader takes as they are. -/
def Unescaped (unit : Bytes) : Prop := ∀ c ∈ unit, 0x20 ≤ c ∧ c ≠ 0x22 ∧ c ≠ 0x5C

/-- The bytes of one unescaped character of RFC 8259. -/
def Utf8Char (unit : Bytes) : Prop := ∃ code : Nat, unit = utf8Bytes code ∧ 0x20 ≤ code ∧ code ≠ 0x22 ∧
  code ≠ 0x5C ∧ code < 0x110000 ∧ ¬(0xD800 ≤ code ∧ code ≤ 0xDFFF)

/-! ## Reading the parts of a text -/

theorem skipWs_spaces {spaces : Bytes} (h : Spaces spaces) (rest : Bytes) :
    skipWs (spaces ++ rest) = skipWs rest := by
  induction spaces with
  | nil => rfl
  | cons c spaces ih =>
    rw [cons_append, skipWs, if_pos (h c mem_cons_self)]
    exact ih fun d hd => h d (mem_cons_of_mem _ hd)

variable {c : UInt8}

theorem skipWs_cons (h : isSpace c = false) (rest : Bytes) : skipWs (c :: rest) = c :: rest := by
  simp [skipWs, h]

theorem parseHex4_text {code : Nat} (h : HexText text code) (rest : Bytes) :
    parseHex4 (text ++ rest) = some (code, rest) := by
  cases h with
  | digits ha hb hc hd => simp [parseHex4, ha, hb, hc, hd]

theorem simpleEscape_ne_u : simpleEscape 0x75 = none := by decide

variable {unescaped : Bytes → Prop}

/-- **A string** is read up to its quote. -/
theorem parseString_text (hplain : ∀ unit, unescaped unit → Unescaped unit) {text string : Bytes}
    (h : StringText unescaped text string) (rest : Bytes) (fuel : Nat) (hfuel : text.length < fuel) :
    parseString fuel (text ++ 0x22 :: rest) = some (string, rest) := by
  induction h generalizing fuel with
  | nil =>
    obtain ⟨fuel, rfl⟩ := Nat.exists_eq_succ_of_ne_zero (Nat.ne_of_gt hfuel)
    rfl
  | @plain unit text string hunit _ ih =>
    -- One byte of the unit at a time.
    have hbytes := hplain unit hunit
    clear hunit
    rw [length_append] at hfuel
    rw [append_assoc]
    induction unit generalizing fuel with
    | nil => exact ih fuel (by simpa using hfuel)
    | cons c unit ihUnit =>
      obtain ⟨fuel, rfl⟩ := Nat.exists_eq_succ_of_ne_zero (show fuel ≠ 0 by omega)
      obtain ⟨hcontrol, hquote, hslash⟩ := hbytes c mem_cons_self
      rw [length_cons] at hfuel
      have hlater := ihUnit fuel (by omega) fun d hd => hbytes d (mem_cons_of_mem _ hd)
      simp only [cons_append, parseString, hquote, hslash, UInt8.not_lt.2 hcontrol, if_false, hlater]
      rfl
  | escape hc _ ih =>
    obtain ⟨fuel, rfl⟩ := Nat.exists_eq_succ_of_ne_zero (show fuel ≠ 0 by omega)
    simp only [length_cons] at hfuel
    simp only [cons_append, parseString, hc, ih fuel (by omega)]
    rfl
  | unicode hhex hcode _ ih =>
    obtain ⟨fuel, rfl⟩ := Nat.exists_eq_succ_of_ne_zero (show fuel ≠ 0 by omega)
    simp only [length_cons, length_append] at hfuel
    simp only [cons_append, append_assoc, parseString, simpleEscape_ne_u, parseUnicode, parseHex4_text hhex,
      bind_eq_bind, bind_some, pure, if_true]
    rw [if_neg (by decide), if_neg (by omega), if_neg (by omega)]
    simp only [bind_some, ih fuel (by omega)]
  | pair hfirst hhigh hsnd hlow _ ih =>
    obtain ⟨fuel, rfl⟩ := Nat.exists_eq_succ_of_ne_zero (show fuel ≠ 0 by omega)
    simp only [length_cons, length_append] at hfuel
    simp only [cons_append, append_assoc, parseString, simpleEscape_ne_u, parseUnicode, parseHex4_text hfirst,
      consume, parseHex4_text hsnd, bind_eq_bind, bind_some, pure, if_true]
    rw [if_neg (by decide), if_pos hhigh, if_neg (by omega)]
    simp only [bind_some, ih fuel (by omega)]

/-- What may follow a number without extending it. -/
def Stops (rest : Bytes) : Prop := ∀ c ∈ rest.head?, isDigit c = false ∧ c ≠ 0x2E ∧ c ≠ 0x65 ∧ c ≠ 0x45

theorem digit_byte : ∀ digit : Fin 10, isDigit (UInt8.ofNat (0x30 + digit.val)) = true ∧
    (UInt8.ofNat (0x30 + digit.val)).toNat - 0x30 = digit.val ∧
    (UInt8.ofNat (0x30 + digit.val) = 0x30 ↔ digit.val = 0) := by
  decide

variable {digits : List Nat}

theorem takeDigits_digitBytes (hdig : Digits digits) {rest : Bytes}
    (hrest : ∀ c ∈ rest.head?, isDigit c = false) : takeDigits (digitBytes digits ++ rest) = (digits, rest) := by
  induction digits with
  | nil =>
    cases rest with
    | nil => rfl
    | cons c rest =>
      have hc := hrest c rfl
      show (if isDigit c = true then _ else _) = _
      rw [hc]
      rfl
  | cons digit digits ih =>
    obtain ⟨hdigit, hval, -⟩ := digit_byte ⟨digit, hdig digit mem_cons_self⟩
    have hlater := ih fun d hd => hdig d (mem_cons_of_mem _ hd)
    rw [digitBytes, List.map_cons, cons_append, takeDigits, if_pos hdigit]
    rw [digitBytes] at hlater
    rw [hlater, hval]

theorem head_digitBytes (hne : digits ≠ []) (hdig : Digits digits) :
    ∃ c tail, digitBytes digits = c :: tail ∧ isDigit c = true := by
  obtain ⟨head, tail, rfl⟩ := List.exists_cons_of_ne_nil hne
  exact ⟨_, _, rfl, (digit_byte ⟨head, hdig head mem_cons_self⟩).1⟩

theorem parseInteger_text {whole : List Nat} (h : IntegerText text whole) {rest : Bytes}
    (hrest : ∀ c ∈ rest.head?, isDigit c = false) : parseInteger (text ++ rest) = some (whole, rest) := by
  cases h with
  | zero =>
    have hnone : rest.head?.any isDigit = false := by
      cases hhead : rest.head? with
      | none => rfl
      | some c => exact hrest c hhead
    rw [cons_append, nil_append, parseInteger, if_pos rfl, hnone]
    rfl
  | @digits head tail hhead hdig =>
    obtain ⟨hdigit, -, hzero⟩ := digit_byte ⟨head, hdig head mem_cons_self⟩
    have htake := takeDigits_digitBytes hdig hrest
    rw [digitBytes, List.map_cons, cons_append] at htake ⊢
    rw [parseInteger, if_neg fun heq => hhead (hzero.1 heq), if_pos hdigit, htake]

theorem parseFraction_text (h : FractionText text digits) {rest : Bytes}
    (hrest : ∀ c ∈ rest.head?, isDigit c = false ∧ c ≠ 0x2E) :
    parseFraction (text ++ rest) = some (digits, rest) := by
  cases h with
  | none =>
    cases rest with
    | nil => rfl
    | cons c rest => rw [nil_append, parseFraction, consume, if_neg (hrest c rfl).2]
  | digits hne hdig =>
    have htake := takeDigits_digitBytes hdig fun c hc => (hrest c hc).1
    rw [cons_append, parseFraction, consume, if_pos rfl]
    simp only [htake]
    rw [if_neg (by simpa using hne)]

theorem parseExponent_text {scale : Int} (h : ExponentText text scale) {rest : Bytes}
    (hrest : Stops rest) : parseExponent (text ++ rest) = (scale, rest) := by
  cases h with
  | none =>
    cases rest with
    | nil => rfl
    | cons c rest =>
      obtain ⟨-, -, h1, h2⟩ := hrest c rfl
      rw [nil_append, parseExponent, if_neg (by simp [h1, h2])]
  | @positive marker sign digits hmark hsign hne hdig =>
    have htake := takeDigits_digitBytes hdig fun c hc => (hrest c hc).1
    obtain ⟨c, tail, hc, hdigit⟩ := head_digitBytes hne hdig
    have hminus : c ≠ 0x2D := by
      rintro rfl
      exact absurd hdigit (by decide)
    have hplus : c ≠ 0x2B := by
      rintro rfl
      exact absurd hdigit (by decide)
    have hempty : digits.isEmpty = false := by simpa using hne
    rw [hc, cons_append] at htake
    rw [cons_append, parseExponent, if_pos hmark]
    rcases hsign with rfl | rfl <;> simp [hc, hminus, hplus, htake, hempty]
  | @negative marker digits hmark hne hdig =>
    have htake := takeDigits_digitBytes hdig fun c hc => (hrest c hc).1
    have hempty : digits.isEmpty = false := by simpa using hne
    rw [cons_append, parseExponent, if_pos hmark]
    simp [htake, hempty]

variable {rest : Bytes}

theorem exponent_head {scale : Int} (h : ExponentText text scale) (hrest : Stops rest) :
    ∀ c ∈ (text ++ rest).head?, isDigit c = false ∧ c ≠ 0x2E := by
  intro c hc
  cases h with
  | none => exact ⟨(hrest c hc).1, (hrest c hc).2.1⟩
  | positive hmark | negative hmark =>
    cases hc
    rcases hmark with rfl | rfl <;> decide

variable {value : Double}

theorem parseNumber_text (h : NumberText text value) {rest : Bytes}
    (hrest : Stops rest) : parseNumber (text ++ rest) = some (value, rest) := by
  cases h with
  | @parts integer fraction exponent whole digits scale _ negative hint hfraction hexpo hvalue =>
    have hscale := parseExponent_text hexpo hrest
    have hdig := parseFraction_text hfraction (exponent_head hexpo hrest)
    have hwhole := @parseInteger_text _ _ hint (fraction ++ (exponent ++ rest)) <| by
      intro c hc
      cases hfraction with
      | none => exact (exponent_head hexpo hrest c hc).1
      | digits =>
        cases hc
        decide
    have hunsigned : (integer ++ (fraction ++ (exponent ++ rest))).head? ≠ some 0x2D := by
      cases hint with
      | zero => exact fun heq => absurd (Option.some.inj heq) (by decide)
      | digits _ hdig =>
        obtain ⟨c, tail, hc, hdigit⟩ := head_digitBytes (List.cons_ne_nil _ _) hdig
        rw [hc]
        rintro ⟨⟩
        exact absurd hdigit (by decide)
    simp only [append_assoc]
    cases negative with
    | true =>
      simp only [if_true, cons_append, nil_append, parseNumber, List.head?_cons, List.drop_succ_cons, List.drop_zero,
        hwhole, hdig, hscale, hvalue, bind_eq_bind, bind_some, decide_true, pure]
    | false =>
      simp only [Bool.false_eq_true, if_false, nil_append, parseNumber, hunsigned, decide_false, hwhole, hdig,
        hscale, hvalue, bind_eq_bind, bind_some, pure]

theorem numberText_head (h : NumberText text value) :
    ∃ c tail, text = c :: tail ∧ (c = 0x2D ∨ isDigit c = true) := by
  cases h with
  | parts negative hint =>
    cases negative with
    | true => exact ⟨0x2D, _, rfl, .inl rfl⟩
    | false =>
      cases hint with
      | zero => exact ⟨0x30, _, rfl, .inr (by decide)⟩
      | digits _ hdig =>
        obtain ⟨c, tail, hc, hdigit⟩ := head_digitBytes (List.cons_ne_nil _ _) hdig
        exact ⟨c, _, by rw [hc]; rfl, .inr hdigit⟩

theorem number_kind (h : c = 0x2D ∨ isDigit c = true) :
    isSpace c = false ∧ c ≠ 0x22 ∧ c ≠ 0x7B ∧ c ≠ 0x5B ∧ c ≠ 0x74 ∧ c ≠ 0x66 ∧ c ≠ 0x6E ∧
      (c == 0x2D || isDigit c) = true ∧ c ≠ 0x5D ∧ c ≠ 0x7D := by
  have hall : ∀ n : Fin 256, UInt8.ofNat n.val = 0x2D ∨ isDigit (UInt8.ofNat n.val) = true →
      isSpace (UInt8.ofNat n.val) = false ∧ UInt8.ofNat n.val ≠ 0x22 ∧ UInt8.ofNat n.val ≠ 0x7B ∧
      UInt8.ofNat n.val ≠ 0x5B ∧ UInt8.ofNat n.val ≠ 0x74 ∧ UInt8.ofNat n.val ≠ 0x66 ∧ UInt8.ofNat n.val ≠ 0x6E ∧
      (UInt8.ofNat n.val == 0x2D || isDigit (UInt8.ofNat n.val)) = true ∧ UInt8.ofNat n.val ≠ 0x5D ∧
      UInt8.ofNat n.val ≠ 0x7D := by decide +kernel
  have := hall ⟨c.toNat, c.toNat_lt⟩
  rw [UInt8.ofNat_toNat] at this
  exact this h

/-! ## Reading a value -/

variable {shape : Shape}

/-- After its whitespace, no text of the grammar starts with a closing bracket. -/
theorem Denotes.head (h : Denotes unescaped text shape) (rest : Bytes) :
    ∃ c tail, skipWs (text ++ rest) = c :: tail ∧ c ≠ 0x5D ∧ c ≠ 0x7D := by
  induction h generalizing rest with
  | null => exact ⟨_, _, rfl, by decide, by decide⟩
  | bool flag => cases flag <;> exact ⟨_, _, rfl, by decide, by decide⟩
  | number h =>
    obtain ⟨c, tail, rfl, hc⟩ := numberText_head h
    obtain ⟨hspace, -, -, -, -, -, -, -, hbracket, hbrace⟩ := number_kind hc
    exact ⟨c, tail ++ rest, skipWs_cons hspace _, hbracket, hbrace⟩
  | string | emptyArray | array | emptyObject | object =>
    exact ⟨_, _, skipWs_cons (by decide) _, by decide, by decide⟩
  | element hprev _ _ ih =>
    rw [append_assoc, append_assoc, skipWs_spaces hprev]
    exact ih _
  | item _ ih | lastMember _ ih => exact ih rest
  | items _ _ ih | members _ _ ih =>
    rw [append_assoc]
    exact ih _
  | member hprev =>
    rw [append_assoc, skipWs_spaces hprev]
    exact ⟨_, _, skipWs_cons (by decide) _, by decide, by decide⟩

theorem consume_head (h : Denotes unescaped text shape) (rest : Bytes) :
    consume 0x5D (skipWs (text ++ rest)) = none ∧ consume 0x7D (skipWs (text ++ rest)) = none := by
  obtain ⟨c, tail, hskip, hbracket, hbrace⟩ := h.head rest
  rw [hskip, consume, consume, if_neg hbracket, if_neg hbrace]
  exact ⟨rfl, rfl⟩

theorem Denotes.length_pos (h : Denotes unescaped text shape) : 0 < text.length := by
  obtain ⟨c, tail, hskip, -⟩ := h.head []
  cases text with
  | nil => cases hskip
  | cons => exact Nat.succ_pos _

theorem stops_spaces {spaces : Bytes} (h : Spaces spaces) {rest : Bytes} (hrest : Stops rest) :
    Stops (spaces ++ rest) := by
  cases spaces with
  | nil => exact hrest
  | cons c spaces =>
    have hall : ∀ n : Fin 256, isSpace (UInt8.ofNat n.val) = true →
        isDigit (UInt8.ofNat n.val) = false ∧ UInt8.ofNat n.val ≠ 0x2E ∧ UInt8.ofNat n.val ≠ 0x65 ∧
          UInt8.ofNat n.val ≠ 0x45 := by decide +kernel
    have hc := hall ⟨c.toNat, c.toNat_lt⟩
    rw [UInt8.ofNat_toNat] at hc
    rintro _ ⟨⟩
    exact hc (h c mem_cons_self)

def Closing (c : UInt8) : Prop := c = 0x2C ∨ c = 0x5D ∨ c = 0x7D

theorem skipWs_closing {spaces : Bytes} (h : Spaces spaces) (hc : isSpace c = false) (rest : Bytes) :
    skipWs (spaces ++ c :: rest) = c :: rest :=
  (skipWs_spaces h _).trans (skipWs_cons hc rest)

theorem stops_closing (hc : Closing c) (rest : Bytes) : Stops (c :: rest) := by
  rintro _ ⟨⟩
  rcases hc with rfl | rfl | rfl <;> decide

/-- What the reader makes of a text of each shape. A number needs that nothing after it extends it. -/
def Reads (text : Bytes) : Shape → Prop
  | .value value => ∀ fuel before rest, Spaces before → text.length ≤ fuel + 1 →
      (∀ number, value = .number number → parseNumber (text ++ rest) = some (number, rest)) →
      parseValue (fuel + 1) (before ++ (text ++ rest)) = some (value, rest)
  | .element value => ∀ fuel c rest, text.length ≤ fuel → Closing c →
      ∃ after, Spaces after ∧ parseValue fuel (text ++ c :: rest) = some (value, after ++ c :: rest)
  | .items items => ∀ fuel rest, text.length < fuel → parseItems fuel (text ++ 0x5D :: rest) = some (items, rest)
  | .member key value => ∀ fuel c rest, text.length ≤ fuel → Closing c → ∃ afterQuote afterKey afterColon after,
      consume 0x22 (skipWs (text ++ c :: rest)) = some afterQuote ∧
        parseString afterQuote.length afterQuote = some (key, afterKey) ∧
        consume 0x3A (skipWs afterKey) = some afterColon ∧
        parseValue fuel afterColon = some (value, after ++ c :: rest) ∧ Spaces after
  | .members members => ∀ fuel before rest, text.length < fuel →
      parseMembers fuel before (text ++ 0x7D :: rest) = some (assigned before members, rest)

theorem parseLiteral_append (literal rest : Bytes) (value : Json) :
    parseLiteral literal value (literal ++ rest) = some (value, rest) := by
  have hstart : literal.isPrefixOf (literal ++ rest) = true := by
    rw [List.isPrefixOf_iff_prefix]
    exact List.prefix_append _ _
  rw [parseLiteral, if_pos hstart, List.drop_left]

/-- **Every text of the grammar is read.** -/
theorem Denotes.reads (hplain : ∀ unit, unescaped unit → Unescaped unit)
    (h : Denotes unescaped text shape) : Reads text shape := by
  induction h with
  | null =>
    intro fuel before rest hprev _ _
    rw [parseValue, skipWs_spaces hprev]
    exact parseLiteral_append "null" rest .null
  | bool flag =>
    intro fuel before rest hprev _ _
    rw [parseValue, skipWs_spaces hprev]
    cases flag with
    | true => exact parseLiteral_append "true" rest (.bool true)
    | false => exact parseLiteral_append "false" rest (.bool false)
  | number h =>
    intro fuel before rest hprev hfuel hnum
    obtain ⟨c, tail, rfl, hc⟩ := numberText_head h
    obtain ⟨h0, h1, h2, h3, h4, h5, h6, h7, -⟩ := number_kind hc
    have hparse := hnum _ rfl
    rw [cons_append] at hparse ⊢
    rw [parseValue, skipWs_closing hprev h0]
    simp only [h1, h2, h3, h4, h5, h6, if_false, hparse, map_some]
    exact if_pos (by simpa using h7)
  | string h =>
    intro fuel before rest hprev hfuel _
    simp only [cons_append, append_assoc, nil_append]
    rw [parseValue, skipWs_closing hprev (by decide)]
    simp only [if_true]
    rw [parseString_text hplain h _ _ (by simp)]
    rfl
  | emptyArray hspaces =>
    intro fuel before rest hprev hfuel _
    simp only [cons_append, append_assoc, nil_append, parseValue,
      skipWs_closing hprev (show isSpace 0x5B = false by decide)]
    rw [if_neg (by decide), if_neg (by decide), if_pos trivial]
    simp only [skipWs_closing hspaces (show isSpace 0x5D = false by decide), consume, if_true]
  | emptyObject hspaces =>
    intro fuel before rest hprev hfuel _
    simp only [cons_append, append_assoc, nil_append, parseValue,
      skipWs_closing hprev (show isSpace 0x7B = false by decide)]
    rw [if_neg (by decide), if_pos trivial]
    simp only [skipWs_closing hspaces (show isSpace 0x7D = false by decide), consume, if_true]
  | array h ih =>
    intro fuel before rest hprev hfuel _
    simp only [length_cons, length_append, List.length_nil] at hfuel
    simp only [cons_append, append_assoc, nil_append, parseValue,
      skipWs_closing hprev (show isSpace 0x5B = false by decide)]
    rw [if_neg (by decide), if_neg (by decide), if_pos trivial]
    simp only [(consume_head h _).1, ih fuel rest (by omega), map_some]
  | object h ih =>
    intro fuel before rest hprev hfuel _
    simp only [length_cons, length_append, List.length_nil] at hfuel
    simp only [cons_append, append_assoc, nil_append, parseValue,
      skipWs_closing hprev (show isSpace 0x7B = false by decide)]
    rw [if_neg (by decide), if_pos trivial]
    simp only [(consume_head h _).2, ih fuel [] rest (by omega), map_some]
  | @element before text after value hprev h hafter ih =>
    intro fuel c rest hfuel hc
    simp only [length_append] at hfuel
    have hpos := h.length_pos
    obtain ⟨fuel, rfl⟩ := Nat.exists_eq_succ_of_ne_zero (show fuel ≠ 0 by omega)
    simp only [append_assoc]
    refine ⟨after, hafter, ih fuel before _ hprev (by omega) fun number hnum => ?_⟩
    subst hnum
    cases h with
    | number h => exact parseNumber_text h (stops_spaces hafter (stops_closing hc rest))
  | item _ ih =>
    intro fuel rest hfuel
    obtain ⟨fuel, rfl⟩ := Nat.exists_eq_succ_of_ne_zero (Nat.ne_of_gt (Nat.zero_lt_of_lt hfuel))
    obtain ⟨after, hafter, hparse⟩ := ih fuel 0x5D rest (by omega) (.inr (.inl rfl))
    rw [parseItems, hparse]
    simp only [skipWs_closing hafter (show isSpace 0x5D = false by decide)]
    rfl
  | items _ _ ih ihRest =>
    intro fuel rest hfuel
    obtain ⟨fuel, rfl⟩ := Nat.exists_eq_succ_of_ne_zero (Nat.ne_of_gt (Nat.zero_lt_of_lt hfuel))
    simp only [length_append, length_cons] at hfuel
    simp only [append_assoc, cons_append]
    obtain ⟨after, hafter, hparse⟩ := ih fuel 0x2C _ (by omega) (.inl rfl)
    rw [parseItems, hparse]
    simp only [skipWs_closing hafter (show isSpace 0x2C = false by decide), consume]
    rw [if_neg (by decide), if_pos trivial]
    simp only [ihRest fuel rest (by omega), map_some]
  | @member before key after text string value hprev hkey hafter h ih =>
    intro fuel c rest hfuel hc
    simp only [length_append, length_cons] at hfuel
    simp only [append_assoc, cons_append]
    obtain ⟨later, hlater, hparse⟩ := ih fuel c rest (by omega) hc
    refine ⟨key ++ 0x22 :: (after ++ 0x3A :: (text ++ c :: rest)), after ++ 0x3A :: (text ++ c :: rest),
      text ++ c :: rest, later, ?_, parseString_text hplain hkey _ _ (by simp), ?_, hparse, hlater⟩
    · rw [skipWs_closing hprev (by decide)]
      rfl
    · rw [skipWs_closing hafter (by decide)]
      rfl
  | lastMember _ ih =>
    intro fuel before rest hfuel
    obtain ⟨fuel, rfl⟩ := Nat.exists_eq_succ_of_ne_zero (Nat.ne_of_gt (Nat.zero_lt_of_lt hfuel))
    obtain ⟨afterQuote, afterKey, afterColon, after, hquote, hkey, hcolon, hvalue, hafter⟩ :=
      ih fuel 0x7D rest (by omega) (.inr (.inr rfl))
    simp only [parseMembers, hquote, hkey, hcolon, hvalue,
      skipWs_closing hafter (show isSpace 0x7D = false by decide)]
    rfl
  | @members _ later _ _ _ _ _ ih ihRest =>
    intro fuel before rest hfuel
    obtain ⟨fuel, rfl⟩ := Nat.exists_eq_succ_of_ne_zero (Nat.ne_of_gt (Nat.zero_lt_of_lt hfuel))
    simp only [length_append, length_cons] at hfuel
    simp only [append_assoc, cons_append]
    obtain ⟨afterQuote, afterKey, afterColon, after, hquote, hkey, hcolon, hvalue, hafter⟩ :=
      ih fuel 0x2C (later ++ 0x7D :: rest) (by omega) (.inl rfl)
    simp only [parseMembers, hquote, hkey, hcolon, hvalue,
      skipWs_closing hafter (show isSpace 0x2C = false by decide)]
    simp only [consume]
    rw [if_neg (by decide), if_pos trivial]
    exact ihRest fuel _ rest (by omega)


/-! ## What was read -/

theorem consume_some (h : consume c text = some rest) : text = c :: rest := by
  cases text with
  | nil => cases h
  | cons d text =>
    rw [consume] at h
    split at h
    · next heq => rw [heq, Option.some.inj h]
    · cases h

theorem skipWs_split (text : Bytes) : ∃ spaces, Spaces spaces ∧ text = spaces ++ skipWs text := by
  induction text with
  | nil => exact ⟨[], fun _ hc => (by cases hc), rfl⟩
  | cons c text ih =>
    rw [skipWs]
    split
    · next hc =>
      obtain ⟨spaces, hspaces, heq⟩ := ih
      refine ⟨c :: spaces, fun d hd => ?_, by rw [cons_append, ← heq]⟩
      rcases List.mem_cons.1 hd with rfl | hd
      · exact hc
      · exact hspaces d hd
    · exact ⟨[], fun _ hc => (by cases hc), rfl⟩

theorem consume_skipWs (h : consume c (skipWs text) = some rest) :
    ∃ spaces, Spaces spaces ∧ text = spaces ++ c :: rest := by
  obtain ⟨spaces, hspaces, heq⟩ := skipWs_split text
  rw [consume_some h] at heq
  exact ⟨spaces, hspaces, heq⟩

theorem parseHex4_sound {code : Nat} (h : parseHex4 text = some (code, rest)) :
    ∃ hex, HexText hex code ∧ text = hex ++ rest := by
  match text, h with
  | a :: b :: c :: d :: later, h =>
    simp only [parseHex4, bind_eq_bind, Option.bind_eq_some_iff, pure, Option.some.injEq, Prod.mk.injEq] at h
    obtain ⟨i, hi, j, hj, k, hk, l, hl, rfl, rfl⟩ := h
    exact ⟨_, .digits hi hj hk hl, rfl⟩
  | [], h | [_], h | [_, _], h | [_, _, _], h => cases h

/-- The escape that was read belongs to a string before whatever follows. -/
theorem parseUnicode_sound {text bytes rest : Bytes} (hread : parseUnicode text = some (bytes, rest)) :
    ∃ front, text = front ++ rest ∧ ∀ inner string, StringText unescaped inner string →
      StringText unescaped (0x5C :: 0x75 :: (front ++ inner)) (bytes ++ string) := by
  obtain ⟨⟨first, after⟩, hfirst, h⟩ := Option.bind_eq_some_iff.1 hread
  obtain ⟨hex, hhex, rfl⟩ := parseHex4_sound hfirst
  clear hread
  simp only at h
  split at h
  · next hhigh =>
    obtain ⟨_, hslash, h⟩ := Option.bind_eq_some_iff.1 h
    obtain ⟨_, hu, h⟩ := Option.bind_eq_some_iff.1 h
    obtain ⟨⟨second, last⟩, hsnd, hlast⟩ := Option.bind_eq_some_iff.1 h
    obtain ⟨hex', hhex', rfl⟩ := parseHex4_sound hsnd
    rw [consume_some hslash, consume_some hu]
    split at hlast
    · cases hlast
    next hlow =>
    obtain ⟨rfl, rfl⟩ := Prod.mk.inj (Option.some.inj hlast)
    refine ⟨hex ++ 0x5C :: 0x75 :: hex', by simp, fun inner string hrest => ?_⟩
    rw [append_assoc, cons_append, cons_append]
    exact .pair hhex hhigh hhex' (by omega) hrest
  next hhigh =>
  split at h
  · cases h
  next hlow =>
  cases h
  exact ⟨hex, rfl, fun inner string hrest => .unicode hhex (by omega) hrest⟩

theorem parseString_sound {fuel : Nat} {text string rest : Bytes} (h : parseString fuel text = some (string, rest)) :
    ∃ inner, StringText Unescaped inner string ∧ text = inner ++ 0x22 :: rest := by
  induction fuel generalizing text string with
  | zero => cases h
  | succ fuel ih =>
    cases text with
    | nil => cases h
    | cons c text =>
      rw [parseString.eq_def] at h
      simp only at h
      split at h
      · next hc =>
        cases h
        exact ⟨[], .nil, by rw [hc]; rfl⟩
      next hquote =>
      split at h
      · next hc =>
        subst hc
        cases text with
        | nil => cases h
        | cons escaped text =>
          simp only at h
          split at h
          · next byte hbyte =>
            obtain ⟨⟨later, rest⟩, hlater, heq⟩ := Option.bind_eq_some_iff.1 h
            cases heq
            obtain ⟨inner, hinner, rfl⟩ := ih hlater
            exact ⟨_, .escape hbyte hinner, rfl⟩
          split at h
          · next hu =>
            subst hu
            obtain ⟨⟨bytes, after⟩, hunicode, h⟩ := Option.bind_eq_some_iff.1 h
            obtain ⟨⟨later, rest⟩, hlater, heq⟩ := Option.bind_eq_some_iff.1 h
            cases heq
            obtain ⟨front, rfl, hfront⟩ := @parseUnicode_sound Unescaped _ _ _ hunicode
            obtain ⟨inner, hinner, rfl⟩ := ih hlater
            exact ⟨_, hfront inner later hinner, by simp⟩
          · cases h
      · next hslash =>
        split at h
        · cases h
        next hcontrol =>
        obtain ⟨⟨later, rest⟩, hlater, heq⟩ := Option.bind_eq_some_iff.1 h
        cases heq
        obtain ⟨inner, hinner, rfl⟩ := ih hlater
        refine ⟨[c] ++ inner, .plain (fun d hd => ?_) hinner, rfl⟩
        rw [List.mem_singleton.1 hd]
        exact ⟨UInt8.not_lt.1 hcontrol, hquote, hslash⟩

theorem takeDigits_sound (text : Bytes) :
    Digits (takeDigits text).1 ∧ text = digitBytes (takeDigits text).1 ++ (takeDigits text).2 := by
  induction text with
  | nil => exact ⟨fun _ hd => (by cases hd), rfl⟩
  | cons c text ih =>
    rw [takeDigits]
    split
    · next hc =>
      have hall : ∀ n : Fin 256, isDigit (UInt8.ofNat n.val) = true → (UInt8.ofNat n.val).toNat - 0x30 < 10 ∧
          UInt8.ofNat (0x30 + ((UInt8.ofNat n.val).toNat - 0x30)) = UInt8.ofNat n.val := by decide +kernel
      have hdigit := hall ⟨c.toNat, c.toNat_lt⟩
      rw [UInt8.ofNat_toNat] at hdigit
      obtain ⟨hlt, hbyte⟩ := hdigit hc
      refine ⟨fun d hd => ?_, ?_⟩
      · rcases List.mem_cons.1 hd with rfl | hd
        · exact hlt
        · exact ih.1 d hd
      · rw [digitBytes, List.map_cons, hbyte, cons_append]
        exact congrArg _ ih.2
    · exact ⟨fun _ hd => (by cases hd), rfl⟩

theorem parseInteger_sound {whole : List Nat} (h : parseInteger text = some (whole, rest)) :
    ∃ integer, IntegerText integer whole ∧ text = integer ++ rest := by
  cases text with
  | nil => cases h
  | cons c text =>
    rw [parseInteger] at h
    split at h
    · next hc =>
      split at h
      · cases h
      · cases h
        exact ⟨_, .zero, by rw [hc]; rfl⟩
    next hzero =>
    split at h
    · next hc =>
      obtain ⟨hdig, heq⟩ := takeDigits_sound (c :: text)
      have htake := Option.some.inj h
      rw [takeDigits, if_pos hc] at htake
      obtain ⟨rfl, rfl⟩ := Prod.mk.inj htake
      rw [takeDigits, if_pos hc] at hdig heq
      refine ⟨_, .digits (fun hhead => hzero ?_) hdig, heq⟩
      have hbyte := (List.cons.inj heq).1
      rw [hbyte, hhead]
      rfl
    · cases h

theorem parseFraction_sound (h : parseFraction text = some (digits, rest)) :
    ∃ fraction, FractionText fraction digits ∧ text = fraction ++ rest := by
  rw [parseFraction] at h
  split at h
  · cases h
    exact ⟨[], .none, rfl⟩
  next after hdot =>
  split at h
  · cases h
  next hne =>
  obtain ⟨hdig, heq⟩ := takeDigits_sound after
  rw [Option.some.inj h] at hdig heq hne
  refine ⟨_, .digits (by simpa using hne) hdig, ?_⟩
  rw [consume_some hdot, heq]
  rfl

theorem split_sign (text : Bytes) : ∃ sign after, text = sign ++ after ∧
    (if text.head? = some 0x2D ∨ text.head? = some 0x2B then text.drop 1 else text) = after ∧
      (sign = [0x2D] ∧ text.head? = some 0x2D ∨ (sign = [] ∨ sign = [0x2B]) ∧ text.head? ≠ some 0x2D) := by
  cases text with
  | nil => exact ⟨[], [], rfl, rfl, .inr ⟨.inl rfl, nofun⟩⟩
  | cons c text =>
    by_cases hminus : c = 0x2D
    · exact ⟨[c], text, rfl, by simp [hminus], .inl (by simp [hminus])⟩
    by_cases hplus : c = 0x2B
    · exact ⟨[c], text, rfl, by simp [hplus], .inr (by simp [hplus])⟩
    · exact ⟨[], c :: text, rfl, by simp [hminus, hplus], .inr (by simp [hminus])⟩

theorem parseExponent_sound (text : Bytes) :
    ∃ exponent, ExponentText exponent (parseExponent text).1 ∧ text = exponent ++ (parseExponent text).2 := by
  cases text with
  | nil => exact ⟨[], .none, rfl⟩
  | cons c text =>
    obtain ⟨sign, after, htext, hafter, hsign⟩ := split_sign text
    simp only [parseExponent, hafter]
    split
    · next hmark =>
      split
      · exact ⟨[], .none, rfl⟩
      next hempty =>
      have hne : (takeDigits after).1 ≠ [] := by simpa using hempty
      obtain ⟨hdig, heq⟩ := takeDigits_sound after
      rcases hsign with ⟨rfl, hminus⟩ | ⟨hsign, hminus⟩
      · simp only [hminus, if_true]
        refine ⟨_, .negative hmark hne hdig, ?_⟩
        rw [htext, cons_append, nil_append, cons_append, cons_append, ← heq]
      simp only [hminus, if_false]
      refine ⟨_, .positive hmark hsign hne hdig, ?_⟩
      rw [htext, cons_append, append_assoc, ← heq]
    · exact ⟨[], .none, rfl⟩

theorem parseNumber_sound (h : parseNumber text = some (value, rest)) :
    ∃ number, NumberText number value ∧ text = number ++ rest := by
  obtain ⟨⟨whole, afterInteger⟩, hwhole, h⟩ := Option.bind_eq_some_iff.1 h
  obtain ⟨⟨digits, afterFraction⟩, hdig, h⟩ := Option.bind_eq_some_iff.1 h
  obtain ⟨_, hvalue, heq⟩ := Option.bind_eq_some_iff.1 h
  cases heq
  obtain ⟨integer, hint, hsplit⟩ := parseInteger_sound hwhole
  obtain ⟨fraction, hfraction, rfl⟩ := parseFraction_sound hdig
  obtain ⟨exponent, hexpo, hscale⟩ := parseExponent_sound afterFraction
  refine ⟨_, .parts (decide (text.head? = some 0x2D)) hint hfraction hexpo hvalue, ?_⟩
  change text = _ ++ (integer ++ (fraction ++ exponent)) ++ (parseExponent afterFraction).2
  rw [append_assoc, append_assoc, append_assoc, ← hscale, ← hsplit]
  cases text with
  | nil => rfl
  | cons c text => by_cases hminus : c = 0x2D <;> simp [hminus]

/-- What a successful read has found, from each of the three functions. -/
structure Found (fuel : Nat) : Prop where
  value : ∀ text value rest, parseValue fuel text = some (value, rest) → ∃ before inner, Spaces before ∧
    Denotes Unescaped inner (.value value) ∧ text = before ++ (inner ++ rest) ∧
    ∀ number, value = .number number → parseNumber (inner ++ rest) = some (number, rest)
  items : ∀ text items rest, parseItems fuel text = some (items, rest) → ∃ inner,
    Denotes Unescaped inner (.items items) ∧ text = inner ++ 0x5D :: rest
  members : ∀ text before members rest, parseMembers fuel before text = some (members, rest) → ∃ inner added,
    Denotes Unescaped inner (.members added) ∧ text = inner ++ 0x7D :: rest ∧ members = assigned before added

theorem parseLiteral_sound {literal text rest : Bytes} {value read : Json}
    (h : parseLiteral literal value text = some (read, rest)) : read = value ∧ text = literal ++ rest := by
  rw [parseLiteral] at h
  split at h
  · next hstart =>
    cases h
    exact ⟨rfl, (List.prefix_iff_eq_append.1 (List.isPrefixOf_iff_prefix.1 hstart)).symm⟩
  · cases h

/-- **What was read is a text of the grammar**, one round after the other. -/
theorem found (fuel : Nat) : Found fuel := by
  induction fuel with
  | zero => exact ⟨fun _ _ _ h => (by cases h), fun _ _ _ h => (by cases h), fun _ _ _ _ h => (by cases h)⟩
  | succ fuel ih =>
    refine ⟨fun text value rest h => ?_, fun text items rest h => ?_, fun text before members rest h => ?_⟩
    · obtain ⟨before, hprev, htext⟩ := skipWs_split text
      rw [parseValue] at h
      cases hskip : skipWs text with
      | nil =>
        rw [hskip] at h
        cases h
      | cons c later =>
        rw [hskip] at h htext
        suffices hinner : ∃ inner, Denotes Unescaped inner (.value value) ∧ c :: later = inner ++ rest ∧
            ∀ number, value = .number number → parseNumber (inner ++ rest) = some (number, rest) by
          obtain ⟨inner, hdenotes, heq, hnum⟩ := hinner
          exact ⟨before, inner, hprev, hdenotes, by rw [htext, heq], hnum⟩
        simp only at h
        split at h
        · next hc =>
          obtain ⟨⟨string, _⟩, hstr, heq⟩ := Option.map_eq_some_iff.1 h
          cases heq
          obtain ⟨inner, hinner, rfl⟩ := parseString_sound hstr
          exact ⟨_, .string hinner, by simp [hc], (fun _ heq => by cases heq)⟩
        split at h
        · next hc =>
          split at h
          · next last hclose =>
            cases h
            obtain ⟨spaces, hspaces, rfl⟩ := consume_skipWs hclose
            exact ⟨_, .emptyObject hspaces, by simp [hc], (fun _ heq => by cases heq)⟩
          obtain ⟨⟨members, _⟩, hmembers, heq⟩ := Option.map_eq_some_iff.1 h
          cases heq
          obtain ⟨inner, added, hinner, rfl, rfl⟩ := ih.members _ _ _ _ hmembers
          exact ⟨_, .object hinner, by simp [hc], (fun _ heq => by cases heq)⟩
        split at h
        · next hc =>
          split at h
          · next last hclose =>
            cases h
            obtain ⟨spaces, hspaces, rfl⟩ := consume_skipWs hclose
            exact ⟨_, .emptyArray hspaces, by simp [hc], (fun _ heq => by cases heq)⟩
          obtain ⟨⟨items, _⟩, hitems, heq⟩ := Option.map_eq_some_iff.1 h
          cases heq
          obtain ⟨inner, hinner, rfl⟩ := ih.items _ _ _ hitems
          exact ⟨_, .array hinner, by simp [hc], (fun _ heq => by cases heq)⟩
        split at h
        · obtain ⟨rfl, heq⟩ := parseLiteral_sound h
          exact ⟨_, .bool true, heq, (fun _ heq => by cases heq)⟩
        split at h
        · obtain ⟨rfl, heq⟩ := parseLiteral_sound h
          exact ⟨_, .bool false, heq, (fun _ heq => by cases heq)⟩
        split at h
        · obtain ⟨rfl, heq⟩ := parseLiteral_sound h
          exact ⟨_, .null, heq, (fun _ heq => by cases heq)⟩
        split at h
        · obtain ⟨⟨number, _⟩, hnum, heq⟩ := Option.map_eq_some_iff.1 h
          cases heq
          obtain ⟨inner, hinner, heq⟩ := parseNumber_sound hnum
          refine ⟨inner, .number hinner, heq, fun other hother => ?_⟩
          cases hother
          rw [← heq, hnum]
        · cases h
    · rw [parseItems] at h
      split at h
      · cases h
      next item after hitem =>
      obtain ⟨spaces, inner, hspaces, hinner, rfl, -⟩ := ih.value _ _ _ hitem
      split at h
      · next last hclose =>
        cases h
        obtain ⟨later, hlater, rfl⟩ := consume_skipWs hclose
        exact ⟨_, .item (.element hspaces hinner hlater), by simp⟩
      split at h
      · next last hcomma =>
        obtain ⟨later, hlater, rfl⟩ := consume_skipWs hcomma
        obtain ⟨⟨more, end'⟩, hmore, heq⟩ := Option.map_eq_some_iff.1 h
        cases heq
        obtain ⟨tail, htail, rfl⟩ := ih.items _ _ _ hmore
        exact ⟨_, .items (.element hspaces hinner hlater) htail, by simp⟩
      · cases h
    · rw [parseMembers] at h
      split at h
      · cases h
      next afterQuote hquote =>
      split at h
      · cases h
      next key afterKey hkey =>
      split at h
      · cases h
      next afterColon hcolon =>
      split at h
      · cases h
      next value after hvalue =>
      obtain ⟨front, hfront, rfl⟩ := consume_skipWs hquote
      obtain ⟨text', hstr, rfl⟩ := parseString_sound hkey
      obtain ⟨middle, hmid, rfl⟩ := consume_skipWs hcolon
      obtain ⟨spaces, inner, hspaces, hinner, rfl, -⟩ := ih.value _ _ _ hvalue
      simp only at h
      split at h
      · next last hclose =>
        cases h
        obtain ⟨later, hlater, rfl⟩ := consume_skipWs hclose
        exact ⟨_, _, .lastMember (.member hfront hstr hmid (.element hspaces hinner hlater)), by simp, rfl⟩
      split at h
      · next last hcomma =>
        obtain ⟨later, hlater, rfl⟩ := consume_skipWs hcomma
        obtain ⟨tail, added, htail, rfl, rfl⟩ := ih.members _ _ _ _ h
        exact ⟨_, _, .members (.member hfront hstr hmid (.element hspaces hinner hlater)) htail, by simp, rfl⟩
      · cases h

theorem parseValue_fuel (text : Bytes) {fuel : Nat} (hfuel : text.length ≤ fuel) :
    parseValue fuel text = parseValue text.length text := by
  have hagree : ∀ fuel fuel', text.length ≤ fuel' → ∀ read, parseValue fuel text = some read →
      parseValue fuel' text = some read := by
    rintro fuel fuel' hfuel' ⟨value, rest⟩ h
    obtain ⟨before, inner, hprev, hinner, rfl, hnum⟩ := (found fuel).value _ _ _ h
    have hpos := hinner.length_pos
    simp only [length_append] at hfuel'
    obtain ⟨fuel', rfl⟩ := Nat.exists_eq_succ_of_ne_zero (show fuel' ≠ 0 by omega)
    exact hinner.reads (fun _ h => h) fuel' before rest hprev (by omega) hnum
  cases h : parseValue fuel text with
  | some read => exact (hagree fuel _ le_rfl read h).symm
  | none =>
    cases h' : parseValue text.length text with
    | none => rfl
    | some read => exact absurd (h.symm.trans (hagree _ fuel hfuel read h')) (Option.some_ne_none read).symm

theorem Denotes.readJson (hplain : ∀ unit, unescaped unit → Unescaped unit) {value : Json}
    (h : Denotes unescaped text (.element value)) : readJson text = .ok value := by
  cases h with
  | @element before inner after _ hprev hinner hafter =>
    have hpos := hinner.length_pos
    have hread := hinner.reads hplain (before ++ (inner ++ after)).length before after hprev
      (by simp only [length_append]; omega) fun number heq => by
        subst heq
        cases hinner with
        | number h =>
          have hstops := stops_spaces hafter (nofun : Stops [])
          rw [append_nil] at hstops
          exact parseNumber_text h hstops
    rw [parseValue_fuel _ (Nat.le_succ _)] at hread
    rw [Support.readJson, hread]

theorem high_byte (n : Nat) :
    0x20 ≤ UInt8.ofNat (0x80 ||| n) ∧ UInt8.ofNat (0x80 ||| n) ≠ 0x22 ∧ UInt8.ofNat (0x80 ||| n) ≠ 0x5C := by
  have hbit : (UInt8.ofNat (0x80 ||| n)).toNat.testBit 7 = true := by
    rw [UInt8.toNat_ofNat', Nat.testBit_mod_two_pow, Nat.testBit_or]
    rfl
  have hhigh := Nat.ge_two_pow_of_testBit hbit
  refine ⟨UInt8.le_iff_toNat_le.2 (le_trans (by decide) hhigh), ?_, ?_⟩
  · intro heq
    rw [heq] at hhigh
    exact absurd hhigh (by decide)
  intro heq
  rw [heq] at hhigh
  exact absurd hhigh (by decide)

theorem unescaped_utf8Char {unit : Bytes} (h : Utf8Char unit) : Unescaped unit := by
  obtain ⟨code, rfl, hcontrol, hquote, hslash, -⟩ := h
  have hlead : ∀ n, UInt8.ofNat (0xC0 ||| n) = UInt8.ofNat (0x80 ||| (0x40 ||| n)) ∧
      UInt8.ofNat (0xE0 ||| n) = UInt8.ofNat (0x80 ||| (0x60 ||| n)) ∧
      UInt8.ofNat (0xF0 ||| n) = UInt8.ofNat (0x80 ||| (0x70 ||| n)) := fun n => by
    simp only [← Nat.or_assoc]
    exact ⟨rfl, rfl, rfl⟩
  intro c hc
  rw [utf8Bytes] at hc
  split at hc
  · next hascii =>
    rw [List.mem_singleton.1 hc]
    have hall : ∀ n : Fin 128, 0x20 ≤ n.val ∧ n.val ≠ 0x22 ∧ n.val ≠ 0x5C →
        0x20 ≤ UInt8.ofNat n.val ∧ UInt8.ofNat n.val ≠ 0x22 ∧ UInt8.ofNat n.val ≠ 0x5C := by decide +kernel
    exact hall ⟨code, hascii⟩ ⟨hcontrol, hquote, hslash⟩
  simp only [(hlead _).1, (hlead _).2.1, (hlead _).2.2] at hc
  split at hc
  · rcases List.mem_pair.1 hc with rfl | rfl <;> exact high_byte _
  split at hc <;> simp only [List.mem_cons, List.not_mem_nil, or_false] at hc
  · rcases hc with rfl | rfl | rfl <;> exact high_byte _
  · rcases hc with rfl | rfl | rfl | rfl <;> exact high_byte _

/-- **The reader accepts its grammar and nothing else.** It needs no more fuel than the text is long, reads every
text of the RFC, and what it reads is, up to whitespace before it and a tail, a text of the grammar in which any
bytes may stand unescaped. -/
theorem readJson_grammar (text : Bytes) :
    (∀ fuel, text.length ≤ fuel → parseValue fuel text = parseValue text.length text) ∧
      (∀ value, Denotes Utf8Char text (.element value) ∨ Denotes Unescaped text (.element value) →
        readJson text = .ok value) ∧
      ∀ value, readJson text = .ok value → ∃ before inner tail, text = before ++ (inner ++ tail) ∧ Spaces before ∧
        Denotes Unescaped inner (.value value) ∧ readJson (before ++ inner) = .ok value := by
  refine ⟨fun fuel hfuel => parseValue_fuel text hfuel, fun value h => ?_, fun value h => ?_⟩
  · rcases h with h | h
    · exact h.readJson fun _ => unescaped_utf8Char
    · exact h.readJson fun _ h => h
  rw [readJson] at h
  split at h
  · next read tail hread =>
    cases h
    obtain ⟨before, inner, hbefore, hinner, heq, -⟩ := (found _).value _ _ _ hread
    refine ⟨before, inner, tail, heq, hbefore, hinner, ?_⟩
    have helement := Denotes.element hbefore hinner (nofun : Spaces [])
    rw [append_nil] at helement
    exact helement.readJson fun _ h => h
  · cases h

/-- A byte that belongs to no character is read as it is. -/
theorem readJson_grammar_invalid : readJson [0x22, 0xFF, 0x22] = .ok (.string [0xFF]) ∧
    ∀ before inner tail value, [0x22, 0xFF, 0x22] = before ++ (inner ++ tail) → Spaces before →
      ¬Denotes Utf8Char inner (.value value) := by
  refine ⟨by decide, fun before inner tail value htext hbefore h => ?_⟩
  obtain rfl : before = [] := by
    cases before with
    | nil => rfl
    | cons c before =>
      have hspace := hbefore c mem_cons_self
      rw [← (List.cons.inj htext).1] at hspace
      exact absurd hspace (by decide)
  rw [nil_append] at htext
  cases h with
  | null => exact absurd (List.cons.inj htext).1 (by decide)
  | bool flag => cases flag <;> exact absurd (List.cons.inj htext).1 (by decide)
  | number h =>
    obtain ⟨c, rest, rfl, hc⟩ := numberText_head h
    exact absurd (List.cons.inj htext).1.symm (number_kind hc).2.1
  | emptyArray | array | emptyObject | object => exact absurd (List.cons.inj htext).1 (by decide)
  | @string text string h =>
    have hstring : [0xFF, 0x22] = (text ++ [0x22]) ++ tail := (List.cons.inj htext).2
    rw [append_assoc] at hstring
    -- The byte stands in the string, where no constructor takes it.
    cases h with
    | nil => exact absurd (List.cons.inj hstring).1 (by decide)
    | @plain unit text string hunit =>
      obtain ⟨code, rfl, -⟩ := hunit
      unfold utf8Bytes at hstring
      split at hstring
      · next hascii =>
        have hbyte := congrArg UInt8.toNat (List.cons.inj hstring).1
        rw [UInt8.toNat_ofNat'] at hbyte
        have hcode : (255 : Nat) = code % 2 ^ 8 := hbyte
        omega
      split at hstring
      · exact absurd (List.cons.inj (List.cons.inj hstring).2).1.symm (high_byte _).2.1
      · split at hstring <;> exact absurd (List.cons.inj (List.cons.inj hstring).2).1.symm (high_byte _).2.1
    | escape | unicode | pair => exact absurd (List.cons.inj hstring).1 (by decide)

/-! ## The texts of the writer -/

theorem escapeByte_text {text string : Bytes} (c : UInt8) (hrest : StringText Unescaped text string) :
    StringText Unescaped (escapeByte c ++ text) (c :: string) := by
  rw [escapeByte]
  by_cases hsimple : c ∈ ([0x22, 0x5C, 0x08, 0x0C, 0x0A, 0x0D, 0x09] : Bytes)
  · simp only [List.mem_cons, List.not_mem_nil, or_false] at hsimple
    rcases hsimple with rfl | rfl | rfl | rfl | rfl | rfl | rfl <;> exact .escape (by decide) hrest
  simp only [List.mem_cons, List.not_mem_nil, or_false, not_or] at hsimple
  simp only [hsimple, if_false]
  split
  · next hcontrol =>
    have hhex : ∀ n : Fin 32, hexValue (hexDigit (n.val / 16)) = some (n.val / 16) ∧
        hexValue (hexDigit (n.val % 16)) = some (n.val % 16) ∧
        utf8Bytes (((0 * 16 + 0) * 16 + n.val / 16) * 16 + n.val % 16) = [UInt8.ofNat n.val] ∧
        ((0 * 16 + 0) * 16 + n.val / 16) * 16 + n.val % 16 < 0xD800 := by decide
    obtain ⟨hhigh, hlow, hbytes, hcode⟩ := hhex ⟨c.toNat, UInt8.lt_iff_toNat_lt.1 hcontrol⟩
    have hzero : hexValue 0x30 = some 0 := by decide
    have htext := StringText.unicode (.digits hzero hzero hhigh hlow) (.inl hcode) hrest
    rwa [hbytes, UInt8.ofNat_toNat] at htext
  next hcontrol =>
  have hplain : Unescaped [c] := fun d hd => by
    rw [List.mem_singleton.1 hd]
    exact ⟨UInt8.not_lt.1 hcontrol, hsimple.1, hsimple.2.1⟩
  exact .plain hplain hrest

theorem flatMap_escapeByte_text (text : Bytes) : StringText Unescaped (text.flatMap escapeByte) text := by
  induction text with
  | nil => exact .nil
  | cons c text ih => exact escapeByte_text c ih

theorem digits_replicate (zeros : Nat) : Digits (List.replicate zeros 0) := fun digit hdigit => by
  rw [(List.mem_replicate.1 hdigit).2]
  decide

theorem digits_append {a b : List Nat} (ha : Digits a) (hb : Digits b) : Digits (a ++ b) :=
  List.forall_mem_append.2 ⟨ha, hb⟩

/-- Every layout of a digit list is an unsigned number with the digits at their exponent. -/
theorem layoutNumber_text {head : Nat} {tail : List Nat} (hhead : head ≠ 0) (hdig : Digits (head :: tail))
    (decimalExponent : Int) : ∃ integer fraction exponent whole digits scale,
      layoutNumber (head :: tail) decimalExponent = integer ++ (fraction ++ exponent) ∧ IntegerText integer whole ∧
        FractionText fraction digits ∧ ExponentText exponent scale ∧
        ∀ negative, ofDecimal negative (ofDigits (whole ++ digits)) (scale - digits.length) =
          ofDecimal negative (ofDigits (head :: tail)) (decimalExponent - tail.length) := by
  have htail : Digits tail := fun digit h => hdig digit (mem_cons_of_mem _ h)
  have hcons : ∀ {more : List Nat}, Digits more → Digits (head :: more) := fun hmore =>
    List.forall_mem_cons.2 ⟨hdig head mem_cons_self, hmore⟩
  rw [layoutNumber]
  split
  · split
    · simp only
      split
      · -- An integer, padded with zeros: they move into the exponent.
        next hlen =>
        generalize hzeros : decimalExponent.toNat + 1 - (head :: tail).length = zeros
        refine ⟨_, [], [], _, [], 0, by simp, .digits hhead (hcons (digits_append htail (digits_replicate zeros))),
          .none, .none, fun negative => ?_⟩
        rw [length_cons] at hlen hzeros
        have hexp : decimalExponent - tail.length = (zeros : Int) := by omega
        rw [append_nil, hexp, ← cons_append, ofDigits_append, ofDigits_zeros, List.length_replicate, ofDecimal,
          if_pos (by simp), ofDecimal, if_pos (Int.natCast_nonneg _), Int.toNat_natCast]
        simp
      next hlen =>
      generalize hint : decimalExponent.toNat + 1 = integerLength
      rw [hint] at hlen
      obtain ⟨k, rfl⟩ := Nat.exists_eq_succ_of_ne_zero (show integerLength ≠ 0 by omega)
      rw [length_cons] at hlen
      have hdrop : tail.drop k ≠ [] := by
        rw [ne_eq, List.drop_eq_nil_iff]
        omega
      refine ⟨_, _, [], head :: tail.take k, tail.drop k, 0, by rw [append_nil]; rfl,
        .digits hhead (hcons fun digit h => htail digit (List.mem_of_mem_take h)),
        .digits hdrop fun digit h => htail digit (List.mem_of_mem_drop h), .none, fun negative => ?_⟩
      rw [cons_append, List.take_append_drop, List.length_drop]
      congr 1
      omega
    · -- A fraction below one: the zeros after the dot do not change the digits.
      generalize hzeros : (-decimalExponent - 1).toNat = zeros
      refine ⟨_, _, [], [0], List.replicate zeros 0 ++ head :: tail, 0, by rw [append_nil]; rfl, .zero,
        .digits (by simp) (digits_append (digits_replicate zeros) hdig), .none, fun negative => ?_⟩
      rw [cons_append, nil_append, ofDigits_cons, ofDigits_append, ofDigits_zeros, length_append, List.length_replicate,
        length_cons]
      congr 1
      · simp
      · push_cast
        omega
  · -- Scientific notation.
    have hexpo : ExponentText (0x45 :: ((if decimalExponent < 0 then [0x2D] else []) ++
        digitBytes (digitsOf decimalExponent.natAbs))) decimalExponent := by
      have hne := digitsOf_ne_nil decimalExponent.natAbs
      have hvalue := ofDigits_digitsOf decimalExponent.natAbs
      split
      · have htext := ExponentText.negative (.inr rfl) hne (digitsOf_lt decimalExponent.natAbs)
        rwa [hvalue, show -(decimalExponent.natAbs : Int) = decimalExponent by omega] at htext
      · have htext := ExponentText.positive (.inr rfl) (.inl rfl) hne (digitsOf_lt decimalExponent.natAbs)
        rwa [hvalue, show (decimalExponent.natAbs : Int) = decimalExponent by omega] at htext
    have hint := IntegerText.digits hhead (hcons (show Digits [] by simp [Digits]))
    cases tail with
    | nil => exact ⟨_, [], _, [head], [], _, by simp, hint, .none, hexpo, fun _ => rfl⟩
    | cons second tail =>
      exact ⟨_, _, _, [head], second :: tail, _, by simp, hint, .digits (List.cons_ne_nil _ _) htail, hexpo,
        fun _ => rfl⟩

theorem dropTrailingZeros_digitsOf {n : Nat} (hlast : n % 10 ≠ 0) : dropTrailingZeros (digitsOf n) = digitsOf n := by
  obtain ⟨head, tail, hsplit, -⟩ := digitsOf_head (show 0 < n by omega)
  rw [hsplit, dropTrailingZeros]
  rcases List.eq_nil_or_concat tail with rfl | ⟨front, last, rfl⟩
  · rfl
  have hvalue := ofDigits_digitsOf n
  rw [hsplit, List.concat_eq_append, ← cons_append, ofDigits_append] at hvalue
  have hnonzero : last ≠ 0 := by
    rintro rfl
    apply hlast
    rw [← hvalue]
    simp [ofDigits]
  rw [List.concat_eq_append, List.reverse_append, List.reverse_singleton, List.singleton_append,
    List.dropWhile_cons_of_neg (by simpa using hnonzero)]
  simp

/-- **A finite number is written as a number of the grammar.** -/
theorem formatNumber_text (hfinite : value.isFinite = true) :
    NumberText (formatNumber value) value := by
  cases value with
  | nan | infinity negative => simp [Double.isFinite] at hfinite
  | zero negative =>
    have hvalue : fromChars negative (ofDigits ([0] ++ [])) (0 - ([] : List Nat).length) = some (.zero negative) := by
      cases negative <;> decide
    have htext := NumberText.parts negative .zero .none .none hvalue
    cases negative <;> exact htext
  | finite negative mantissa exponent h =>
    obtain ⟨hlast, hread⟩ := ofDecimal_shortestDecimal negative h
    obtain ⟨head, tail, hsplit, hhead⟩ := digitsOf_head (n := (shortestDecimal mantissa exponent h).1) (by omega)
    have hdig : Digits (head :: tail) := by
      rw [← hsplit]
      exact digitsOf_lt _
    obtain ⟨integer, fraction, scaled, whole, digits, scale, htext, hint, hfraction, hexpo, hsame⟩ :=
      layoutNumber_text hhead hdig
        ((shortestDecimal mantissa exponent h).2 + (digitsOf (shortestDecimal mantissa exponent h).1).length - 1)
    have hchars : fromChars negative (ofDigits (whole ++ digits)) (scale - digits.length) =
        some (.finite negative mantissa exponent h) := by
      have hexp : (shortestDecimal mantissa exponent h).2
          + (digitsOf (shortestDecimal mantissa exponent h).1).length - 1 - tail.length
            = (shortestDecimal mantissa exponent h).2 := by
        rw [hsplit, length_cons]
        push_cast
        omega
      rw [fromChars, hsame, hexp, ← hsplit, ofDigits_digitsOf, hread]
    have hnum := NumberText.parts negative hint hfraction hexpo hchars
    rw [← htext, ← hsplit] at hnum
    simpa [formatNumber, dropTrailingZeros_digitsOf hlast] using hnum

mutual
def Json.Finite : Json → Prop
  | .number value => value.isFinite = true
  | .array items => Json.FiniteItems items
  | .object members => Json.FiniteMembers members
  | _ => True
def Json.FiniteItems : List Json → Prop
  | [] => True
  | v :: rest => Json.Finite v ∧ Json.FiniteItems rest
def Json.FiniteMembers : List (Bytes × Json) → Prop
  | [] => True
  | (_, v) :: rest => Json.Finite v ∧ Json.FiniteMembers rest
end

namespace Json

theorem finiteItems_iff (items : List Json) : FiniteItems items ↔ ∀ v ∈ items, Finite v := by
  induction items with
  | nil => simp [FiniteItems]
  | cons v rest ih => simp [FiniteItems, ih]

theorem finiteMembers_iff (members : List (Bytes × Json)) : FiniteMembers members ↔ ∀ m ∈ members, Finite m.2 := by
  induction members with
  | nil => simp [FiniteMembers]
  | cons m rest ih =>
    obtain ⟨k, v⟩ := m
    simp [FiniteMembers, ih]

@[simp] theorem finite_array (items : List Json) : Finite (.array items) ↔ ∀ v ∈ items, Finite v := by
  rw [Finite, finiteItems_iff]

@[simp] theorem finite_object (members : List (Bytes × Json)) :
    Finite (.object members) ↔ ∀ m ∈ members, Finite m.2 := by
  rw [Finite, finiteMembers_iff]

@[simp] theorem finite_null : Finite .null := trivial
@[simp] theorem finite_bool (flag : Bool) : Finite (.bool flag) := trivial
@[simp] theorem finite_string (text : Bytes) : Finite (.string text) := trivial
@[simp] theorem finite_number (value : Double) : Finite (.number value) ↔ value.isFinite = true := Iff.rfl

end Json

theorem Denotes.bare {value : Json} (h : Denotes unescaped text (.value value)) :
    Denotes unescaped text (.element value) := by
  have helement := Denotes.element (nofun : Spaces []) h (nofun : Spaces [])
  rwa [append_nil] at helement

theorem writeItems_text {value : Json} {items : List Json}
    (h : ∀ item ∈ value :: items, Denotes Unescaped (writeValue item) (.value item)) :
    Denotes Unescaped (writeItems true (value :: items)) (.items (value :: items)) := by
  induction items generalizing value with
  | nil =>
    rw [writeItems, if_pos rfl, writeItems, append_nil]
    exact .item (h value mem_cons_self).bare
  | cons second items ih =>
    have hlater := ih fun item hitem => h item (mem_cons_of_mem _ hitem)
    rw [writeItems, if_pos rfl, writeItems, if_neg Bool.false_ne_true]
    rw [writeItems, if_pos rfl] at hlater
    exact .items (h value mem_cons_self).bare hlater

theorem insertOrAssign_fresh {key : Bytes} (value : Json) {members : List (Bytes × Json)}
    (h : key ∉ members.map Prod.fst) : JsonObject.insertOrAssign key value members = members ++ [(key, value)] := by
  induction members with
  | nil => rfl
  | cons m rest ih =>
    obtain ⟨k, v⟩ := m
    simp only [List.map_cons, List.mem_cons, not_or] at h
    rw [JsonObject.insertOrAssign, if_neg (Ne.symm h.1), ih h.2]
    rfl

theorem assigned_nodup {before members : List (Bytes × Json)} (h : JsonObject.NodupKeys (before ++ members)) :
    assigned before members = before ++ members := by
  induction members generalizing before with
  | nil => exact (append_nil before).symm
  | cons m members ih =>
    have hfresh : m.1 ∉ before.map Prod.fst := fun hmem => by
      simp only [JsonObject.NodupKeys, List.map_append, List.map_cons] at h
      exact (List.nodup_append.1 h).2.2 _ hmem _ mem_cons_self rfl
    have hlater := @ih (before ++ [m]) (by simpa using h)
    rw [append_assoc] at hlater
    rw [assigned, List.foldl_cons, insertOrAssign_fresh m.2 hfresh]
    exact hlater

theorem writeMembers_text {m : Bytes × Json} {members : List (Bytes × Json)}
    (h : ∀ n ∈ m :: members, Denotes Unescaped (writeValue n.2) (.value n.2)) :
    Denotes Unescaped (writeMembers true (m :: members)) (.members (m :: members)) := by
  have hmem : ∀ n ∈ m :: members,
      Denotes Unescaped (writeString n.1 ++ 0x3A :: writeValue n.2) (.member n.1 n.2) := fun n hn => by
    have hmem := Denotes.member (nofun : Spaces []) (flatMap_escapeByte_text n.1) (nofun : Spaces []) (h n hn).bare
    rwa [nil_append, show (0x22 :: (n.1.flatMap escapeByte ++ 0x22 :: ([] ++ 0x3A :: writeValue n.2))) =
      writeString n.1 ++ 0x3A :: writeValue n.2 by simp [writeString]] at hmem
  clear h
  induction members generalizing m with
  | nil =>
    obtain ⟨key, value⟩ := m
    rw [writeMembers, if_pos rfl, writeMembers, append_nil]
    exact .lastMember (hmem (key, value) mem_cons_self)
  | cons second members ih =>
    obtain ⟨key, value⟩ := m
    obtain ⟨key', value'⟩ := second
    have hlater := ih fun n hn => hmem n (mem_cons_of_mem _ hn)
    have hfirst := hmem (key, value) mem_cons_self
    rw [writeMembers, if_pos rfl] at hlater
    have hall := Denotes.members hfirst hlater
    rwa [append_assoc, cons_append] at hall

/-- **The writer writes texts of the grammar.** -/
theorem writeValue_text {v : Json} (hfinite : v.Finite) (hwf : v.WF) : Denotes Unescaped (writeValue v) (.value v) := by
  induction v using Json.rec' with
  | hnull => exact .null
  | hbool flag =>
    cases flag with
    | true => exact .bool true
    | false => exact .bool false
  | hnum value => exact .number (formatNumber_text hfinite)
  | hstr text => exact .string (flatMap_escapeByte_text text)
  | harray items ih =>
    rw [Json.finite_array] at hfinite
    rw [Json.wf_array] at hwf
    cases items with
    | nil => exact .emptyArray (nofun : Spaces [])
    | cons v items => exact .array (writeItems_text fun w hw => ih w hw (hfinite w hw) (hwf w hw))
  | hobj members ih =>
    rw [Json.finite_object] at hfinite
    rw [Json.wf_object] at hwf
    cases members with
    | nil => exact .emptyObject (nofun : Spaces [])
    | cons m members =>
      have hobj := Denotes.object (writeMembers_text fun n hn => ih n hn (hfinite n hn) (hwf.2 n hn))
      rwa [@assigned_nodup [] _ (by simpa using hwf.1), nil_append] at hobj

/-- **JSON text round-trips.** -/
theorem readJson_writeJson {v : Json} (hfinite : v.Finite) (hwf : v.WF) : readJson (writeJson v) = .ok v :=
  (writeValue_text hfinite hwf).bare.readJson fun _ h => h

end CodingHarness.Support
