import CodingHarness.Support.Json

/-!
# UTF-16 code units of Chord strings

Chord counts string positions in UTF-16 code units while a C++ string holds UTF-8 bytes. This module
embeds the two transcoders of `Delta.cpp`, the bounded overlap search and the front truncation, and
proves what the string deltas rest on: encoding undoes decoding, and a decodable text may be cut at
every boundary that does not separate a surrogate pair.

Code units and code points are naturals; every unit built by the decoder is below `0x10000`.
-/

namespace CodingHarness.Chord

open Support

/-! ## Transcoding -/

def isHighSurrogate (unit : Nat) : Bool := 0xD800 ≤ unit && unit ≤ 0xDBFF

def isLowSurrogate (unit : Nat) : Bool := 0xDC00 ≤ unit && unit ≤ 0xDFFF

/-- The payload bits and the sequence length announced by a lead byte. -/
def leadByte (lead : Nat) : Option (Nat × Nat) := if lead < 0x80 then some (lead, 1)
  else if lead &&& 0xE0 = 0xC0 then some (lead &&& 0x1F, 2)
  else if lead &&& 0xF0 = 0xE0 then some (lead &&& 0x0F, 3)
  else if lead &&& 0xF8 = 0xF0 then some (lead &&& 0x07, 4)
  else none

/-- Fold `count` continuation bytes into the code point; the rest of the text follows. -/
def continuationBytes : Nat → Nat → Bytes → Option (Nat × Bytes)
  | 0, codePoint, text => some (codePoint, text)
  | _ + 1, _, [] => none
  | count + 1, codePoint, byte :: text =>
    if byte.toNat &&& 0xC0 ≠ 0x80 then none
    else continuationBytes count ((codePoint <<< 6) ||| (byte.toNat &&& 0x3F)) text

/-- Overlong forms, values above `0x10FFFF` and surrogate code points. -/
def malformedCodePoint (length codePoint : Nat) : Bool :=
  (length == 2 && codePoint < 0x80) || (length == 3 && codePoint < 0x800) ||
    (length == 4 && codePoint < 0x10000) || codePoint > 0x10FFFF ||
    (0xD800 ≤ codePoint && codePoint ≤ 0xDFFF)

/-- The one or two code units of a code point. -/
def codeUnits (codePoint : Nat) : List Nat := if codePoint ≤ 0xFFFF then [codePoint]
  else
    let adjusted := codePoint - 0x10000
    [0xD800 + (adjusted >>> 10), 0xDC00 + (adjusted &&& 0x3FF)]

/-- The decoding loop. Every round consumes a byte, so the text length is enough fuel. -/
def decodeUtf8Loop : Nat → Bytes → Option (List Nat)
  | _, [] => some []
  | 0, _ :: _ => none
  | fuel + 1, lead :: text => do
      let (bits, length) ← leadByte lead.toNat
      let (codePoint, rest) ← continuationBytes (length - 1) bits text
      if malformedCodePoint length codePoint then none
      else
        let units ← decodeUtf8Loop fuel rest
        return codeUnits codePoint ++ units

def decodeUtf8 (text : Bytes) : Option (List Nat) := decodeUtf8Loop text.length text

def codePointBytes (codePoint : Nat) : Bytes := if codePoint < 0x80 then [UInt8.ofNat codePoint]
  else if codePoint < 0x800 then
    [UInt8.ofNat (0xC0 ||| (codePoint >>> 6)), UInt8.ofNat (0x80 ||| (codePoint &&& 0x3F))]
  else if codePoint < 0x10000 then
    [UInt8.ofNat (0xE0 ||| (codePoint >>> 12)), UInt8.ofNat (0x80 ||| ((codePoint >>> 6) &&& 0x3F)),
      UInt8.ofNat (0x80 ||| (codePoint &&& 0x3F))]
  else
    [UInt8.ofNat (0xF0 ||| (codePoint >>> 18)), UInt8.ofNat (0x80 ||| ((codePoint >>> 12) &&& 0x3F)),
      UInt8.ofNat (0x80 ||| ((codePoint >>> 6) &&& 0x3F)),
      UInt8.ofNat (0x80 ||| (codePoint &&& 0x3F))]

/-- `encode_utf8`: a lone surrogate has no UTF-8 form. -/
def encodeUtf8 : List Nat → Option Bytes
  | [] => some []
  | unit :: rest =>
    if isHighSurrogate unit then
      match rest with
      | [] => none
      | low :: rest =>
        if isLowSurrogate low then
          let codePoint := 0x10000 + ((unit - 0xD800) <<< 10) + (low - 0xDC00)
          (encodeUtf8 rest).map fun bytes => codePointBytes codePoint ++ bytes
        else none
    else if isLowSurrogate unit then none
    else (encodeUtf8 rest).map fun bytes => codePointBytes unit ++ bytes

/-! ## Overlap search and front truncation -/

/-- One round of the overlap search: the first of at most `maxCandidates` occurrences of the head of
`b` in `tail` from which `tail` is a prefix of `b`. -/
def overlapRound (tail b : List Nat) (headLength maxCandidates : Nat) : Option Nat :=
  let occurrences := (List.range tail.length).filter fun position =>
    (b.take headLength).isPrefixOf (tail.drop position)
  let candidates := (occurrences.take maxCandidates).map fun position => tail.length - position
  candidates.find? fun length =>
    decide (length ≤ b.length) && decide (tail.drop (tail.length - length) = b.take length)

/-- `overlap_units`: a suffix of `a` that is a prefix of `b`, searched within the last `scan` units,
first by a head of `probe` units and then by a single unit. -/
def overlapUnits (a b : List Nat) (scan probe maxCandidates : Nat) : Nat :=
  if a.isEmpty || b.isEmpty || scan == 0 then 0
  else
    let tail := a.drop (a.length - scan)
    let heads := if min probe b.length = 1 then [1] else [min probe b.length, 1]
    ((heads.filter (· ≠ 0)).findSome? fun headLength =>
      overlapRound tail b headLength maxCandidates).getD 0

def truncateFrontUtf16 (text : Bytes) (count : Nat) : Expected Bytes := if count = 0 then .ok text
  else
    match decodeUtf8 text with
    | none => .error (validationError "value contains invalid UTF-8")
    | some units =>
      if count ≥ units.length then .ok []
      else if (units[count - 1]?.any isHighSurrogate) && (units[count]?.any isLowSurrogate) then
        .error (validationError "truncate splits a surrogate pair")
      else
        match encodeUtf8 (units.drop count) with
        | none => .error (validationError "value contains invalid UTF-16")
        | some encoded => .ok encoded

/-! ## Encoding undoes decoding -/

theorem shiftLeft_or {bits low : Nat} (width : Nat) (h : low < 2 ^ width) :
    (bits <<< width) ||| low = bits * 2 ^ width + low := by
  rw [← Nat.shiftLeft_add_eq_or_of_lt h, Nat.shiftLeft_eq]

theorem byte_masks (lead : Fin 256) :
    (lead.val &&& 0xE0 = 0xC0 ↔ lead.val / 32 = 6) ∧ (lead.val &&& 0xF0 = 0xE0 ↔ lead.val / 16 = 14) ∧
      (lead.val &&& 0xF8 = 0xF0 ↔ lead.val / 8 = 30) ∧ (lead.val &&& 0xC0 = 0x80 ↔ lead.val / 64 = 2) := by
  revert lead
  decide +kernel

theorem continuation_or (n : Nat) : 0x80 ||| (n &&& 0x3F) = 0x80 + n % 64 := by
  have hmod := Nat.and_two_pow_sub_one_eq_mod n 6
  have hor := @shiftLeft_or 2 _ 6 (Nat.mod_lt n (show 2 ^ 6 > 0 by decide))
  rw [hmod]
  exact hor

theorem leadByte_cases {lead : UInt8} {bits length : Nat} (h : leadByte lead.toNat = some (bits, length)) :
    (length = 1 ∧ bits < 0x80 ∧ lead.toNat = bits) ∨ (length = 2 ∧ bits < 0x20 ∧ lead.toNat = 0xC0 + bits) ∨
      (length = 3 ∧ bits < 0x10 ∧ lead.toNat = 0xE0 + bits) ∨
      (length = 4 ∧ bits < 0x08 ∧ lead.toNat = 0xF0 + bits) := by
  obtain ⟨h2, h3, h4, -⟩ := byte_masks ⟨lead.toNat, lead.toNat_lt⟩
  have m2 := Nat.and_two_pow_sub_one_eq_mod lead.toNat 5
  have m3 := Nat.and_two_pow_sub_one_eq_mod lead.toNat 4
  have m4 := Nat.and_two_pow_sub_one_eq_mod lead.toNat 3
  simp only [leadByte, h2, h3, h4, m2, m3, m4] at h
  split at h
  · simp only [Option.some.injEq, Prod.mk.injEq] at h
    omega
  split at h
  · simp only [Option.some.injEq, Prod.mk.injEq] at h
    omega
  split at h
  · simp only [Option.some.injEq, Prod.mk.injEq] at h
    omega
  split at h
  · simp only [Option.some.injEq, Prod.mk.injEq] at h
    omega
  · cases h

theorem continuationBytes_succ {count bits codePoint : Nat} {text rest : Bytes}
    (h : continuationBytes (count + 1) bits text = some (codePoint, rest)) :
    ∃ (byte : UInt8) (low : Nat) (tail : Bytes), text = byte :: tail ∧ low < 64 ∧ byte.toNat = 0x80 + low ∧
      continuationBytes count (bits * 64 + low) tail = some (codePoint, rest) := by
  cases text with
  | nil => cases h
  | cons byte tail =>
    obtain ⟨-, -, -, hmask⟩ := byte_masks ⟨byte.toNat, byte.toNat_lt⟩
    have hlow := Nat.and_two_pow_sub_one_eq_mod byte.toNat 6
    norm_num at hmask hlow
    rw [continuationBytes, hlow, shiftLeft_or 6 (show byte.toNat % 64 < 2 ^ 6 by omega)] at h
    split at h
    · cases h
    · exact ⟨byte, byte.toNat % 64, tail, rfl, by omega, by omega, h⟩

theorem ofNat_eq_of_toNat {byte : UInt8} {n : Nat} (h : byte.toNat = n) : UInt8.ofNat n = byte := by
  rw [← h, UInt8.ofNat_toNat]

/-- The bytes read for an accepted code point are the bytes the encoder writes for it. -/
theorem codePointBytes_of_decoded {lead : UInt8} {bits length codePoint : Nat} {text rest : Bytes}
    (hlead : leadByte lead.toNat = some (bits, length))
    (hrest : continuationBytes (length - 1) bits text = some (codePoint, rest))
    (hvalid : malformedCodePoint length codePoint = false) : lead :: text = codePointBytes codePoint ++ rest := by
  simp only [malformedCodePoint, Bool.or_eq_false_iff, Bool.and_eq_false_iff, beq_eq_false_iff_ne,
    decide_eq_false_iff_not] at hvalid
  rcases leadByte_cases hlead with ⟨rfl, hbits, hval⟩ | ⟨rfl, hbits, hval⟩ | ⟨rfl, hbits, hval⟩ | ⟨rfl, hbits, hval⟩
  · obtain ⟨rfl, rfl⟩ : bits = codePoint ∧ text = rest := by simpa [continuationBytes] using hrest
    rw [codePointBytes, if_pos hbits, ofNat_eq_of_toNat hval]
    rfl
  · obtain ⟨b1, c1, tail, rfl, hc1, hb1, hrest⟩ := continuationBytes_succ hrest
    obtain ⟨hcp, rfl⟩ : bits * 64 + c1 = codePoint ∧ tail = rest := by
      simpa [continuationBytes] using hrest
    have hhigh : 0xC0 ||| (codePoint >>> 6) = lead.toNat := by
      rw [Nat.shiftRight_eq_div_pow, show codePoint / 2 ^ 6 = bits by omega,
        show (0xC0 : Nat) = 6 <<< 5 from rfl, shiftLeft_or 5 hbits]
      omega
    have hlow : 0x80 ||| (codePoint &&& 0x3F) = b1.toNat := by
      rw [continuation_or]
      omega
    rw [codePointBytes, if_neg (by omega), if_pos (by omega), hhigh, hlow]
    simp
  · obtain ⟨b1, c1, tail, rfl, hc1, hb1, hrest⟩ := continuationBytes_succ hrest
    obtain ⟨b2, c2, tail, rfl, hc2, hb2, hrest⟩ := continuationBytes_succ hrest
    obtain ⟨hcp, rfl⟩ : (bits * 64 + c1) * 64 + c2 = codePoint ∧ tail = rest := by
      simpa [continuationBytes] using hrest
    have hhigh : 0xE0 ||| (codePoint >>> 12) = lead.toNat := by
      rw [Nat.shiftRight_eq_div_pow, show codePoint / 2 ^ 12 = bits by omega,
        show (0xE0 : Nat) = 14 <<< 4 from rfl, shiftLeft_or 4 hbits]
      omega
    have hmid : 0x80 ||| ((codePoint >>> 6) &&& 0x3F) = b1.toNat := by
      rw [continuation_or, Nat.shiftRight_eq_div_pow]
      omega
    have hlow : 0x80 ||| (codePoint &&& 0x3F) = b2.toNat := by
      rw [continuation_or]
      omega
    rw [codePointBytes, if_neg (by omega), if_neg (by omega), if_pos (by omega), hhigh, hmid, hlow]
    simp
  · obtain ⟨b1, c1, tail, rfl, hc1, hb1, hrest⟩ := continuationBytes_succ hrest
    obtain ⟨b2, c2, tail, rfl, hc2, hb2, hrest⟩ := continuationBytes_succ hrest
    obtain ⟨b3, c3, tail, rfl, hc3, hb3, hrest⟩ := continuationBytes_succ hrest
    obtain ⟨hcp, rfl⟩ : ((bits * 64 + c1) * 64 + c2) * 64 + c3 = codePoint ∧ tail = rest := by
      simpa [continuationBytes] using hrest
    have hhigh : 0xF0 ||| (codePoint >>> 18) = lead.toNat := by
      rw [Nat.shiftRight_eq_div_pow, show codePoint / 2 ^ 18 = bits by omega,
        show (0xF0 : Nat) = 30 <<< 3 from rfl, shiftLeft_or 3 hbits]
      omega
    have hmid1 : 0x80 ||| ((codePoint >>> 12) &&& 0x3F) = b1.toNat := by
      rw [continuation_or, Nat.shiftRight_eq_div_pow]
      omega
    have hmid2 : 0x80 ||| ((codePoint >>> 6) &&& 0x3F) = b2.toNat := by
      rw [continuation_or, Nat.shiftRight_eq_div_pow]
      omega
    have hlow : 0x80 ||| (codePoint &&& 0x3F) = b3.toNat := by
      rw [continuation_or]
      omega
    rw [codePointBytes, if_neg (by omega), if_neg (by omega), if_neg (by omega), hhigh, hmid1, hmid2, hlow]
    simp

theorem encodeUtf8_scalar {unit : Nat} (rest : List Nat) (hhigh : isHighSurrogate unit = false) :
    encodeUtf8 (unit :: rest) = if isLowSurrogate unit then none
        else (encodeUtf8 rest).map fun bytes => codePointBytes unit ++ bytes := by
  cases rest <;> simp [encodeUtf8, hhigh]

theorem encodeUtf8_codeUnits {length codePoint : Nat} (units : List Nat)
    (hvalid : malformedCodePoint length codePoint = false) : encodeUtf8 (codeUnits codePoint ++ units)
      = (encodeUtf8 units).map fun bytes => codePointBytes codePoint ++ bytes := by
  simp only [malformedCodePoint, Bool.or_eq_false_iff, Bool.and_eq_false_iff, beq_eq_false_iff_ne,
    decide_eq_false_iff_not] at hvalid
  rw [codeUnits]
  split
  · have hnotHigh : isHighSurrogate codePoint = false := by
      simp only [isHighSurrogate, Bool.and_eq_false_iff, decide_eq_false_iff_not]
      omega
    have hnotLow : isLowSurrogate codePoint = false := by
      simp only [isLowSurrogate, Bool.and_eq_false_iff, decide_eq_false_iff_not]
      omega
    simp [encodeUtf8_scalar units hnotHigh, hnotLow]
  have hmask := Nat.and_two_pow_sub_one_eq_mod (codePoint - 0x10000) 10
  have hhigh : isHighSurrogate (0xD800 + (codePoint - 0x10000) / 2 ^ 10) = true := by
    simp only [isHighSurrogate, Bool.and_eq_true, decide_eq_true_eq]
    omega
  have hlow : isLowSurrogate (0xDC00 + (codePoint - 0x10000) % 1024) = true := by
    simp only [isLowSurrogate, Bool.and_eq_true, decide_eq_true_eq]
    omega
  have hjoin : 0x10000 + (0xD800 + (codePoint - 0x10000) / 2 ^ 10 - 0xD800) * 2 ^ 10
      + (0xDC00 + (codePoint - 0x10000) % 1024 - 0xDC00) = codePoint := by
    omega
  simp only [Nat.shiftRight_eq_div_pow, hmask, List.cons_append, List.nil_append]
  rw [encodeUtf8, if_pos hhigh]
  simp only [hlow, if_true, Nat.shiftLeft_eq, hjoin]

variable {units : List Nat} {text : Bytes}

theorem encodeUtf8_decodeUtf8Loop {fuel : Nat}
    (h : decodeUtf8Loop fuel text = some units) : encodeUtf8 units = some text := by
  induction fuel generalizing text units with
  | zero =>
    cases text with
    | nil => simp only [decodeUtf8Loop, Option.some.injEq] at h; subst h; rfl
    | cons lead text => cases h
  | succ fuel ih =>
    cases text with
    | nil => simp only [decodeUtf8Loop, Option.some.injEq] at h; subst h; rfl
    | cons lead text =>
      simp only [decodeUtf8Loop, Option.bind_eq_bind, Option.bind_eq_some_iff, Prod.exists] at h
      obtain ⟨bits, length, hlead, codePoint, rest, hrest, h⟩ := h
      split at h
      · cases h
      rename_i hvalid
      rw [Bool.not_eq_true] at hvalid
      obtain ⟨tail, htail, heq⟩ := Option.bind_eq_some_iff.1 h
      obtain rfl : codeUnits codePoint ++ tail = units := by simpa using heq
      rw [encodeUtf8_codeUnits tail hvalid, ih htail, codePointBytes_of_decoded hlead hrest hvalid]
      rfl

/-- **Encoding undoes decoding.** -/
theorem encodeUtf8_decodeUtf8 (h : decodeUtf8 text = some units) : encodeUtf8 units = some text :=
  encodeUtf8_decodeUtf8Loop h

/-! ## Cutting between code units -/

/-- The cut separates the two units of a surrogate pair. -/
def SplitsPair (front back : List Nat) : Prop :=
  (∃ unit ∈ front.getLast?, isHighSurrogate unit) ∧ ∃ unit ∈ back.head?, isLowSurrogate unit

/-- Encodable units may be cut wherever no surrogate pair is separated, and the encodings of the two
parts then concatenate to the encoding of the whole. -/
theorem encodeUtf8_cut {front back : List Nat}
    (h : encodeUtf8 (front ++ back) = some text) (hcut : ¬SplitsPair front back) :
    ∃ left right, encodeUtf8 front = some left ∧ encodeUtf8 back = some right ∧ text = left ++ right := by
  induction front using encodeUtf8.induct generalizing text with
  | case1 => exact ⟨[], text, rfl, h, rfl⟩
  | case2 unit hhigh =>
    -- A high surrogate ends the front, so its partner would have to open the back.
    refine absurd ⟨⟨unit, by simp, hhigh⟩, ?_⟩ hcut
    cases back with
    | nil => simp [encodeUtf8, hhigh] at h
    | cons low back =>
      by_cases hlow : isLowSurrogate low
      · exact ⟨low, by simp, hlow⟩
      · simp [encodeUtf8, hhigh, hlow] at h
  | case3 unit hhigh low rest hlow ih =>
    have hrest : ¬SplitsPair rest back := by
      rintro ⟨⟨u, hu, hu'⟩, hb⟩
      refine hcut ⟨⟨u, ?_, hu'⟩, hb⟩
      rw [List.getLast?_cons, List.getLast?_cons, hu]
      rfl
    simp only [List.cons_append, encodeUtf8, hhigh, hlow, if_true] at h ⊢
    obtain ⟨tail, htail, rfl⟩ := Option.map_eq_some_iff.1 h
    obtain ⟨left, right, hl, hr, rfl⟩ := ih htail hrest
    exact ⟨_, right, by rw [hl]; rfl, hr, by simp⟩
  | case4 unit hhigh low rest hlow => simp [encodeUtf8, hhigh, hlow] at h
  | case5 unit rest hhigh hlow =>
    simp [encodeUtf8_scalar, hhigh, hlow] at h
  | case6 unit rest hhigh hlow ih =>
    have hrest : ¬SplitsPair rest back := by
      rintro ⟨⟨u, hu, hu'⟩, hb⟩
      refine hcut ⟨⟨u, ?_, hu'⟩, hb⟩
      rw [List.getLast?_cons, hu]
      rfl
    rw [Bool.not_eq_true] at hhigh
    rw [List.cons_append, encodeUtf8_scalar _ hhigh, if_neg hlow] at h
    rw [encodeUtf8_scalar _ hhigh, if_neg hlow]
    obtain ⟨tail, htail, rfl⟩ := Option.map_eq_some_iff.1 h
    obtain ⟨left, right, hl, hr, rfl⟩ := ih htail hrest
    exact ⟨_, right, by rw [hl]; rfl, hr, by simp⟩

theorem overlapRound_spec {tail b : List Nat} {headLength maxCandidates length : Nat}
    (h : overlapRound tail b headLength maxCandidates = some length) :
    length ≤ tail.length ∧ length ≤ b.length ∧ tail.drop (tail.length - length) = b.take length := by
  have hmatch := List.find?_some h
  have hmem := List.mem_of_find?_eq_some h
  simp only [Bool.and_eq_true, decide_eq_true_eq] at hmatch
  obtain ⟨position, -, rfl⟩ := List.mem_map.1 hmem
  exact ⟨Nat.sub_le _ _, hmatch⟩

theorem overlapUnits_spec (a b : List Nat) (scan probe maxCandidates : Nat) :
    overlapUnits a b scan probe maxCandidates ≤ a.length ∧ overlapUnits a b scan probe maxCandidates ≤ b.length ∧
      a.drop (a.length - overlapUnits a b scan probe maxCandidates)
        = b.take (overlapUnits a b scan probe maxCandidates) := by
  rw [overlapUnits]
  split
  · simp
  simp only
  generalize List.filter _ _ = heads
  cases hfound : heads.findSome? fun headLength =>
      overlapRound (a.drop (a.length - scan)) b headLength maxCandidates with
  | none => simp
  | some length =>
    obtain ⟨headLength, -, hround⟩ := List.exists_of_findSome?_eq_some hfound
    obtain ⟨htail, hb, heq⟩ := overlapRound_spec hround
    simp only [List.length_drop] at htail heq
    rw [List.drop_drop] at heq
    have hindex : a.length - scan + (a.length - (a.length - scan) - length) = a.length - length := by omega
    rw [hindex] at heq
    exact ⟨by simp only [Option.getD_some]; omega, hb, heq⟩

/-- The cut tested by the source, two adjacent units forming a pair, is `SplitsPair`. -/
theorem splitsPair_iff_units {count : Nat} (hpos : 0 < count) (hcount : count ≤ units.length):
    SplitsPair (units.take count) (units.drop count)
      ↔ ((units[count - 1]?.any isHighSurrogate) && (units[count]?.any isLowSurrogate)) = true := by
  rw [SplitsPair, List.getLast?_take, List.head?_drop, if_neg (by omega), Bool.and_eq_true]
  have hlast : units[count - 1]? = some units[count - 1] := List.getElem?_eq_getElem (by omega)
  rw [hlast]
  cases units[count]? <;> simp

/-- Truncating a decodable text at a boundary between code points keeps exactly the later units. -/
theorem truncateFrontUtf16_of_cut {count : Nat}
    (hdecode : decodeUtf8 text = some units) (hcount : count < units.length)
    (hcut : ¬SplitsPair (units.take count) (units.drop count)) :
    ∃ kept, truncateFrontUtf16 text count = .ok kept ∧ encodeUtf8 (units.drop count) = some kept := by
  have hencode := encodeUtf8_decodeUtf8 hdecode
  by_cases hzero : count = 0
  · subst hzero
    exact ⟨text, by simp [truncateFrontUtf16], hencode⟩
  rw [← List.take_append_drop count units] at hencode
  obtain ⟨_, kept, -, hkept, -⟩ := encodeUtf8_cut hencode hcut
  refine ⟨kept, ?_, hkept⟩
  rw [splitsPair_iff_units (by omega) hcount.le] at hcut
  rw [truncateFrontUtf16, if_neg hzero, hdecode]
  simp only [if_neg (show ¬count ≥ units.length by omega), if_neg hcut, hkept]

end CodingHarness.Chord
