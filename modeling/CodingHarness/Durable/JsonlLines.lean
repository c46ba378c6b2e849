import CodingHarness.Library.Lines
import CodingHarness.Support.JsonGrammar

/-!
# The lines of a JSONL file

`JsonlStorage.cpp` reads a file as its complete lines, refuses a line that is not UTF-8 and cuts off a
torn last line. The writer of `support/Json.cpp` puts the bytes of a string out as they are, so a line
it wrote is readable again when the strings in it are UTF-8 (`validUtf8_writeJson`); it never writes a
newline (`newline_notMem_writeJson`).
-/

namespace CodingHarness.Durable

open Library Library.Double Support
open List (mem_cons_of_mem mem_cons_self)

/-! ## UTF-8 -/

/-- The length that a lead byte from `0x80` on announces, and its payload bits. -/
def sequenceLength (byte : Nat) : Option (Nat × Nat) := if byte &&& 0xE0 = 0xC0 then some (2, byte &&& 0x1F)
  else if byte &&& 0xF0 = 0xE0 then some (3, byte &&& 0x0F)
  else if byte &&& 0xF8 = 0xF0 then some (4, byte &&& 0x07)
  else none

/-- Fold the continuation bytes of a sequence into its code point. -/
def codePointOf : Nat → Bytes → Option Nat
  | codePoint, [] => some codePoint
  | codePoint, byte :: rest =>
    if byte.toNat &&& 0xC0 ≠ 0x80 then none
    else codePointOf ((codePoint <<< 6) ||| (byte.toNat &&& 0x3F)) rest

/-- An overlong form, a value above `0x10FFFF` or a surrogate. -/
def illFormed (length codePoint : Nat) : Bool :=
  decide (codePoint < (if length = 2 then 0x80 else if length = 3 then 0x800 else 0x10000)) ||
    decide (0x10FFFF < codePoint) || (decide (0xD800 ≤ codePoint) && decide (codePoint ≤ 0xDFFF))

/-- A sequence of a lead byte and its continuation bytes is well formed. -/
def validSequence (byte : UInt8) (continuation : Bytes) : Bool := match sequenceLength byte.toNat with
  | none => false
  | some (length, bits) =>
    decide (continuation.length + 1 = length) &&
      (codePointOf bits continuation).any fun codePoint => !illFormed length codePoint

/-- The loop of `valid_utf8`. Every round consumes a byte, so the length is enough fuel. -/
def validUtf8Loop : Nat → Bytes → Bool
  | _, [] => true
  | 0, _ :: _ => false
  | fuel + 1, byte :: rest =>
    if byte < 0x80 then validUtf8Loop fuel rest
    else
      match sequenceLength byte.toNat with
      | none => false
      | some (length, _) =>
        validSequence byte (rest.take (length - 1)) && validUtf8Loop fuel (rest.drop (length - 1))

def validUtf8 (text : Bytes) : Bool := validUtf8Loop text.length text

/-- The texts that `validUtf8` accepts, as sequences of whole characters. -/
inductive Utf8 : Bytes → Prop where
  | nil : Utf8 []
  | ascii {byte : UInt8} {rest : Bytes} (plain : byte < 0x80) (more : Utf8 rest) :
      Utf8 (byte :: rest)
  | sequence {byte : UInt8} {continuation rest : Bytes} (lead : ¬ byte < 0x80)
      (valid : validSequence byte continuation = true) (more : Utf8 rest) :
      Utf8 (byte :: (continuation ++ rest))

variable {continuation : Bytes} {byte : UInt8}

theorem validSequence_length (h : validSequence byte continuation = true) :
    ∃ bits, sequenceLength byte.toNat = some (continuation.length + 1, bits) := by
  rw [validSequence] at h
  split at h
  · cases h
  rename_i length bits hlen
  simp only [Bool.and_eq_true, decide_eq_true_eq] at h
  exact ⟨bits, by rw [hlen, h.1]⟩

variable {text : Bytes}

theorem Utf8.of_loop {fuel : Nat} (h : validUtf8Loop fuel text = true) : Utf8 text := by
  induction fuel generalizing text with
  | zero =>
    cases text with
    | nil => exact .nil
    | cons byte rest => simp [validUtf8Loop] at h
  | succ fuel ih =>
    cases text with
    | nil => exact .nil
    | cons byte rest =>
      rw [validUtf8Loop] at h
      split at h
      · rename_i hplain
        exact .ascii hplain (ih h)
      rename_i hlead
      split at h
      · cases h
      rename_i length bits hlen
      rw [Bool.and_eq_true] at h
      rw [← List.take_append_drop (length - 1) rest]
      exact .sequence hlead h.1 (ih h.2)

theorem Utf8.loop (h : Utf8 text) {fuel : Nat} (hfuel : text.length ≤ fuel) : validUtf8Loop fuel text = true := by
  induction h generalizing fuel with
  | nil => cases fuel <;> rfl
  | ascii plain more ih =>
    cases fuel with
    | zero => simp at hfuel
    | succ fuel =>
      rw [validUtf8Loop, if_pos plain]
      exact ih (by simpa using hfuel)
  | @sequence byte continuation rest lead valid more ih =>
    cases fuel with
    | zero => simp at hfuel
    | succ fuel =>
      obtain ⟨bits, hlen⟩ := validSequence_length valid
      have hrest : validUtf8Loop fuel rest = true :=
        ih (by simp only [List.length_cons, List.length_append] at hfuel; omega)
      rw [validUtf8Loop, if_neg lead]
      simp [hlen, valid, hrest]

theorem validUtf8_iff (text : Bytes) : validUtf8 text = true ↔ Utf8 text := ⟨Utf8.of_loop, fun h => h.loop le_rfl⟩

theorem Utf8.append {front back : Bytes} (hfront : Utf8 front) (hback : Utf8 back) : Utf8 (front ++ back) := by
  induction hfront with
  | nil => exact hback
  | ascii plain more ih => exact .ascii plain ih
  | sequence lead valid more ih =>
    rw [List.cons_append, List.append_assoc]
    exact .sequence lead valid ih

theorem Utf8.of_ascii (h : ∀ byte ∈ text, byte < 0x80) : Utf8 text := by
  induction text with
  | nil => exact .nil
  | cons byte rest ih =>
    exact .ascii (h byte mem_cons_self) (ih fun b hb => h b (mem_cons_of_mem _ hb))

theorem codePointOf_continuation {codePoint : Nat} {bytes : Bytes} {result : Nat}
    (h : codePointOf codePoint bytes = some result) : ∀ byte ∈ bytes, ¬ byte < 0x80 := by
  induction bytes generalizing codePoint with
  | nil => simp
  | cons byte rest ih =>
    rw [codePointOf] at h
    split at h
    · cases h
    rename_i hmask
    have hhigh : ¬ byte < 0x80 := by
      rw [not_not] at hmask
      have hall : ∀ n : Fin 256, n.val &&& 0xC0 = 0x80 → 0x80 ≤ n.val := by
        decide +kernel
      have := hall ⟨byte.toNat, byte.toNat_lt⟩ hmask
      rw [UInt8.lt_iff_toNat_lt]
      simpa using this
    intro b hb
    rcases List.mem_cons.1 hb with rfl | hb
    · exact hhigh
    · exact ih h b hb

theorem validSequence_continuation (h : validSequence byte continuation = true) : ∀ b ∈ continuation, ¬ b < 0x80 := by
  rw [validSequence] at h
  split at h
  · cases h
  simp only [Bool.and_eq_true, Option.any_eq_true] at h
  obtain ⟨-, codePoint, hfold, -⟩ := h
  exact codePointOf_continuation hfold

/-! ## What the writer puts out -/

/-- A byte of a line: no control character. -/
def Printable (byte : UInt8) : Prop := 0x20 ≤ byte

def Plain (byte : UInt8) : Prop := 0x20 ≤ byte ∧ byte < 0x80

instance (byte : UInt8) : Decidable (Plain byte) := inferInstanceAs (Decidable (_ ∧ _))

theorem plain_of_all (h : text.all (decide <| Plain ·) = true) : ∀ b ∈ text, Plain b := by
  simpa using h

theorem plain_escapeByte (byte : UInt8) (h : byte < 0x80) : ∀ b ∈ escapeByte byte, Plain b := by
  have hall : ∀ n : Fin 128, (escapeByte (UInt8.ofNat n.val)).all (decide <| Plain ·) = true := by
    decide +kernel
  have hn : byte.toNat < 128 := by
    rw [UInt8.lt_iff_toNat_lt] at h
    simpa using h
  have hbyte := plain_of_all (hall ⟨byte.toNat, hn⟩)
  simpa using hbyte

theorem escapeByte_of_high (h : ¬ byte < 0x80) : escapeByte byte = [byte] := by
  have hall : ∀ n : Fin 256, 128 ≤ n.val → escapeByte (UInt8.ofNat n.val) = [UInt8.ofNat n.val] := by
    decide +kernel
  have hn : 128 ≤ byte.toNat := by
    rw [UInt8.lt_iff_toNat_lt] at h
    simpa using h
  simpa using hall ⟨byte.toNat, byte.toNat_lt⟩ hn

theorem printable_escapeByte (byte : UInt8) : ∀ b ∈ escapeByte byte, Printable b := by
  by_cases h : byte < 0x80
  · exact fun b hb => (plain_escapeByte byte h b hb).1
  rw [escapeByte_of_high h]
  intro b hb
  rw [List.mem_singleton.1 hb, Printable]
  exact UInt8.le_trans (by decide) (UInt8.not_lt.1 h)

theorem flatMap_escapeByte_of_high (h : ∀ byte ∈ text, ¬ byte < 0x80) : text.flatMap escapeByte = text := by
  induction text with
  | nil => rfl
  | cons byte rest ih =>
    rw [List.flatMap_cons, escapeByte_of_high (h byte mem_cons_self), ih fun b hb => h b (mem_cons_of_mem _ hb)]
    rfl

theorem Utf8.escape (h : Utf8 text) : Utf8 (text.flatMap escapeByte) := by
  induction h with
  | nil => exact .nil
  | @ascii byte rest plain more ih =>
    exact (Utf8.of_ascii fun b hb => (plain_escapeByte byte plain b hb).2).append ih
  | @sequence byte continuation rest lead valid more ih =>
    rw [List.flatMap_cons, escapeByte_of_high lead, List.flatMap_append,
      flatMap_escapeByte_of_high (validSequence_continuation valid), List.singleton_append]
    exact .sequence lead valid ih

theorem plain_digitBytes {digits : List Nat} (h : ∀ digit ∈ digits, digit < 10) :
    ∀ b ∈ digitBytes digits, Plain b := by
  intro b hb
  obtain ⟨digit, hmem, rfl⟩ := List.mem_map.1 hb
  have hall : ∀ n : Fin 10, Plain (UInt8.ofNat (0x30 + n.val)) := by decide
  exact hall ⟨digit, h digit hmem⟩

theorem dropTrailingZeros_subset (digits : List Nat) : ∀ digit ∈ dropTrailingZeros digits, digit ∈ digits := by
  cases digits with
  | nil => simp [dropTrailingZeros]
  | cons first rest =>
    intro digit hmem
    rcases List.mem_cons.1 hmem with rfl | hmem
    · exact mem_cons_self
    rw [List.mem_reverse] at hmem
    have := (List.dropWhile_sublist _).subset hmem
    exact mem_cons_of_mem _ (List.mem_reverse.1 this)

theorem plain_layoutNumber {digits : List Nat} (h : ∀ digit ∈ digits, digit < 10)
    (decimalExponent : Int) : ∀ b ∈ layoutNumber digits decimalExponent, Plain b := by
  have hzeros : ∀ count, ∀ digit ∈ List.replicate count 0, digit < 10 := by
    intro count digit hmem
    rw [List.eq_of_mem_replicate hmem]
    decide
  have htake : ∀ n, ∀ b ∈ digitBytes (digits.take n), Plain b := fun n =>
    plain_digitBytes fun digit hmem => h digit (List.mem_of_mem_take hmem)
  have hdrop : ∀ n, ∀ b ∈ digitBytes (digits.drop n), Plain b := fun n =>
    plain_digitBytes fun digit hmem => h digit (List.mem_of_mem_drop hmem)
  have hpoint : Plain 0x2E := by decide
  rw [layoutNumber]
  split
  · split
    · dsimp only
      split
      · refine plain_digitBytes fun digit hmem => ?_
        rcases List.mem_append.1 hmem with hmem | hmem
        · exact h digit hmem
        · exact hzeros _ digit hmem
      intro b hb
      rcases List.mem_append.1 hb with hb | hb
      · exact htake _ b hb
      rcases List.mem_cons.1 hb with rfl | hb
      · exact hpoint
      · exact hdrop _ b hb
    · intro b hb
      rcases List.mem_append.1 hb with hb | hb
      · have hstart : ∀ b ∈ ([0x30, 0x2E] : Bytes), Plain b := plain_of_all rfl
        exact hstart b hb
      refine plain_digitBytes (fun digit hmem => ?_) b hb
      rcases List.mem_append.1 hmem with hmem | hmem
      · exact hzeros _ digit hmem
      · exact h digit hmem
  · intro b hb
    rcases List.mem_append.1 hb with hb | hb
    · rcases List.mem_append.1 hb with hb | hb
      · exact htake 1 b hb
      · split at hb
        · rcases List.mem_cons.1 hb with rfl | hb
          · exact hpoint
          · exact hdrop 1 b hb
        · cases hb
    rcases List.mem_cons.1 hb with rfl | hb
    · decide
    rcases List.mem_append.1 hb with hb | hb
    · split at hb
      · rw [List.mem_singleton.1 hb]
        decide
      · cases hb
    · exact plain_digitBytes (digitsOf_lt _) b hb

theorem plain_formatNumber (value : Double) : ∀ b ∈ formatNumber value, Plain b := by
  cases value with
  | nan => exact plain_of_all rfl
  | infinity negative => exact plain_of_all rfl
  | zero negative => cases negative <;> exact plain_of_all rfl
  | finite negative mantissa exponent representable =>
    intro b hb
    rcases List.mem_append.1 hb with hb | hb
    · split at hb
      · rw [List.mem_singleton.1 hb]
        decide
      · cases hb
    · exact plain_layoutNumber (fun digit hmem => digitsOf_lt _ digit (dropTrailingZeros_subset _ digit hmem)) _ b hb

/-! ## Written lines -/

mutual
/-- Every string and every key of a value is UTF-8. -/
def isUtf8 : Json → Bool
  | .string text => validUtf8 text
  | .array items => isUtf8Items items
  | .object members => isUtf8Members members
  | _ => true
def isUtf8Items : List Json → Bool
  | [] => true
  | item :: rest => isUtf8 item && isUtf8Items rest
def isUtf8Members : List (Bytes × Json) → Bool
  | [] => true
  | (key, value) :: rest => validUtf8 key && (isUtf8 value && isUtf8Members rest)
end

theorem isUtf8Items_iff (items : List Json) : isUtf8Items items = true ↔ ∀ item ∈ items, isUtf8 item = true := by
  induction items with
  | nil => simp [isUtf8Items]
  | cons item rest ih => simp [isUtf8Items, ih]

theorem isUtf8Members_iff (members : List (Bytes × Json)) :
    isUtf8Members members = true ↔ ∀ m ∈ members, validUtf8 m.1 = true ∧ isUtf8 m.2 = true := by
  induction members with
  | nil => simp [isUtf8Members]
  | cons m rest ih =>
    simp [isUtf8Members, ih, and_assoc]

/-- What every value contributes to a line: no control character, and UTF-8 when its strings are. -/
def LineText (text : Bytes) (utf8 : Prop) : Prop := (∀ b ∈ text, Printable b) ∧ (utf8 → Utf8 text)

theorem LineText.of_plain (utf8 : Prop) (h : ∀ b ∈ text, Plain b) : LineText text utf8 :=
  ⟨fun b hb => (h b hb).1, fun _ => Utf8.of_ascii fun b hb => (h b hb).2⟩

theorem LineText.append {front back : Bytes} {p q : Prop} (hfront : LineText front p)
    (hback : LineText back q) : LineText (front ++ back) (p ∧ q) := by
  refine ⟨fun b hb => ?_, fun h => (hfront.2 h.1).append (hback.2 h.2)⟩
  rcases List.mem_append.1 hb with hb | hb
  · exact hfront.1 b hb
  · exact hback.1 b hb

theorem LineText.mono {p q : Prop} (h : LineText text p) (hpq : q → p) : LineText text q :=
  ⟨h.1, fun hq => h.2 (hpq hq)⟩

theorem lineText_writeString (text : Bytes) : LineText (writeString text) (validUtf8 text = true) := by
  have hbody : LineText (text.flatMap escapeByte) (validUtf8 text = true) := by
    refine ⟨fun b hb => ?_, fun h => ((validUtf8_iff text).1 h).escape⟩
    obtain ⟨byte, -, hmem⟩ := List.mem_flatMap.1 hb
    exact printable_escapeByte byte b hmem
  have hquote : LineText [0x22] True := .of_plain True (plain_of_all rfl)
  exact (hquote.append (hbody.append hquote)).mono fun h => ⟨trivial, h, trivial⟩

theorem lineText_comma (first : Bool) : LineText (if first then [] else [0x2C]) True :=
  .of_plain True (by cases first <;> exact plain_of_all rfl)

theorem lineText_writeItems {items : List Json}
    (h : ∀ item ∈ items, LineText (writeValue item) (isUtf8 item = true)) (first : Bool) :
    LineText (writeItems first items) (∀ item ∈ items, isUtf8 item = true) := by
  induction items generalizing first with
  | nil => exact .of_plain _ (by simp [writeItems])
  | cons item rest ih =>
    have hrest := ih (fun v hv => h v (mem_cons_of_mem _ hv)) false
    refine ((lineText_comma first).append ((h item mem_cons_self).append hrest)).mono ?_
    exact fun hall => ⟨trivial, hall item mem_cons_self, fun v hv => hall v (mem_cons_of_mem _ hv)⟩

theorem lineText_writeMembers {members : List (Bytes × Json)}
    (h : ∀ m ∈ members, LineText (writeValue m.2) (isUtf8 m.2 = true)) (first : Bool) :
    LineText (writeMembers first members) (∀ m ∈ members, validUtf8 m.1 = true ∧ isUtf8 m.2 = true) := by
  induction members generalizing first with
  | nil => exact .of_plain _ (by simp [writeMembers])
  | cons m rest ih =>
    obtain ⟨key, value⟩ := m
    have hrest := ih (fun v hv => h v (mem_cons_of_mem _ hv)) false
    have hcolon : LineText [0x3A] True := .of_plain True (plain_of_all rfl)
    have hvalue := h (key, value) mem_cons_self
    refine ((lineText_comma first).append ((lineText_writeString key).append
      (hcolon.append (hvalue.append hrest)))).mono ?_
    exact fun hall => ⟨trivial, (hall _ mem_cons_self).1, trivial,
      (hall _ mem_cons_self).2, fun v hv => hall v (mem_cons_of_mem _ hv)⟩

theorem lineText_writeValue (v : Json) : LineText (writeValue v) (isUtf8 v = true) := by
  induction v using Json.rec' with
  | hnull => exact .of_plain _ (plain_of_all rfl)
  | hbool flag => exact .of_plain _ (by cases flag <;> exact plain_of_all rfl)
  | hnum value => exact .of_plain _ (plain_formatNumber value)
  | hstr text => exact lineText_writeString text
  | harray items ih =>
    have hopen : LineText [0x5B] True := .of_plain True (plain_of_all rfl)
    have hclose : LineText [0x5D] True := .of_plain True (plain_of_all rfl)
    refine (hopen.append ((lineText_writeItems ih true).append hclose)).mono ?_
    exact fun h => ⟨trivial, (isUtf8Items_iff items).1 h, trivial⟩
  | hobj members ih =>
    have hopen : LineText [0x7B] True := .of_plain True (plain_of_all rfl)
    have hclose : LineText [0x7D] True := .of_plain True (plain_of_all rfl)
    refine (hopen.append ((lineText_writeMembers ih true).append hclose)).mono ?_
    exact fun h => ⟨trivial, (isUtf8Members_iff members).1 h, trivial⟩

theorem newline_notMem_writeJson (v : Json) : (0x0A : UInt8) ∉ writeJson v := fun h =>
  absurd ((lineText_writeValue v).1 _ h) (by unfold Printable; decide)

/-! ## Reading lines -/

/-- A complete line with the offset of its first byte. -/
structure RawLine where
  text : Bytes
  start : Nat
  deriving DecidableEq

/-- Check the complete lines of a file from the line `number` on, which starts at `start`. -/
def checkLines (name : Bytes) : Nat → Nat → List Bytes → Expected (List RawLine)
  | _, _, [] => .ok []
  | start, number, text :: rest => do
      refuse (!validUtf8 text)
        (ofString "Invalid UTF-8 in complete " ++ name ++ ofString " line " ++ intText number)
      let lines ← checkLines name (start + text.length + 1) (number + 1) rest
      return ⟨text, start⟩ :: lines

def splitCompleteLines (bytes name : Bytes) : Expected (List RawLine) :=
  checkLines name 0 1 (Lines.split 0x0A bytes)

/-- `read_complete_lines`: the complete lines, and the file without its torn line. -/
def readCompleteLines (bytes name : Bytes) : Expected (List RawLine × Bytes) := do
  let complete := Lines.completePrefix 0x0A bytes
  let lines ← splitCompleteLines complete name
  return (lines, complete)

/-- The lines of a file with their offsets. -/
def rawLines : Nat → List Bytes → List RawLine
  | _, [] => []
  | start, text :: rest => ⟨text, start⟩ :: rawLines (start + text.length + 1) rest

end CodingHarness.Durable
