import CodingHarness.Tui.TextUnits

/-!
# Paste markers

A marker carries its paste's number as text, and `forget_paste` replaces the number there. The replacement
succeeds on every text with a space after its first number sign (`exists_renumberMarker`), and it turns
the marker of one number into the marker of another (`renumberMarker_markerFor`).
-/

namespace CodingHarness.Tui

open Library Support
open List (append_assoc cons_append idxOf?_cons)

def numberStart (marker : Bytes) : Nat := (marker.idxOf? 0x23).elim 0 (· + 1)

/-- The number of a marker ends at a space. -/
def Renumberable (marker : Bytes) : Prop := 0x20 ∈ marker.drop (numberStart marker)

variable {byte : UInt8}

theorem idxOf?_append_of_mem {a b : Bytes} (h : byte ∈ a) : (a ++ b).idxOf? byte = a.idxOf? byte := by
  induction a with
  | nil => cases h
  | cons first rest ih =>
    rw [cons_append, idxOf?_cons, idxOf?_cons]
    split
    · rfl
    next hne =>
    rcases List.mem_cons.1 h with rfl | hmem
    · exact absurd (beq_self_eq_true _) hne
    · rw [ih hmem]

theorem idxOf?_append_cons {before after : Bytes} (h : byte ∉ before) :
    (before ++ byte :: after).idxOf? byte = some before.length := by
  induction before with
  | nil => simp [idxOf?_cons]
  | cons first rest ih =>
    have hne : (first == byte) = false := by
      rw [beq_eq_false_iff_ne]
      rintro rfl
      exact h List.mem_cons_self
    rw [cons_append, idxOf?_cons, hne, ih fun hmem => h (List.mem_cons_of_mem _ hmem)]
    rfl

theorem digit_ne {n : Nat} (hbyte : byte < 0x30) : byte ∉ decimalText n := by
  intro hmem
  obtain ⟨digit, hdigit, rfl⟩ := List.mem_map.1 hmem
  have hlt := Double.digitsOf_lt n digit hdigit
  have hvalue : (UInt8.ofNat (0x30 + digit)).toNat = 0x30 + digit := by
    rw [UInt8.toNat_ofNat']
    omega
  have hsmall : (UInt8.ofNat (0x30 + digit)).toNat < 0x30 := UInt8.lt_iff_toNat_lt.1 hbyte
  omega

def markerHead : Bytes := "[paste #"

theorem drop_marker (rest : Bytes) : (markerHead ++ rest).drop (numberStart (markerHead ++ rest)) = rest := by
  rfl

/-- A marker is its head, its number and a tail that starts with a space and depends on the content. -/
theorem exists_markerFor (content : Bytes) :
    ∃ tail, ∀ id, markerFor id content = markerHead ++ (decimalText id ++ 0x20 :: tail) := by
  by_cases hlines : 10 < content.count 0x0A + 1
  · refine ⟨0x2B :: (decimalText (content.count 0x0A + 1) ++ ofString " lines]"), fun id => ?_⟩
    have hplus : ofString " +" = [0x20, 0x2B] := by decide
    simp only [markerFor, if_pos hlines, hplus, markerHead, append_assoc, cons_append, List.nil_append]
  refine ⟨decimalText (utf16CodeUnitCount content) ++ ofString " chars]", fun id => ?_⟩
  have hspace : ofString " " = [0x20] := by decide
  simp only [markerFor, if_neg hlines, hspace, markerHead, append_assoc, cons_append, List.nil_append]

theorem renumberable_markerFor (id : Nat) (content : Bytes) : Renumberable (markerFor id content) := by
  obtain ⟨tail, htail⟩ := exists_markerFor content
  rw [Renumberable, htail id, drop_marker]
  simp

theorem markerFor_ne_nil (id : Nat) (content : Bytes) : markerFor id content ≠ [] := by
  obtain ⟨tail, htail⟩ := exists_markerFor content
  rw [htail id]
  exact fun hnil => absurd (List.append_eq_nil_iff.1 hnil).1 (by decide)

/-- Replacing the number of a marker succeeds, and the result is such a text again. -/
theorem exists_renumberMarker {marker : Bytes} (h : Renumberable marker) (number : Nat) :
    ∃ text, renumberMarker marker number = some text ∧ Renumberable text ∧ text ≠ [] := by
  obtain ⟨before, after, hsplit, hprev⟩ := List.eq_append_cons_of_mem h
  have hindex : (marker.drop (numberStart marker)).idxOf? 0x20 = some before.length := by
    rw [hsplit]
    exact idxOf?_append_cons hprev
  have htail : marker.drop (numberStart marker + before.length) = 0x20 :: after := by
    rw [← List.drop_drop, hsplit, List.drop_left]
  have hres : renumberMarker marker number =
      some (marker.take (numberStart marker) ++ (decimalText number ++ 0x20 :: after)) := by
    have hindex' : (marker.drop ((marker.idxOf? 0x23).elim 0 (· + 1))).idxOf? 0x20 = some before.length := hindex
    rw [renumberMarker, hindex', Option.map_some, ← htail, append_assoc]
    rfl
  refine ⟨_, hres, ?_, by simp⟩
  -- The number starts where it did.
  have hstart : (marker.take (numberStart marker) ++ (decimalText number ++ 0x20 :: after)).drop
      (numberStart (marker.take (numberStart marker) ++ (decimalText number ++ 0x20 :: after))) =
      decimalText number ++ 0x20 :: after := by
    by_cases hhash : 0x23 ∈ marker
    · obtain ⟨front, back, rfl, hfront⟩ := List.eq_append_cons_of_mem hhash
      have hnum : numberStart (front ++ 0x23 :: back) = front.length + 1 := by
        rw [numberStart, idxOf?_append_cons hfront]
        rfl
      have htake : (front ++ 0x23 :: back).take (front.length + 1) = front ++ [0x23] := by
        rw [List.take_append, List.take_of_length_le (by omega)]
        simp
      rw [hnum, htake, append_assoc, List.singleton_append]
      rw [numberStart, idxOf?_append_cons hfront]
      simp
    have hnone : marker.idxOf? 0x23 = none := List.idxOf?_eq_none_iff.2 hhash
    have hzero : numberStart marker = 0 := by rw [numberStart, hnone]; rfl
    have hrest : (0x23 : UInt8) ∉ decimalText number ++ 0x20 :: after := by
      intro hmem
      rcases List.mem_append.1 hmem with hmem | hmem
      · exact digit_ne (by decide) hmem
      rcases List.mem_cons.1 hmem with heq | hmem
      · exact absurd heq (by decide)
      refine hhash (List.mem_of_mem_drop (i := numberStart marker) ?_)
      rw [hsplit]
      exact List.mem_append_right _ (List.mem_cons_of_mem _ hmem)
    rw [hzero, List.take_zero, List.nil_append, numberStart, List.idxOf?_eq_none_iff.2 hrest]
    rfl
  rw [Renumberable, hstart]
  simp

theorem renumberMarker_markerFor (id number : Nat) (content : Bytes) :
    renumberMarker (markerFor id content) number = some (markerFor number content) := by
  obtain ⟨tail, htail⟩ := exists_markerFor content
  have hspace : (0x20 : UInt8) ∉ decimalText id := digit_ne (by decide)
  have hstart : (markerFor id content).idxOf? 0x23 = some 7 := by
    rw [htail id, idxOf?_append_of_mem (by decide)]
    rfl
  have hdrop : (markerFor id content).drop 8 = decimalText id ++ 0x20 :: tail := by
    rw [htail id]
    rfl
  have hindex : ((markerFor id content).drop 8).idxOf? 0x20 = some (decimalText id).length := by
    rw [hdrop, idxOf?_append_cons hspace]
  have hrest : (markerFor id content).drop (8 + (decimalText id).length) = 0x20 :: tail := by
    rw [← List.drop_drop, hdrop, List.drop_left]
  have htake : (markerFor id content).take 8 = markerHead := by
    rw [htail id]
    rfl
  simp only [renumberMarker, hstart, Option.elim_some]
  rw [hindex, Option.map_some, htake, hrest, htail number, append_assoc]

end CodingHarness.Tui
