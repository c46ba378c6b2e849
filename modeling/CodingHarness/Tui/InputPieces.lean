import CodingHarness.Tui.StdinBuffer
import Mathlib.Data.List.TakeWhile

/-!
# Pieces of terminal input

What one turn of the extraction loop finds does not depend on the bytes that follow, with one exception:
two escapes at the end of the input are a sequence of their own, and a byte that opens a sequence splits
them (`nextPiece_append`). In particular a reply header is recognised before anything can complete it.
-/

namespace CodingHarness.Tui

open Library Support
open List (append_assoc length_append mem_cons)
open Bool (and_eq_true or_eq_true)

/-! ## Lengths -/

variable {kind : PieceKind}

theorem scanEscape_bounds {reply : Bool} {remaining : Bytes} {fuel stop n : Nat}
    (hfuel : fuel + stop = remaining.length + 1) (hstop : 1 ≤ stop)
    (h : scanEscape reply remaining fuel stop = some (kind, n)) : 0 < n ∧ n ≤ remaining.length := by
  induction fuel generalizing stop with
  | zero => cases h
  | succ fuel ih =>
    rw [scanEscape] at h
    split at h
    · obtain ⟨-, rfl⟩ := Prod.mk.inj (Option.some.inj h)
      omega
    split at h
    · next habort =>
      obtain ⟨-, rfl⟩ := Prod.mk.inj (Option.some.inj h)
      omega
    split at h
    · split at h <;> obtain ⟨-, rfl⟩ := Prod.mk.inj (Option.some.inj h) <;> omega
    · exact ih (by omega) (by omega) h
    · obtain ⟨-, rfl⟩ := Prod.mk.inj (Option.some.inj h)
      omega

theorem utf8SequenceLength_pos (lead : UInt8) : 0 < utf8SequenceLength lead := by
  unfold utf8SequenceLength
  split_ifs <;> omega

theorem nextPiece_advances : Advances nextPiece := by
  intro text kind n h
  cases text with
  | nil => cases h
  | cons first rest =>
    rw [nextPiece] at h
    split at h
    · exact scanEscape_bounds (by simp [Nat.add_comm]) le_rfl h
    split at h
    · cases h
    obtain ⟨-, rfl⟩ := Prod.mk.inj (Option.some.inj h)
    have := utf8SequenceLength_pos first
    rw [List.length_cons]
    omega

/-! ## Reply headers -/

/-- The bytes a header is made of, after its escape. -/
def IsPlain (c : UInt8) : Prop := 0x20 ≤ c ∧ c ≤ 0x7E

instance (c : UInt8) : Decidable (IsPlain c) := inferInstanceAs (Decidable (_ ∧ _))

variable {c : UInt8}

theorem isPlain_of_isDigit (h : isDigit c = true) : IsPlain c := by
  simp only [isDigit, and_eq_true, decide_eq_true_eq] at h
  exact ⟨UInt8.le_trans (by decide) h.1, UInt8.le_trans h.2 (by decide)⟩

theorem isPlain_of_isLowercase (h : isLowercase c = true) : IsPlain c := by
  simp only [isLowercase, and_eq_true, decide_eq_true_eq] at h
  exact ⟨UInt8.le_trans (by decide) h.1, UInt8.le_trans h.2 (by decide)⟩

/-- A condition on texts that some plain start of the text already decides. -/
def DecidedByPlain (p : Bytes → Bool) : Prop := ∀ text, p text = true →
    ∃ start, start <+: text ∧ (∀ more, p (start ++ more) = true) ∧ ∀ c ∈ start, IsPlain c

theorem takeWhile_append_of_stop {digits : Bytes} {stop : UInt8} (hdig : ∀ c ∈ digits, isDigit c)
    (hstop : isDigit stop = false) (more : Bytes) : (digits ++ stop :: more).takeWhile isDigit = digits ∧
      (digits ++ stop :: more).dropWhile isDigit = stop :: more := by
  rw [List.takeWhile_append_of_pos hdig, List.dropWhile_append_of_pos hdig]
  simp [hstop]

theorem matchesPalette_decided : DecidedByPlain matchesPalette := by
  intro text h
  simp only [matchesPalette, and_eq_true, decide_eq_true_eq, beq_iff_eq] at h
  obtain ⟨⟨hpos, hle⟩, hhead⟩ := h
  obtain ⟨rest, hrest⟩ : ∃ rest, text.dropWhile isDigit = 0x3B :: rest := by
    cases hdrop : text.dropWhile isDigit with
    | nil => rw [hdrop] at hhead; cases hhead
    | cons c rest => rw [hdrop] at hhead; exact ⟨rest, by rw [Option.some.inj hhead]⟩
  have hdig : ∀ c ∈ text.takeWhile isDigit, isDigit c = true := fun c hc =>
    List.mem_takeWhile_imp hc
  refine ⟨text.takeWhile isDigit ++ [0x3B], ⟨rest, ?_⟩, fun more => ?_, ?_⟩
  · rw [append_assoc, List.singleton_append, ← hrest, List.takeWhile_append_dropWhile]
  · obtain ⟨htake, hdrop⟩ := takeWhile_append_of_stop hdig (show isDigit 0x3B = false from rfl) more
    rw [append_assoc, List.singleton_append, matchesPalette, htake, hdrop]
    simp [hpos, hle]
  · intro c hc
    rcases List.mem_append.1 hc with hc | hc
    · exact isPlain_of_isDigit (hdig c hc)
    · rw [List.mem_singleton.1 hc]
      decide

theorem exists_digits_append (text : Bytes) :
    ∃ digits rest, text = digits ++ rest ∧ (∀ c ∈ digits, isDigit c = true) ∧
      text.takeWhile isDigit = digits ∧ text.dropWhile isDigit = rest :=
  ⟨_, _, List.takeWhile_append_dropWhile.symm, fun _ hc => List.mem_takeWhile_imp hc, rfl, rfl⟩

variable {text : Bytes}

theorem matchesKittyKeys_read {letter : UInt8} {digits : Bytes} (hletter : isLowercase letter = true)
    (hdig : ∀ c ∈ digits, isDigit c = true) (hsome : digits.isEmpty = false) (stop : UInt8) (more : Bytes)
    (enough : Nat) (hstop : isDigit stop = false) (henough : 1 ≤ enough) :
    matchesKittyKeys enough (letter :: 0x3D :: (digits ++ stop :: more)) = match stop :: more with
      | 0x2C :: later => matchesKittyKeys (enough - 1) later
      | 0x3B :: _ => true
      | _ => false := by
  obtain ⟨enough, rfl⟩ : ∃ n, enough = n + 1 := ⟨enough - 1, by omega⟩
  obtain ⟨htake, hdrop⟩ := takeWhile_append_of_stop hdig hstop more
  have hkey : (isLowercase letter && (0x3D : UInt8) == 0x3D && !digits.isEmpty) = true := by
    simp [hletter, hsome]
  rw [matchesKittyKeys, htake, hdrop, if_pos hkey]
  rfl

theorem matchesKittyKeys_decided {fuel : Nat} (h : matchesKittyKeys fuel text = true) :
    ∃ start, start <+: text ∧ (∀ c ∈ start, IsPlain c) ∧
      ∀ more enough, start.length ≤ enough → matchesKittyKeys enough (start ++ more) = true := by
  induction fuel generalizing text with
  | zero => cases text <;> cases h
  | succ fuel ih =>
    rcases text with _ | ⟨letter, _ | ⟨equals, after⟩⟩
    · cases h
    · cases h
    · obtain ⟨digits, rest, rfl, hdig, htake, hdrop⟩ := exists_digits_append after
      rw [matchesKittyKeys, htake, hdrop] at h
      split at h
      next hkey =>
        simp only [and_eq_true, beq_iff_eq, Bool.not_eq_true', List.isEmpty_eq_false_iff] at hkey
        obtain ⟨⟨hletter, rfl⟩, hsome⟩ := hkey
        -- One more key, or the end of the header, after the digits.
        have hplain : ∀ c ∈ letter :: 0x3D :: digits, IsPlain c := by
          intro c hc
          rcases List.mem_cons.1 hc with rfl | hc
          · exact isPlain_of_isLowercase hletter
          rcases List.mem_cons.1 hc with rfl | hc
          · decide
          · exact isPlain_of_isDigit (hdig c hc)
        have hread := matchesKittyKeys_read hletter hdig (List.isEmpty_eq_false_iff.2 hsome)
        split at h
        · next later =>
          obtain ⟨start, ⟨tail, rfl⟩, hstart, hmore⟩ := ih h
          refine ⟨letter :: 0x3D :: (digits ++ 0x2C :: start), ⟨tail, by simp⟩, ?_, ?_⟩
          · intro c hc
            simp only [mem_cons, List.mem_append] at hc
            rcases hc with rfl | rfl | hc | rfl | hc
            · exact hplain _ (by simp)
            · decide
            · exact hplain c (by simp [hc])
            · decide
            · exact hstart c hc
          intro more enough henough
          simp only [List.length_cons, length_append] at henough
          have := hread 0x2C (start ++ more) enough rfl (by omega)
          simp only [List.cons_append, append_assoc] at this ⊢
          rw [this]
          exact hmore more _ (by omega)
        · next later =>
          refine ⟨letter :: 0x3D :: (digits ++ [0x3B]), ⟨later, by simp⟩, ?_, ?_⟩
          · intro c hc
            simp only [mem_cons, List.mem_append, List.not_mem_nil, or_false] at hc
            rcases hc with rfl | rfl | hc | rfl
            · exact hplain _ (by simp)
            · decide
            · exact hplain c (by simp [hc])
            · decide
          intro more enough henough
          simp only [List.length_cons, length_append] at henough
          have := hread 0x3B more enough rfl (by omega)
          simp only [List.cons_append, append_assoc, List.nil_append] at this ⊢
          rw [this]
        · cases h
      next => cases h

variable {data : Bytes}

/-- A header that is recognised was recognised at its last byte, and only its first byte is an escape. -/
theorem header_decided (h : matchesTerminalReplyHeader data = true) :
    ∃ plain, esc :: plain <+: data ∧ (∀ c ∈ plain, IsPlain c) ∧
      ∀ more, matchesTerminalReplyHeader (esc :: plain ++ more) = true := by
  -- A fixed header decides itself.
  have hfixed : ∀ plain : Bytes, (esc :: plain).isPrefixOf data = true → (∀ c ∈ plain, IsPlain c) →
      (∀ more, matchesTerminalReplyHeader (esc :: plain ++ more) = true) →
      ∃ plain, esc :: plain <+: data ∧ (∀ c ∈ plain, IsPlain c) ∧
        ∀ more, matchesTerminalReplyHeader (esc :: plain ++ more) = true :=
    fun plain hprefix hplain hmore => ⟨plain, List.isPrefixOf_iff_prefix.1 hprefix, hplain, hmore⟩
  unfold matchesTerminalReplyHeader at h
  split at h
  · exact hfixed [0x50, 0x3E, 0x7C] h (by decide +kernel) fun more => rfl
  split at h
  · rw [or_eq_true, or_eq_true, or_eq_true, and_eq_true] at h
    rcases h with ((h | h) | h) | ⟨hopening, hpalette⟩
    · exact hfixed [0x5D, 0x31, 0x30, 0x3B] h (by decide +kernel) fun more => rfl
    · exact hfixed [0x5D, 0x31, 0x31, 0x3B] h (by decide +kernel) fun more => rfl
    · exact hfixed [0x5D, 0x37, 0x35, 0x30, 0x31, 0x3B, 0x3F] h (by decide +kernel) fun more => rfl
    · obtain ⟨tail, rfl⟩ := List.isPrefixOf_iff_prefix.1 hopening
      obtain ⟨start, ⟨rest, rfl⟩, hmore, hplain⟩ := matchesPalette_decided tail hpalette
      refine ⟨0x5D :: 0x34 :: 0x3B :: start, ⟨rest, by simp [oscStart, esc]⟩, ?_, fun more => ?_⟩
      · intro c hc
        simp only [mem_cons] at hc
        rcases hc with rfl | rfl | rfl | hc
        · decide
        · decide
        · decide
        · exact hplain c hc
      · exact hmore more
  · rw [and_eq_true] at h
    obtain ⟨hopening, hkeys⟩ := h
    obtain ⟨tail, rfl⟩ := List.isPrefixOf_iff_prefix.1 hopening
    obtain ⟨start, ⟨rest, hrest⟩, hplain, hmore⟩ := matchesKittyKeys_decided hkeys
    have htail : start ++ rest = tail := hrest
    subst htail
    refine ⟨0x5F :: 0x47 :: start, ⟨rest, by simp [apcStart, esc]⟩, ?_, fun more => ?_⟩
    · intro c hc
      simp only [mem_cons] at hc
      rcases hc with rfl | rfl | hc
      · decide
      · decide
      · exact hplain c hc
    have hread : matchesTerminalReplyHeader (esc :: (0x5F :: 0x47 :: start) ++ more) =
        matchesKittyKeys (start ++ more).length.succ.succ.succ (start ++ more) := rfl
    rw [hread]
    exact hmore more _ (by rw [length_append]; omega)

theorem isControlString_append (h : isControlString data = true) (more : Bytes) :
    isControlString (data ++ more) = true := by
  have hgrow : ∀ start : Bytes, start.isPrefixOf data = true →
      start.isPrefixOf (data ++ more) = true := fun start hstart =>
    List.isPrefixOf_iff_prefix.2 ((List.isPrefixOf_iff_prefix.1 hstart).trans (List.prefix_append data more))
  simp only [isControlString, or_eq_true] at h ⊢
  exact h.imp (Or.imp (hgrow _) (hgrow _)) (hgrow _)

/-- The reply flag of the extraction loop. -/
def isReply (data : Bytes) : Bool := isControlString data && matchesTerminalReplyHeader data

theorem isReply_append (h : isReply data = true) (more : Bytes) : isReply (data ++ more) = true := by
  obtain ⟨hcontrol, hheader⟩ := (and_eq_true _ _).mp h
  obtain ⟨plain, ⟨rest, hrest⟩, -, hmore⟩ := header_decided hheader
  refine (and_eq_true _ _).mpr ⟨isControlString_append hcontrol more, ?_⟩
  rw [← hrest, append_assoc]
  exact hmore _

/-! ## Unfinished control strings -/

def opensControl (c : UInt8) : Bool := c == 0x5D || c == 0x50 || c == 0x5F

theorem exists_of_isControlString (h : isControlString data = true) :
    ∃ second rest, data = esc :: second :: rest ∧ opensControl second = true := by
  simp only [isControlString, or_eq_true, List.isPrefixOf_iff_prefix] at h
  rcases h with (⟨rest, hrest⟩ | ⟨rest, hrest⟩) | ⟨rest, hrest⟩
  · exact ⟨0x5D, rest, hrest.symm, rfl⟩
  · exact ⟨0x50, rest, hrest.symm, rfl⟩
  · exact ⟨0x5F, rest, hrest.symm, rfl⟩

/-- A control string is complete at the terminator, or for a command also at a bell. -/
theorem isCompleteSequence_control {second : UInt8} {rest : Bytes} (h : opensControl second = true)
    (hend : ¬ stringEnd <:+ second :: rest) (hbell : ¬ [0x07] <:+ second :: rest) :
    isCompleteSequence (esc :: second :: rest) = .incomplete := by
  have hend' : stringEnd.isSuffixOf (esc :: second :: rest) = false := by
    rw [← Bool.not_eq_true, List.isSuffixOf_iff_suffix, List.suffix_cons_iff]
    rintro (heq | hsuffix)
    · have hsnd : second = 0x5C := (List.cons.inj (List.cons.inj heq).2).1.symm
      subst hsnd
      cases h
    · exact hend hsuffix
  have hbell' : [0x07].isSuffixOf (esc :: second :: rest) = false := by
    rw [← Bool.not_eq_true, List.isSuffixOf_iff_suffix, List.suffix_cons_iff]
    rintro (heq | hsuffix)
    · cases heq
    · exact hbell hsuffix
  simp only [opensControl, or_eq_true, beq_iff_eq] at h
  rcases h with (rfl | rfl) | rfl
  · simp [isCompleteSequence, isCompleteOsc, hend', hbell']
  · simp [isCompleteSequence, isCompleteString, hend']
  · simp [isCompleteSequence, isCompleteString, hend']

theorem header_of_longer {text more : Bytes} (hshort : isReply text = false) (hlong : isReply (text ++ more) = true) :
    ∃ plain, text <+: esc :: plain ∧ (∀ c ∈ plain, IsPlain c) ∧
      ∀ second rest, plain = second :: rest → opensControl second = true := by
  obtain ⟨hcontrol, hheader⟩ := (and_eq_true _ _).mp hlong
  obtain ⟨plain, hplain, hbytes, hmore⟩ := header_decided hheader
  obtain ⟨second, later, hshape, hsnd⟩ := exists_of_isControlString hcontrol
  have hopens : ∀ c tail, plain = c :: tail → opensControl c = true := by
    rintro c tail rfl
    rw [hshape] at hplain
    have hhead := List.cons_prefix_cons.1 (List.cons_prefix_cons.1 hplain).2
    rw [hhead.1]
    exact hsnd
  rcases List.prefix_or_prefix_of_prefix hplain (List.prefix_append text more) with
    hinside | hpartial
  · -- A header inside the shorter text would have been recognised.
    obtain ⟨tail, rfl⟩ := hinside
    have hcontrol' : isControlString (esc :: plain ++ tail) = true := by
      cases plain with
      | nil => exact absurd (hmore []) (by decide)
      | cons c tail' =>
        have hc := hopens c tail' rfl
        simp only [opensControl, or_eq_true, beq_iff_eq] at hc
        rcases hc with (rfl | rfl) | rfl <;> rfl
    rw [isReply, hcontrol', hmore tail] at hshort
    cases hshort
  · exact ⟨plain, hpartial, hbytes, hopens⟩

theorem isPlain_ne (h : IsPlain c) : c ≠ esc ∧ c ≠ 0x07 := by
  constructor <;> rintro rfl <;> exact absurd h (by decide)

/-- The start of a control string of plain bytes is not complete at any length. -/
theorem scanEscape_plain {plain : Bytes} (htext : text <+: esc :: plain)
    (hcontrol : ∀ second rest, plain = second :: rest → opensControl second = true)
    (hplain : ∀ c ∈ plain, IsPlain c) {fuel stop : Nat} (hstop : 1 ≤ stop)
    (hfuel : fuel + stop = text.length + 1) : scanEscape false text fuel stop = none := by
  induction fuel generalizing stop with
  | zero => rfl
  | succ fuel ih =>
    have hincomplete : isCompleteSequence (text.take stop) = .incomplete := by
      have hprefix : text.take stop <+: esc :: plain := (List.take_prefix _ _).trans htext
      cases htake : text.take stop with
      | nil =>
        have hlen := congrArg List.length htake
        rw [List.length_take, List.length_nil] at hlen
        omega
      | cons first rest =>
        rw [htake] at hprefix
        obtain ⟨rfl, hrest⟩ := List.cons_prefix_cons.1 hprefix
        cases rest with
        | nil => rfl
        | cons second rest =>
          obtain ⟨later, hlater⟩ := hrest
          have hinside : ∀ c ∈ second :: rest, IsPlain c := fun c hc =>
            hplain c (hlater ▸ List.mem_append_left _ hc)
          refine isCompleteSequence_control (hcontrol second (rest ++ later) hlater.symm) ?_ ?_
          · intro hsuffix
            have hmem : esc ∈ second :: rest := hsuffix.subset (by simp [stringEnd, esc])
            exact (isPlain_ne (hinside esc hmem)).1 rfl
          intro hsuffix
          have hmem : (0x07 : UInt8) ∈ second :: rest := hsuffix.subset (by simp)
          exact (isPlain_ne (hinside _ hmem)).2 rfl
    rw [scanEscape]
    simp only [Bool.false_eq_true, false_and, if_false, hincomplete]
    exact ih (by omega) (by omega)

/-! ## More input -/

theorem isCompleteSequence_reply_escape (hcontrol : isControlString data = true)
    (hlen : 2 < data.length) (hlast : data.getLast? = some esc) : isCompleteSequence data = .incomplete := by
  obtain ⟨second, rest, rfl, hsnd⟩ := exists_of_isControlString hcontrol
  have hlast' : (second :: rest).getLast? = some esc := by
    exact hlast
  have hends : ∀ last, last ≠ esc → ∀ front, ¬ front ++ [last] <:+ second :: rest := by
    rintro last hne front ⟨start, hstart⟩
    rw [← hstart, ← append_assoc, List.getLast?_append, List.getLast?_singleton] at hlast'
    exact hne (Option.some.inj hlast')
  exact isCompleteSequence_control hsnd (hends 0x5C (by decide) [esc])
    (hends 0x07 (by decide) [])

/-- What the inner loop finds before the end of the input does not change with more input. -/
theorem scanEscape_append {reply : Bool} (more : Bytes)
    (hcontrol : reply = true → isControlString text = true) {fuel stop n : Nat}
    (hfuel : fuel + stop = text.length + 1) (hstop : 1 ≤ stop)
    (h : scanEscape reply text fuel stop = some (kind, n)) :
    scanEscape reply (text ++ more) (fuel + more.length) stop = some (kind, n) ∨ (text = [esc, esc] ∧
        scanEscape reply (text ++ more) (fuel + more.length) stop = some (.sequence, 1)) := by
  induction fuel generalizing stop with
  | zero => cases h
  | succ fuel ih =>
    have hchar : (text ++ more)[stop - 1]? = text[stop - 1]? := List.getElem?_append_left (by omega)
    have htake : (text ++ more).take stop = text.take stop := List.take_append_of_le_length (by omega)
    rw [scanEscape] at h
    rw [Nat.add_right_comm, scanEscape, hchar, htake]
    split at h
    · next hcancel => exact .inl (by rw [if_pos hcancel]; exact h)
    next hcancel =>
    rw [if_neg hcancel]
    split at h
    · -- An abort is decided by a byte that is already there.
      next habort =>
        obtain ⟨hreply, hlong, hescape, hinside, hnext⟩ := habort
        have hsame : (text ++ more)[stop]? = text[stop]? := List.getElem?_append_left hinside
        refine .inl ?_
        rw [if_pos ⟨hreply, hlong, hescape, by rw [length_append]; omega, by rwa [hsame]⟩]
        exact h
    next habort =>
    by_cases hlate : reply = true ∧ 2 < stop ∧ text[stop - 1]? = some esc ∧
        stop < (text ++ more).length ∧ (text ++ more)[stop]? ≠ some 0x5C
    · -- The escape is the last byte of the text, and the text is not complete there.
      obtain ⟨hreply, hlong, hescape, -, hnext⟩ := hlate
      have hend : stop = text.length := by
        by_contra hne
        have hinside : stop < text.length := by omega
        rw [List.getElem?_append_left hinside] at hnext
        exact habort ⟨hreply, hlong, hescape, hinside, hnext⟩
      subst hend
      have hincomplete : isCompleteSequence (text.take text.length) = .incomplete := by
        rw [List.take_length]
        refine isCompleteSequence_reply_escape (hcontrol hreply) hlong ?_
        rw [List.getLast?_eq_getElem?]
        exact hescape
      obtain rfl : fuel = 0 := by omega
      rw [hincomplete] at h
      cases h
    · rw [if_neg hlate]
      cases hstat : isCompleteSequence (text.take stop) with
      | complete =>
        rw [hstat] at h
        by_cases hpair : text.take stop = [esc, esc]
        · -- Two escapes: the byte after them is looked at.
          have htwo : stop = 2 := by
            have hlen := congrArg List.length hpair
            simp at hlen
            omega
          subst htwo
          by_cases hinside : 2 < text.length
          · rw [List.getElem?_append_left hinside]
            exact .inl h
          have hwhole : text = [esc, esc] := by
            rw [List.take_of_length_le (by omega)] at hpair
            exact hpair
          subst hwhole
          by_cases hopens : opensSequence ([esc, esc] ++ more)[2]? = true
          · exact .inr ⟨rfl, by rw [if_pos ⟨rfl, hopens⟩]⟩
          · exact .inl (by rw [if_neg (fun hboth => hopens hboth.2)]; exact h)
        · rw [if_neg (fun hboth => hpair hboth.1)] at h
          exact .inl (by rw [if_neg (fun hboth => hpair hboth.1)]; exact h)
      | incomplete =>
        rw [hstat] at h
        exact ih (by omega) (by omega) h
      | notEscape =>
        rw [hstat] at h
        exact .inl h

/-- More input changes nothing that was found, except that two escapes may come apart. -/
theorem nextPiece_append (more : Bytes) {n : Nat} (h : nextPiece text = some (kind, n)) :
    nextPiece (text ++ more) = some (kind, n) ∨
      (text = [esc, esc] ∧ nextPiece (text ++ more) = some (.sequence, 1)) := by
  cases text with
  | nil => cases h
  | cons first rest =>
    rw [nextPiece] at h
    rw [List.cons_append, nextPiece]
    by_cases hesc : first = esc
    · subst hesc
      have hfuel : (rest ++ more).length + 1 = rest.length + 1 + more.length := by
        rw [length_append]
        omega
      have hreply : isReply (esc :: (rest ++ more)) = isReply (esc :: rest) := by
        cases hshort : isReply (esc :: rest) with
        | true => exact isReply_append hshort more
        | false =>
          by_contra hlong
          obtain ⟨plain, hpartial, hbytes, hopens⟩ := header_of_longer hshort (Bool.eq_true_of_not_eq_false hlong)
          have hnone := scanEscape_plain hpartial hopens hbytes le_rfl
            (show (rest.length + 1) + 1 = (esc :: rest).length + 1 from rfl)
          have hflag : (isControlString (esc :: rest) && matchesTerminalReplyHeader (esc :: rest)) = false := hshort
          rw [hflag, hnone] at h
          cases h
      have hlonger := scanEscape_append more
        (fun hflag : isReply (esc :: rest) = true => ((and_eq_true _ _).mp hflag).1)
        (show (rest.length + 1) + 1 = (esc :: rest).length + 1 from rfl) le_rfl h
      rw [show (isControlString (esc :: (rest ++ more)) &&
        matchesTerminalReplyHeader (esc :: (rest ++ more))) = isReply (esc :: rest) from hreply, hfuel]
      rcases hlonger with hsame | ⟨hpair, hsplit⟩
      · exact .inl hsame
      · exact .inr ⟨hpair, hsplit⟩
    · rw [if_neg hesc] at h ⊢
      split at h
      · cases h
      · next henough =>
        exact .inl (by rw [if_neg (by rw [length_append]; omega)]; exact h)

end CodingHarness.Tui
