import CodingHarness.Durable.Records

/-!
# Address keys

`document_address_key` writes the kind, the scope with its owner and the family member one after
another with a bar between them, and escapes nothing. The scope part holds no bar, so two keys that
split at the same place have equal parts. They may also split at different places: the kind of one
address then continues the key of the other inside its family key (`Overlaps`), and two documents
share a key. That is the only way for it to happen (`documentAddressKey_separates_iff`).
-/

namespace CodingHarness.Durable

open Library Support Chord
open List (append_nil cons_append nil_append)

/-! ## Parts of a key -/

namespace DocumentAddress

/-- The owner that the scope of an address names: its task, else its conversation. -/
def scopeOwner (address : DocumentAddress) : Option Int := address.taskId.or address.conversationId

def scopeText (address : DocumentAddress) : Bytes := documentScopeName address.scope ++ ofString ":" ++
    address.scopeOwner.elim (ofString "session") intText

def memberText (address : DocumentAddress) : Bytes :=
  address.key.elim "singleton" fun key => ofString "family:" ++ key

end DocumentAddress

open DocumentAddress

def bar : UInt8 := 0x7C

theorem documentAddressKey_eq (kind : Bytes) (address : DocumentAddress) : documentAddressKey kind address
      = kind ++ bar :: (address.scopeText ++ bar :: address.memberText) := by
  have hbar : ofString "|" = [bar] := by decide
  obtain ⟨conversationId, taskId, key⟩ := address
  cases taskId <;> cases conversationId <;> cases key <;>
    simp [documentAddressKey, scopeText, scopeOwner, memberText, hbar]

/-! ## Decimal texts -/

theorem repr_injective {a b : Nat} (h : a.repr = b.repr) : a = b := by
  have hdig : Nat.toDigits 10 a = Nat.toDigits 10 b := by
    rw [← Nat.toList_repr, ← Nat.toList_repr, h]
  rw [← @Nat.ofDigitChars_ten_toDigits a, ← @Nat.ofDigitChars_ten_toDigits b, hdig]

theorem isDigit_of_mem_repr {n : Nat} {c : Char} (h : c ∈ n.repr.toList) : c.isDigit = true := by
  rw [Nat.toList_repr] at h
  exact Nat.isDigit_of_mem_toDigits (by decide) (by decide) h

theorem repr_ne_minus {m n : Nat} : m.repr ≠ "-" ++ n.repr := by
  intro h
  have hmem : '-' ∈ m.repr.toList := by
    rw [h]
    simp
  exact absurd (isDigit_of_mem_repr hmem) (by decide)

theorem intText_injective {a b : Int} (h : intText a = intText b) : a = b := by
  rw [intText, intText, ofString_inj, Int.toString_eq_repr, Int.toString_eq_repr, Int.repr_eq_if, Int.repr_eq_if] at h
  split at h <;> split at h
  · have := repr_injective h
    omega
  · exact (repr_ne_minus h).elim
  · exact (repr_ne_minus h.symm).elim
  · rw [String.append_right_inj] at h
    have := repr_injective h
    omega

theorem bar_notMem_ofString {text : String}
    (h : ∀ c ∈ text.toList, c.isDigit = true ∨ c = '-') : bar ∉ ofString text := by
  intro hmem
  obtain ⟨c, hc, hbyte⟩ := List.mem_flatMap.1 hmem
  rcases h c hc with hdigit | rfl
  · have hrange : 48 ≤ c.val.toNat ∧ c.val.toNat ≤ 57 := by
      simpa [Char.isDigit, UInt32.le_iff_toNat_le] using hdigit
    rw [String.utf8EncodeChar, if_pos (by omega)] at hbyte
    have hcode := congrArg UInt8.toNat (List.mem_singleton.1 hbyte)
    simp only [bar, UInt8.toNat_ofNat'] at hcode
    have hbar : (0x7C : UInt8).toNat = 124 := rfl
    omega
  · exact absurd hbyte (by decide)

theorem digit_or_minus {n : Int} {c : Char} (hc : c ∈ (toString n).toList) : c.isDigit = true ∨ c = '-' := by
  rw [Int.toString_eq_repr, Int.repr_eq_if] at hc
  split at hc
  · exact Or.inl (isDigit_of_mem_repr hc)
  rw [String.toList_append, List.mem_append] at hc
  rcases hc with hc | hc
  · exact Or.inr (by simpa using hc)
  · exact Or.inl (isDigit_of_mem_repr hc)

theorem bar_notMem_intText (n : Int) : bar ∉ intText n := bar_notMem_ofString fun _ hc => digit_or_minus hc

/-! ## Where two keys split -/

theorem separated_inj {a b x y : Bytes} (ha : bar ∉ a) (hb : bar ∉ b)
    (h : a ++ bar :: x = b ++ bar :: y) : a = b ∧ x = y := by
  rcases List.append_eq_append_iff.1 h with ⟨c, hab, hc⟩ | ⟨c, hab, hc⟩
  · cases c with
    | nil =>
      rw [append_nil] at hab
      exact ⟨hab.symm, (List.cons.inj hc).2⟩
    | cons first rest =>
      -- A longer part would begin with the separator after the shorter one.
      rw [hab, ← (List.cons.inj hc).1] at hb
      exact (hb (by simp)).elim
  cases c with
  | nil =>
    rw [append_nil] at hab
    exact ⟨hab, ((List.cons.inj hc).2).symm⟩
  | cons first rest =>
    rw [hab, ← (List.cons.inj hc).1] at ha
    exact (ha (by simp)).elim

theorem bar_notMem_scopeText (address : DocumentAddress) : bar ∉ address.scopeText := by
  have hname : bar ∉ documentScopeName address.scope := by
    cases address.scope <;> decide
  have howner : bar ∉ address.scopeOwner.elim (ofString "session") intText := by
    cases address.scopeOwner with
    | none => decide
    | some owner => exact bar_notMem_intText owner
  rw [scopeText, List.mem_append, List.mem_append, not_or, not_or]
  exact ⟨⟨hname, by decide⟩, howner⟩

def scopeInitial : DocumentScope → UInt8
  | .session => 0x73
  | .conversation => 0x63
  | .task => 0x74

theorem head?_scopeText (address : DocumentAddress) :
    address.scopeText.head? = some (scopeInitial address.scope) := by
  have hname : (documentScopeName address.scope).head? = some (scopeInitial address.scope) := by
    cases address.scope <;> decide
  rw [scopeText, List.head?_append, List.head?_append, hname]
  rfl

theorem head?_family (rest : Bytes) : (ofString "family:" ++ rest).head? = some 0x66 := by
  rfl

theorem scopeText_ne_family (address : DocumentAddress) (rest : Bytes) :
    address.scopeText ≠ ofString "family:" ++ rest := by
  intro h
  have hhead := head?_scopeText address
  rw [h, head?_family, Option.some.injEq] at hhead
  cases hscope : address.scope <;> rw [hscope] at hhead <;> exact absurd hhead (by decide)

theorem singleton_ne_family (rest : Bytes) : ofString "singleton" ≠ ofString "family:" ++ rest := by
  intro h
  have hhead := congrArg List.head? h
  rw [head?_family] at hhead
  exact absurd hhead (by decide)

theorem scopeOwner_eq_none_iff (address : DocumentAddress) :
    address.scopeOwner = none ↔ address.scope = .session := by
  obtain ⟨conversationId, taskId, key⟩ := address
  cases taskId <;> cases conversationId <;> simp [scopeOwner, DocumentAddress.scope]

variable {a b : DocumentAddress}

theorem scopeText_injective (h : a.scopeText = b.scopeText) : a.scope = b.scope ∧ a.scopeOwner = b.scopeOwner := by
  have hscope : a.scope = b.scope := by
    have hhead := congrArg List.head? h
    rw [head?_scopeText, head?_scopeText, Option.some.injEq] at hhead
    cases ha : a.scope <;> cases hb : b.scope <;> rw [ha, hb] at hhead <;> first
      | rfl
      | exact absurd hhead (by decide)
  refine ⟨hscope, ?_⟩
  rw [scopeText, scopeText, hscope] at h
  have howner := List.append_cancel_left h
  cases ha : a.scopeOwner with
  | none =>
    rw [scopeOwner_eq_none_iff, hscope, ← scopeOwner_eq_none_iff] at ha
    exact ha.symm
  | some owner =>
    cases hb : b.scopeOwner with
    | none =>
      rw [scopeOwner_eq_none_iff, ← hscope, ← scopeOwner_eq_none_iff, ha] at hb
      cases hb
    | some owner' =>
      rw [ha, hb] at howner
      rw [intText_injective howner]

theorem memberText_injective (h : a.memberText = b.memberText) : a.key = b.key := by
  rw [memberText, memberText] at h
  cases ha : a.key with
  | none =>
    cases hb : b.key with
    | none => rfl
    | some key =>
      rw [ha, hb] at h
      exact (singleton_ne_family key h).elim
  | some key =>
    cases hb : b.key with
    | none =>
      rw [ha, hb] at h
      exact (singleton_ne_family key h.symm).elim
    | some key' =>
      rw [ha, hb] at h
      have hkey : key = key' := List.append_cancel_left h
      rw [hkey]

/-! ## Documents that share a key -/

/-- The identity of a logical document: the kind, the scope with its owner and the family key. -/
def SameDocument (kind : Bytes) (a : DocumentAddress) (kind' : Bytes) (b : DocumentAddress) : Prop :=
  kind = kind' ∧ a.scope = b.scope ∧ a.scopeOwner = b.scopeOwner ∧ a.key = b.key

/-- The second kind is the start of the first key up to a place inside its family key, and the rest
of that family key reads as the scope and the member of the second address. -/
def Overlaps (kind : Bytes) (a : DocumentAddress) (kind' : Bytes) (b : DocumentAddress) : Prop :=
  ∃ start, kind' = kind ++ bar :: (a.scopeText ++ bar :: (ofString "family:" ++ start)) ∧
    a.key = some (start ++ bar :: (b.scopeText ++ bar :: b.memberText))

/-- A member part that holds a bar is that of a family key, which holds the bar after its label. -/
theorem memberText_of_bar {a : DocumentAddress} {start rest : Bytes} (h : a.memberText = start ++ bar :: rest) :
    ∃ tail, start = ofString "family:" ++ tail ∧ a.key = some (tail ++ bar :: rest) := by
  cases hkey : a.key with
  | none =>
    have hbar : bar ∈ a.memberText := by
      rw [h]
      simp
    rw [memberText, hkey] at hbar
    exact absurd hbar (by decide)
  | some key =>
    rw [memberText, hkey, Option.elim] at h
    rcases List.append_eq_append_iff.1 h with ⟨tail, hstart, hrest⟩ | ⟨tail, hlabel, hrest⟩
    · exact ⟨tail, hstart, by rw [hrest]⟩
    cases tail with
    | nil =>
      rw [append_nil] at hlabel
      rw [nil_append] at hrest
      exact ⟨[], by rw [hlabel, append_nil], by rw [← hrest, nil_append]⟩
    | cons first tail =>
      have hmem : bar ∈ ofString "family:" := by
        rw [hlabel, ← (List.cons.inj hrest).1]
        simp
      exact absurd hmem (by decide)

/-- Keys whose kinds differ in length share their text only where one overlaps the other. -/
theorem overlaps_of_longer {kind extra : Bytes} (hextra : extra ≠ [])
    (h : documentAddressKey kind a = documentAddressKey (kind ++ extra) b) : Overlaps kind a (kind ++ extra) b := by
  rw [documentAddressKey_eq, documentAddressKey_eq, List.append_assoc] at h
  have htail := List.append_cancel_left h
  cases extra with
  | nil => exact (hextra rfl).elim
  | cons first rest =>
    obtain ⟨rfl, hrest⟩ := List.cons.inj htail
    rcases List.append_eq_append_iff.1 hrest with ⟨later, hscope, hmember⟩ | ⟨later, hscope, hmember⟩
    · cases later with
      | nil =>
        -- The scope of the second address would start where the member of the first does.
        obtain ⟨-, hmember⟩ := List.cons.inj hmember
        obtain ⟨tail, hlabel, -⟩ := memberText_of_bar hmember
        exact (scopeText_ne_family b tail hlabel).elim
      | cons first' later =>
        obtain ⟨rfl, hfamily⟩ := List.cons.inj hmember
        obtain ⟨tail, rfl, hkey⟩ := memberText_of_bar hfamily
        exact ⟨tail, by rw [hscope], hkey⟩
    cases later with
    | nil =>
      obtain ⟨-, hmember⟩ := List.cons.inj hmember
      obtain ⟨tail, hlabel, -⟩ := memberText_of_bar hmember.symm
      exact (scopeText_ne_family b tail hlabel).elim
    | cons first' later =>
      have hmem : bar ∈ a.scopeText := by
        rw [hscope, ← (List.cons.inj hmember).1]
        simp
      exact (bar_notMem_scopeText a hmem).elim

theorem Overlaps.key_eq {kind kind' : Bytes} (h : Overlaps kind a kind' b) :
    documentAddressKey kind a = documentAddressKey kind' b ∧ kind ≠ kind' := by
  obtain ⟨start, rfl, hkey⟩ := h
  constructor
  · rw [documentAddressKey_eq, documentAddressKey_eq, memberText, hkey]
    simp
  intro heq
  have := congrArg List.length heq
  simp at this

/-- **Address keys separate documents exactly when neither overlaps the other.** -/
theorem documentAddressKey_separates_iff (kind kind' : Bytes) (a b : DocumentAddress) :
    (documentAddressKey kind a = documentAddressKey kind' b → SameDocument kind a kind' b) ↔
      ¬ Overlaps kind a kind' b ∧ ¬ Overlaps kind' b kind a := by
  constructor
  · intro hseparates
    constructor
    · intro hoverlaps
      obtain ⟨hkey, hne⟩ := hoverlaps.key_eq
      exact hne (hseparates hkey).1
    intro hoverlaps
    obtain ⟨hkey, hne⟩ := hoverlaps.key_eq
    exact hne (hseparates hkey.symm).1.symm
  rintro ⟨hright, hleft⟩ hkey
  have hparts := hkey
  rw [documentAddressKey_eq, documentAddressKey_eq] at hparts
  rcases List.append_eq_append_iff.1 hparts with ⟨extra, hkind, hrest⟩ | ⟨extra, hkind, hrest⟩
  · cases extra with
    | nil =>
      rw [append_nil] at hkind
      obtain ⟨hscope, hmember⟩ := separated_inj (bar_notMem_scopeText a)
        (bar_notMem_scopeText b) (List.cons.inj hrest).2
      obtain ⟨hkindScope, howner⟩ := scopeText_injective hscope
      exact ⟨hkind.symm, hkindScope, howner, memberText_injective hmember⟩
    | cons first rest =>
      subst hkind
      exact (hright (overlaps_of_longer (List.cons_ne_nil _ _) hkey)).elim
  cases extra with
  | nil =>
    rw [append_nil] at hkind
    obtain ⟨hscope, hmember⟩ := separated_inj (bar_notMem_scopeText b)
      (bar_notMem_scopeText a) (List.cons.inj hrest).2
    obtain ⟨hkindScope, howner⟩ := scopeText_injective hscope
    exact ⟨hkind, hkindScope.symm, howner.symm, (memberText_injective hmember).symm⟩
  | cons first rest =>
    subst hkind
    exact (hleft (overlaps_of_longer (List.cons_ne_nil _ _) hkey.symm)).elim

/-- A family member of kind `a` and the singleton of a longer kind have one key. -/
theorem barredKind_shares_key :
    documentAddressKey (ofString "a") { key := some (ofString "x|session:session|singleton") }
        = documentAddressKey "a|session:session|family:x" {} ∧
      ¬ SameDocument (ofString "a") { key := some (ofString "x|session:session|singleton") }
        "a|session:session|family:x" {} := by
  refine ⟨by decide, ?_⟩
  intro hsame
  exact absurd hsame.1 (by decide)

end CodingHarness.Durable
