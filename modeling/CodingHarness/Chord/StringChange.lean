import CodingHarness.Chord.Document

/-!
# String deltas

`emitStringChange` turns a changed string into the shortest of an append, a truncation from the front
followed by an append, or a plain set (`Emission`). Applied to a root that holds the old string, the
operations put the new string at the path and change nothing else (`emitStringChange_exact`), unless
the path has a key that no operation may name.
-/

namespace CodingHarness.Chord

open Library Support

variable {root : Json} {path : Path}

theorem settable_of_isSome (h : (view root path).isSome) : View.Settable (view root) path := by
  induction path generalizing root with
  | nil => trivial
  | cons segment rest ih =>
    cases hchild : child segment root with
    | none => simp [view_cons, hchild] at h
    | some current =>
      cases rest with
      | nil =>
        cases segment with
        | key key =>
          cases root with
          | object members => rfl
          | _ => simp [child] at hchild
        | index i =>
          cases root with
          | array items =>
            have hlt : i < items.length := (List.getElem?_eq_some_iff.1 hchild).1
            cases i with
            | zero => rfl
            | succ i =>
              refine ⟨rfl, ?_⟩
              simp [view, tryGetPath, child, show i < items.length by omega]
          | _ => simp [child] at hchild
      | cons next rest =>
        rw [View.settable_cons_cons]
        rw [view_cons, hchild] at h
        exact ⟨current, hchild, ih h⟩

theorem tryGetPath_eq_string_iff {text : Bytes} :
    tryGetPath root path = some (.string text) ↔ view root path = some (.string text) := by
  simp [view]

variable {before : Bytes}

theorem setPath_string (h : tryGetPath root path = some (.string before)) (text : Bytes) :
    ∃ updated, setPath root path (.string text) = .ok updated ∧
      view updated = View.put path (view (.string text)) (view root) ∧
      tryGetPath updated path = some (.string text) := by
  have hsettable : View.Settable (view root) path := by
    apply settable_of_isSome
    rw [view_isSome_iff, h]
    rfl
  obtain ⟨updated, hupd⟩ := (setPath_isOk_iff path (.string text) root).2 hsettable
  refine ⟨updated, hupd, view_setPath hupd, ?_⟩
  rw [tryGetPath_eq_string_iff, view_setPath hupd]
  simp [View.put, shape]

theorem View.put_put (path : Path) (w w' V : View) : View.put path w (View.put path w' V) = View.put path w V := by
  funext r
  unfold View.put
  split <;> rfl

theorem getString_eq_ok {text : Bytes} (h : tryGetPath root path = some (.string text)) :
    getString root path = .ok text := by
  simp [getString, getPath, h]

theorem encodeUtf8_append {front back : List Nat} {left right : Bytes}
    (hfront : encodeUtf8 front = some left) (hback : encodeUtf8 back = some right) :
    encodeUtf8 (front ++ back) = some (left ++ right) := by
  induction front using encodeUtf8.induct generalizing left with
  | case1 =>
    cases hfront
    exact hback
  | case2 unit hhigh => simp [encodeUtf8, hhigh] at hfront
  | case3 unit hhigh low rest hlow ih =>
    simp only [encodeUtf8, hhigh, hlow, if_true, Option.map_eq_some_iff] at hfront
    obtain ⟨bytes, hbytes, rfl⟩ := hfront
    simp [encodeUtf8, hhigh, hlow, ih hbytes]
  | case4 unit hhigh low rest hlow => simp [encodeUtf8, hhigh, hlow] at hfront
  | case5 unit rest hhigh hlow =>
    simp [encodeUtf8_scalar, hhigh, hlow] at hfront
  | case6 unit rest hhigh hlow ih =>
    rw [Bool.not_eq_true] at hhigh
    rw [encodeUtf8_scalar _ hhigh, if_neg hlow, Option.map_eq_some_iff] at hfront
    obtain ⟨bytes, hbytes, rfl⟩ := hfront
    rw [List.cons_append, encodeUtf8_scalar _ hhigh, if_neg hlow, ih hbytes]
    simp

variable {after : Bytes}

/-- The truncation of `emitStringChange` leaves the shared code units, and the suffix completes them
to the new string. -/
theorem truncate_append_overlap {beforeUnits afterUnits : List Nat}
    {shared : Nat} (hprev : decodeUtf8 before = some beforeUnits)
    (hafter : decodeUtf8 after = some afterUnits) (hzero : shared ≠ 0) (hle : shared ≤ beforeUnits.length)
    (hshared : beforeUnits.drop (beforeUnits.length - shared) = afterUnits.take shared)
    (hnot : ¬SplitsPair (beforeUnits.take (beforeUnits.length - shared))
      (beforeUnits.drop (beforeUnits.length - shared)))
    {suffix : Bytes} (hsuffix : encodeUtf8 (afterUnits.drop shared) = some suffix) :
    ∃ kept, truncateFrontUtf16 before (beforeUnits.length - shared) = .ok kept ∧ kept ++ suffix = after := by
  obtain ⟨kept, htruncate, hkept⟩ := truncateFrontUtf16_of_cut hprev (by omega) hnot
  refine ⟨kept, htruncate, ?_⟩
  rw [hshared] at hkept
  have hwhole := encodeUtf8_append hkept hsuffix
  rw [List.take_append_drop, encodeUtf8_decodeUtf8 hafter] at hwhole
  exact (Option.some.inj hwhole).symm

section

variable (h : tryGetPath root path = some (.string before))
include h

theorem applyOps_set_string (after : Bytes) :
    ∃ updated, applyOps root [.set path (.string after)] = .ok updated ∧
      view updated = View.put path (view (.string after)) (view root) := by
  obtain ⟨updated, hupd, hview, -⟩ := setPath_string h after
  exact ⟨updated, by simp [applyOps, applyOp, hupd], hview⟩

theorem applyOps_append_string (text : Bytes) :
    ∃ updated, applyOps root [.append path text] = .ok updated ∧
      view updated = View.put path (view (.string (before ++ text))) (view root) := by
  obtain ⟨updated, hupd, hview, -⟩ := setPath_string h (before ++ text)
  exact ⟨updated, by simp [applyOps, applyOp, appendStringPath, getString_eq_ok h, hupd], hview⟩

theorem applyOps_truncate_append {kept : Bytes} {count : Nat}
    (hkept : truncateFrontUtf16 before count = .ok kept) (suffix : Bytes) : ∃ updated, applyOps root
        (.truncate path count :: if suffix.isEmpty then [] else [.append path suffix]) = .ok updated ∧
      view updated = View.put path (view (.string (kept ++ suffix))) (view root) := by
  obtain ⟨cut, hcut, hview, hvalue⟩ := setPath_string h kept
  have htruncate : applyOp root (.truncate path count) = .ok cut := by
    simp [applyOp, truncateStringPath, getString_eq_ok h, hkept, hcut]
  cases suffix with
  | nil => exact ⟨cut, by simp [applyOps, htruncate], by simpa using hview⟩
  | cons byte rest =>
    obtain ⟨updated, hupd, hview'⟩ := applyOps_append_string hvalue (byte :: rest)
    refine ⟨updated, ?_, ?_⟩
    · rw [applyOps, htruncate]
      exact hupd
    · rw [hview', hview, View.put_put]

end

/-- What is emitted for a changed string. -/
inductive Emission (before after : Bytes) (path : Path) : OpBatch → Prop where
  | append (rest : Bytes) (hwhole : before ++ rest = after) : Emission before after path [.append path rest]
  | set : Emission before after path [.set path (.string after)]
  | truncate {units : List Nat} {count : Nat} {kept : Bytes} (suffix : Bytes)
      (hunits : decodeUtf8 before = some units)
      (hcut : ¬SplitsPair (units.take count) (units.drop count))
      (hkept : truncateFrontUtf16 before count = .ok kept) (hwhole : kept ++ suffix = after) :
      Emission before after path
        (.truncate path count :: if suffix.isEmpty then [] else [.append path suffix])

theorem emission_emitStringChange (before after : Bytes) (path : Path) :
    Emission before after path (emitStringChange before after path) := by
  unfold emitStringChange
  split
  · rename_i hstart
    obtain ⟨rest, rfl⟩ := List.isPrefixOf_iff_prefix.1 hstart
    rw [List.drop_left]
    exact .append rest rfl
  split
  · rename_i beforeUnits afterUnits hprev hafter
    obtain ⟨hle, -, hshared⟩ := overlapUnits_spec beforeUnits afterUnits maxOverlapScan
      overlapProbe maxOverlapCandidates
    dsimp only
    split
    · exact .set
    rename_i hzero
    split
    · exact .set
    rename_i hcut
    split
    · exact .set
    rename_i suffix hsuffix
    generalize overlapUnits beforeUnits afterUnits maxOverlapScan overlapProbe maxOverlapCandidates = shared at *
    have hnot : ¬SplitsPair (beforeUnits.take (beforeUnits.length - shared))
        (beforeUnits.drop (beforeUnits.length - shared)) := by
      by_cases hbound : beforeUnits.length - shared = 0
      · simp [hbound, SplitsPair]
      rw [splitsPair_iff_units (by omega) (by omega), Bool.and_eq_true]
      refine fun hsplit => hcut ?_
      simp only [Bool.and_eq_true, decide_eq_true_eq]
      exact ⟨⟨⟨hbound, by omega⟩, hsplit.1⟩, hsplit.2⟩
    obtain ⟨kept, hkept, hwhole⟩ := truncate_append_overlap hprev hafter hzero hle hshared hnot hsuffix
    exact .truncate suffix hprev hnot hkept hwhole
  · exact .set

/-- **The emitted operations turn the old string into the new one.** -/
theorem applyOps_emitStringChange (h : tryGetPath root path = some (.string before)) (after : Bytes) :
    ∃ updated, applyOps root (emitStringChange before after path) = .ok updated ∧
      view updated = View.put path (view (.string after)) (view root) := by
  have hemission := emission_emitStringChange before after path
  generalize emitStringChange before after path = ops at hemission
  cases hemission with
  | append rest hwhole => exact hwhole ▸ applyOps_append_string h rest
  | set => exact applyOps_set_string h after
  | truncate suffix _ _ hkept hwhole => exact hwhole ▸ applyOps_truncate_append h hkept suffix

theorem mem_emitStringChange {op : Op} (h : op ∈ emitStringChange before after path) :
    (∃ text, op = .append path text) ∨ (∃ count, op = .truncate path count) ∨ op = .set path (.string after) := by
  have hemission := emission_emitStringChange before after path
  generalize emitStringChange before after path = ops at hemission h
  cases hemission with
  | append rest => exact .inl ⟨_, List.mem_singleton.1 h⟩
  | set => exact .inr (.inr (List.mem_singleton.1 h))
  | truncate suffix =>
    rcases List.mem_cons.1 h with rfl | h
    · exact .inr (.inl ⟨_, rfl⟩)
    split at h
    · cases h
    · exact .inl ⟨_, List.mem_singleton.1 h⟩

/-! ## Whole batches -/

theorem validateBatch_eq_ok {ops : OpBatch} (h : ∀ op ∈ ops, validateOp op = .ok ()) :
    validateBatch ops = .ok () := by
  induction ops with
  | nil => rfl
  | cons op rest ih =>
    rw [validateBatch, h op List.mem_cons_self, ih fun op hop => h op (List.mem_cons_of_mem _ hop)]
    rfl

theorem validateBatch_emitStringChange (hpath : path ≠ []) (hsafe : validateSafePath path = .ok ()) :
    validateBatch (emitStringChange before after path) = .ok () := by
  refine validateBatch_eq_ok fun op hop => ?_
  have hempty : path.isEmpty = false := by simpa using hpath
  rcases mem_emitStringChange hop with ⟨text, rfl⟩ | ⟨count, rfl⟩ | rfl
  all_goals simp [validateOp, hempty, hsafe]

/-- **A changed string is emitted exactly.** No truncation separates a surrogate pair. -/
theorem emitStringChange_exact (hpath : path ≠ []) (hsafe : validateSafePath path = .ok ())
    (h : tryGetPath root path = some (.string before)) (after : Bytes) :
    (∃ updated, applyImmutable root (emitStringChange before after path) = .ok updated ∧
      tryGetPath updated path = some (.string after) ∧ ∀ other, other ≠ path → view updated other = view root other) ∧
    ∀ count units, .truncate path count ∈ emitStringChange before after path →
      decodeUtf8 before = some units → ¬SplitsPair (units.take count) (units.drop count) := by
  constructor
  · obtain ⟨updated, hupdated, hview⟩ := applyOps_emitStringChange h after
    refine ⟨updated, ?_, ?_, fun other hother => ?_⟩
    · rw [applyImmutable, validateBatch_emitStringChange hpath hsafe]
      exact hupdated
    · rw [tryGetPath_eq_string_iff, hview]
      simp [View.put, shape]
    · rw [hview, View.put]
      split
      · -- Below a string nothing stands, before and after.
        rename_i hbelow
        obtain ⟨rest, rfl⟩ := hbelow
        cases rest with
        | nil => exact absurd (List.append_nil path) hother
        | cons segment rest =>
          rw [view_append, h, List.drop_left, Option.bind_some, view_cons, view_cons]
          cases segment <;> rfl
      · rfl
  · intro count units hmem hunits
    have hemission := emission_emitStringChange before after path
    generalize emitStringChange before after path = ops at hemission hmem
    cases hemission with
    | append rest => simp at hmem
    | set => simp at hmem
    | truncate suffix hunits' hcut =>
      cases hunits.symm.trans hunits'
      rcases List.mem_cons.1 hmem with heq | hmem
      · cases heq
        exact hcut
      · split at hmem <;> simp at hmem

/-- Two emitted operations on a nested string. -/
theorem emitStringChange_exact_nested : (∃ updated, applyImmutable (.array [.string "xyz"])
        (emitStringChange "xyz" "zw" [.index 0]) = .ok updated ∧ tryGetPath updated [.index 0] = some (.string "zw") ∧
      ∀ other, other ≠ [.index 0] → view updated other = view (.array [.string "xyz"]) other) ∧
    ∀ count units, .truncate [.index 0] count ∈ emitStringChange "xyz" "zw" [.index 0] →
      decodeUtf8 "xyz" = some units → ¬SplitsPair (units.take count) (units.drop count) :=
  emitStringChange_exact (by decide) (by decide) rfl "zw"

/-- A string under a reserved key is left to no operation. -/
theorem emitStringChange_reserved : let root : Json := .object [("constructor", .string "a")]
    let path : Path := [.key "constructor"]
    path ≠ [] ∧ tryGetPath root path = some (.string "a") ∧
      ∀ updated, applyImmutable root (emitStringChange "a" "ab" path) ≠ .ok updated := by
  have hrejected : validateBatch (emitStringChange "a" "ab" [.key "constructor"]) ≠ .ok () := by decide
  refine ⟨by decide, by decide, fun updated h => hrejected ?_⟩
  simp only [applyImmutable, bind_eq_ok] at h
  obtain ⟨_, hvalid, _⟩ := h
  exact hvalid

end CodingHarness.Chord
