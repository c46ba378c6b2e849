import CodingHarness.Tui.PasteNumbers

/-!
# Pastes that come back

A kill entry has contents of its own for the markers in it, so a yank gives every marker a new number above
the counter (`materializeKill_spec`). The numbers in the document stay as they are, and the new ones do
not meet them.
-/

namespace CodingHarness.Tui

open Library Support

namespace TextBuffer

/-- Segments of an entry went in with new numbers. -/
structure Materialized (entry : KillEntry) (segments : List BufferSegment) (s : TextBuffer)
    (result : List BufferSegment) (t : TextBuffer) : Prop where
  rest : ∃ pastes counter, t = { s with pastes := pastes, pasteCounter := counter }
  le : s.pasteCounter ≤ t.pasteCounter
  kept : ∀ id, id ≤ s.pasteCounter → t.pastes id = s.pastes id
  counted : Counted t.pastes t.pasteCounter
  fresh : ∀ id ∈ pasteIds result, s.pasteCounter < id
  numbered : Numbered t.pastes result
  plain : result.map (plainSegment t.pastes) = segments.map (plainSegment entry.pastes)

namespace Materialized

variable {entry : KillEntry} {a b a' b' : List BufferSegment} {s t u : TextBuffer}

theorem nil (hcount : Counted s.pastes s.pasteCounter) : Materialized entry [] s [] s :=
  ⟨⟨_, _, rfl⟩, le_rfl, fun _ _ => rfl, hcount, fun _ hmem => (List.not_mem_nil hmem).elim, .nil _, rfl⟩

theorem bounded (h : Materialized entry a s a' t) {id : Nat} (hid : id ∈ pasteIds a') : id ≤ t.pasteCounter :=
  h.counted id (h.numbered.content hid)

theorem later (h : Materialized entry a s a' t) (h' : Materialized entry b t b' u) :
    Numbered u.pastes a' ∧ a'.map (plainSegment u.pastes) = a'.map (plainSegment t.pastes) := by
  refine ⟨h.numbered.congr fun id hid => h'.kept id (h.bounded hid), ?_⟩
  refine List.map_congr_left fun segment hmem => plainSegment_congr fun id hid => ?_
  exact h'.kept id (h.bounded (mem_pasteIds.2 ⟨segment, hmem, hid⟩))

theorem append (h : Materialized entry a s a' t) (h' : Materialized entry b t b' u) :
    Materialized entry (a ++ b) s (a' ++ b') u := by
  obtain ⟨hnum, hplain⟩ := h.later h'
  refine ⟨?_, h.le.trans h'.le, fun id hid => ?_, h'.counted, fun id hid => ?_, ?_, ?_⟩
  · obtain ⟨pastes, counter, rfl⟩ := h.rest
    obtain ⟨pastes', counter', rfl⟩ := h'.rest
    exact ⟨pastes', counter', rfl⟩
  · rw [h'.kept id (hid.trans h.le), h.kept id hid]
  · rw [pasteIds_append] at hid
    rcases List.mem_append.1 hid with hid | hid
    · exact h.fresh id hid
    · exact h.le.trans_lt (h'.fresh id hid)
  · refine hnum.append h'.numbered fun id hid hid' => ?_
    exact absurd (h.bounded hid) (not_le.2 (h'.fresh id hid'))
  · rw [List.map_append, List.map_append, hplain, h.plain, h'.plain]

end Materialized

/-- The numbers that were given out belong to the entries before. -/
def Remapped (remapped : List (Nat × Nat)) (ids : List Nat) : Prop := ∀ id ∈ ids, remapped.lookup id = none

variable {remapped : List (Nat × Nat)} {s : TextBuffer} {entry : KillEntry}

section

variable (hcount : Counted s.pastes s.pasteCounter)
include hcount

theorem materializeSegment_spec {segment : BufferSegment}
    (hnum : Numbered entry.pastes [segment]) (hremapped : Remapped remapped (pasteIds [segment])) :
    Materialized entry [segment] s [(materializeSegment entry remapped s segment).1]
        (materializeSegment entry remapped s segment).2.2 ∧
      ∀ ids, Remapped remapped ids → (∀ id ∈ ids, id ∉ pasteIds [segment]) →
        Remapped (materializeSegment entry remapped s segment).2.1 ids := by
  cases hid : segment.pasteId with
  | none =>
    have hplain : ∀ other ∈ [segment], other.pasteId = none := by
      rintro _ (_ | ⟨_, ⟨⟩⟩)
      exact hid
    have heq : materializeSegment entry remapped s segment = (segment, remapped, s) := by
      rw [materializeSegment, hid]
    rw [heq]
    refine ⟨⟨⟨_, _, rfl⟩, le_rfl, fun _ _ => rfl, hcount, fun id hmem => ?_, .of_plain hplain, ?_⟩, fun ids h _ => h⟩
    · obtain ⟨other, hother, hsome⟩ := mem_pasteIds.1 hmem
      rw [hplain other hother] at hsome
      cases hsome
    refine List.map_congr_left fun other hother => plainSegment_congr fun id hsome => ?_
    rw [hplain other hother] at hsome
    cases hsome
  | some source =>
    obtain ⟨content, hne, hcont, htext⟩ := hnum.marker segment (List.mem_singleton_self _) source hid
    have hmem : source ∈ pasteIds [segment] := mem_pasteIds.2 ⟨segment, List.mem_singleton_self _, hid⟩
    have heq : materializeSegment entry remapped s segment =
        (⟨markerFor (s.pasteCounter + 1) content, some (s.pasteCounter + 1)⟩,
          (source, s.pasteCounter + 1) :: remapped, { s with
            pasteCounter := s.pasteCounter + 1
            pastes := Function.update s.pastes (s.pasteCounter + 1) (some content) }) := by
      simp only [materializeSegment, hid, hremapped source hmem, hcont]
    rw [heq]
    refine ⟨⟨⟨_, _, rfl⟩, Nat.le_succ _, fun id hle => ?_, fun id hsome => ?_, fun id hfresh => ?_, ?_, ?_⟩,
      fun ids h hother id hids => ?_⟩
    · exact Function.update_of_ne (by omega) _ _
    · by_cases hnew : id = s.pasteCounter + 1
      · exact hnew.le
      · dsimp only at hsome
        rw [Function.update_of_ne hnew] at hsome
        exact (hcount id hsome).trans (Nat.le_succ _)
    · obtain rfl := List.mem_singleton.1 hfresh
      exact Nat.lt_succ_self _
    · refine ⟨fun other hother id hother' => ?_, List.nodup_singleton _⟩
      obtain rfl := List.mem_singleton.1 hother
      cases hother'
      exact ⟨content, hne, Function.update_self _ _ _, rfl⟩
    · simp only [List.map_cons, List.map_nil, plainSegment, expandSegment, hid, Option.bind_some, hcont,
        Function.update_self, Option.getD_some]
    · have hne' : id ≠ source := fun heq => hother id hids (heq ▸ hmem)
      rw [List.lookup_cons, beq_eq_false_iff_ne.2 hne']
      exact h id hids

theorem materializeLine_spec {line : BufferLine}
    (hnum : Numbered entry.pastes line) (hremapped : Remapped remapped (pasteIds line)) :
    Materialized entry line s (materializeLine entry remapped s line).1 (materializeLine entry remapped s line).2.2 ∧
      ∀ ids, Remapped remapped ids → (∀ id ∈ ids, id ∉ pasteIds line) →
        Remapped (materializeLine entry remapped s line).2.1 ids := by
  induction line generalizing remapped s with
  | nil => exact ⟨.nil hcount, fun ids h _ => h⟩
  | cons segment rest ih =>
    have hids : pasteIds (segment :: rest) = pasteIds [segment] ++ pasteIds rest := pasteIds_append [segment] rest
    obtain ⟨hfirst, hremappedFirst⟩ := materializeSegment_spec hcount
      (Numbered.left (a := [segment]) hnum) fun id hid => hremapped id
        (hids ▸ List.mem_append_left _ hid)
    obtain ⟨hrest, hremappedRest⟩ := ih hfirst.counted (Numbered.right (a := [segment]) hnum)
      (hremappedFirst _ (fun id hid => hremapped id (hids ▸ List.mem_append_right _ hid))
        fun id hid hid' => Numbered.disjoint (a := [segment]) hnum id hid' hid)
    refine ⟨hfirst.append hrest, fun ids h hother => hremappedRest ids ?_ ?_⟩
    · exact hremappedFirst ids h fun id hid hmem => hother id hid (hids ▸ List.mem_append_left _ hmem)
    · exact fun id hid hmem => hother id hid (hids ▸ List.mem_append_right _ hmem)

theorem materializeLines_spec {document : BufferDocument}
    (hnum : Numbered entry.pastes document.flatten) (hremapped : Remapped remapped (pasteIds document.flatten)) :
    Materialized entry document.flatten s (materializeLines entry remapped s document).1.flatten
        (materializeLines entry remapped s document).2 ∧
      plainDocument (materializeLines entry remapped s document).2.pastes
        (materializeLines entry remapped s document).1 = plainDocument entry.pastes document := by
  induction document generalizing remapped s with
  | nil => exact ⟨.nil hcount, rfl⟩
  | cons line rest ih =>
    have hids : pasteIds (line :: rest).flatten = pasteIds line ++ pasteIds rest.flatten :=
      pasteIds_append line rest.flatten
    obtain ⟨hfirst, hremappedFirst⟩ := materializeLine_spec hcount
      (Numbered.left (a := line) hnum) fun id hid => hremapped id (hids ▸ List.mem_append_left _ hid)
    obtain ⟨hrest, hplain⟩ := ih hfirst.counted (Numbered.right (a := line) hnum)
      (hremappedFirst _ (fun id hid => hremapped id (hids ▸ List.mem_append_right _ hid))
        fun id hid hid' => Numbered.disjoint (a := line) hnum id hid' hid)
    rw [materializeLines]
    refine ⟨hfirst.append hrest, ?_⟩
    rw [plainDocument, List.map_cons, (hfirst.later hrest).2, hfirst.plain]
    exact congrArg _ hplain

theorem materializeKill_spec (hnum : Numbered entry.pastes entry.document.flatten) :
    Materialized entry entry.document.flatten s (s.materializeKill entry).1.flatten (s.materializeKill entry).2 ∧
      plainDocument (s.materializeKill entry).2.pastes (s.materializeKill entry).1 =
        plainDocument entry.pastes entry.document :=
  materializeLines_spec hcount hnum fun _ _ => rfl

end

end TextBuffer

end CodingHarness.Tui
