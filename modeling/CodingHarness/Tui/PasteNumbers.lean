import CodingHarness.Tui.PasteMarkers
import CodingHarness.Tui.UndoHistory

/-!
# The numbers of pastes

Segments are `Numbered` when every marker among them has a content under its number, shows the marker of
that content, and shares its number with no other. Forgetting a paste renumbers the later ones and shifts
their contents, so the segments that stay are numbered again and stand for what they stood for
(`Numbered.forget`). An erasure forgets the markers of its range one after the other before it removes
them; `Carried` follows the segments that stay through these steps, where the markers that were forgotten
already are in the document but no longer numbered.
-/

namespace CodingHarness.Tui

open Library Support
open List (flatten_cons getD_eq_getElem?_getD getElem?_eq_getElem getElem?_map length_map length_take map_append
  map_cons map_drop map_map map_take take_append_drop take_length)
open Option (bind_eq_bind bind_eq_some_iff bind_some getD_some map_some)

/-! ## Numbered segments -/

/-- The numbers of the markers among segments. -/
def pasteIds (segments : List BufferSegment) : List Nat := segments.filterMap BufferSegment.pasteId

/-- Every marker shows the marker of its number and content, and no number is used twice. -/
structure Numbered (pastes : Pastes) (segments : List BufferSegment) : Prop where
  marker : ∀ segment ∈ segments, ∀ id, segment.pasteId = some id →
    ∃ content, content ≠ [] ∧ pastes id = some content ∧ segment.text = markerFor id content
  distinct : (pasteIds segments).Nodup

/-- The counter is not below a number that has a content. -/
def Counted (pastes : Pastes) (counter : Nat) : Prop := ∀ id, (pastes id).isSome → id ≤ counter

variable {segments : List BufferSegment} {id other : Nat}

theorem mem_pasteIds : id ∈ pasteIds segments ↔ ∃ segment ∈ segments, segment.pasteId = some id := List.mem_filterMap

theorem pasteIds_append (a b : List BufferSegment) : pasteIds (a ++ b) = pasteIds a ++ pasteIds b :=
  List.filterMap_append

namespace Numbered

variable {pastes : Pastes} {a b : List BufferSegment}

theorem nil (pastes : Pastes) : Numbered pastes [] := ⟨fun _ hmem => (List.not_mem_nil hmem).elim, .nil⟩

theorem sublist (h : Numbered pastes segments) (hsub : a.Sublist segments) : Numbered pastes a :=
  ⟨fun segment hmem => h.marker segment (hsub.subset hmem), h.distinct.sublist (hsub.filterMap _)⟩

theorem perm (h : Numbered pastes a) (hperm : a.Perm b) : Numbered pastes b :=
  ⟨fun segment hmem => h.marker segment (hperm.mem_iff.2 hmem), (hperm.filterMap _).nodup_iff.1 h.distinct⟩

theorem left (h : Numbered pastes (a ++ b)) : Numbered pastes a := h.sublist (List.sublist_append_left a b)

theorem right (h : Numbered pastes (a ++ b)) : Numbered pastes b := h.sublist (List.sublist_append_right a b)

theorem disjoint (h : Numbered pastes (a ++ b)) : ∀ id ∈ pasteIds a, id ∉ pasteIds b := by
  have hdist := h.distinct
  rw [pasteIds_append, List.nodup_append] at hdist
  exact fun id ha hb => hdist.2.2 id ha id hb rfl

theorem append (ha : Numbered pastes a) (hb : Numbered pastes b)
    (hdisjoint : ∀ id ∈ pasteIds a, id ∉ pasteIds b) : Numbered pastes (a ++ b) := by
  refine ⟨fun segment hmem => (List.mem_append.1 hmem).elim (ha.marker segment) (hb.marker segment), ?_⟩
  rw [pasteIds_append, List.nodup_append]
  refine ⟨ha.distinct, hb.distinct, ?_⟩
  rintro id hmem _ hmem' rfl
  exact hdisjoint id hmem hmem'

theorem congr {pastes' : Pastes} (h : Numbered pastes segments)
    (hpastes : ∀ id ∈ pasteIds segments, pastes' id = pastes id) : Numbered pastes' segments := by
  refine ⟨fun segment hmem id hid => ?_, h.distinct⟩
  rw [hpastes id (mem_pasteIds.2 ⟨segment, hmem, hid⟩)]
  exact h.marker segment hmem id hid

theorem of_plain (h : ∀ segment ∈ segments, segment.pasteId = none) : Numbered pastes segments := by
  have hids : pasteIds segments = [] := by
    rw [pasteIds, List.filterMap_eq_nil_iff]
    exact h
  refine ⟨fun segment hmem id hid => ?_, hids ▸ .nil⟩
  rw [h segment hmem] at hid
  cases hid

theorem content (h : Numbered pastes segments) (hid : id ∈ pasteIds segments) : (pastes id).isSome := by
  obtain ⟨segment, hmem, hseg⟩ := mem_pasteIds.1 hid
  obtain ⟨content, -, hcont, -⟩ := h.marker segment hmem id hseg
  rw [hcont]
  rfl

end Numbered

/-! ## What segments stand for -/

/-- A segment that shows what it stands for. -/
def plainSegment (pastes : Pastes) (segment : BufferSegment) : BufferSegment :=
  ⟨TextBuffer.expandSegment pastes segment, none⟩

/-- A document that shows what its segments stand for. -/
def plainDocument (pastes : Pastes) (document : BufferDocument) : BufferDocument :=
  document.map (List.map (plainSegment pastes))

theorem expandDocument_eq (pastes : Pastes) (document : BufferDocument) : TextBuffer.expandDocument pastes document =
      List.intercalate [0x0A] ((plainDocument pastes document).map lineText) := by
  simp only [TextBuffer.expandDocument, plainDocument, map_map, Function.comp_def, lineText,
    List.flatMap_map, plainSegment]

variable {pastes pastes' : Pastes} {segment : BufferSegment}

theorem plainSegment_congr (h : ∀ id, segment.pasteId = some id → pastes' id = pastes id):
    plainSegment pastes' segment = plainSegment pastes segment := by
  rw [plainSegment, plainSegment, TextBuffer.expandSegment, TextBuffer.expandSegment]
  cases hid : segment.pasteId with
  | none => rfl
  | some id => rw [bind_some, bind_some, h id hid]

variable {document : BufferDocument}

theorem plainDocument_map {f : BufferSegment → BufferSegment}
    (h : ∀ segment ∈ document.flatten, plainSegment pastes' (f segment) = plainSegment pastes segment) :
    plainDocument pastes' (document.map (List.map f)) = plainDocument pastes document := by
  rw [plainDocument, plainDocument, map_map]
  refine List.map_congr_left fun line hline => ?_
  rw [Function.comp_apply, map_map]
  refine List.map_congr_left fun segment hseg => ?_
  exact h segment (List.mem_flatten.2 ⟨line, hline, hseg⟩)

theorem plainDocument_congr (h : ∀ id ∈ pasteIds document.flatten, pastes' id = pastes id) :
    plainDocument pastes' document = plainDocument pastes document := by
  have hmap : plainDocument pastes' (document.map (List.map id)) = plainDocument pastes document :=
    plainDocument_map fun segment hmem => plainSegment_congr fun number hnum =>
      h number (mem_pasteIds.2 ⟨segment, hmem, hnum⟩)
  rwa [List.map_id_fun, List.map_id] at hmap

/-! ## Forgetting one paste -/

/-- The contents after a paste is forgotten. -/
def dropPaste (id : Nat) (pastes : Pastes) : Pastes :=
  fun other => if other < id then pastes other else pastes (other + 1)

/-- A segment after a paste is forgotten. -/
def renumbered (id : Nat) (segment : BufferSegment) : BufferSegment :=
  (TextBuffer.renumberSegment id segment).getD segment

theorem renumbered_eq (h : Numbered pastes segments) (hmem : segment ∈ segments)
    (hother : segment.pasteId = some other) (id : Nat) : ∃ content, content ≠ [] ∧ pastes other = some content ∧
      renumbered id segment = ⟨markerFor (if id < other then other - 1 else other) content,
        some (if id < other then other - 1 else other)⟩ := by
  obtain ⟨content, hne, hcont, htext⟩ := h.marker segment hmem other hother
  refine ⟨content, hne, hcont, ?_⟩
  rw [renumbered, TextBuffer.renumberSegment, hother]
  by_cases hlater : id < other
  · simp only [if_pos hlater, htext, renumberMarker_markerFor, map_some, getD_some]
  · simp only [if_neg hlater, getD_some, ← htext, ← hother]

theorem renumbered_plain (h : segment.pasteId = none) : renumbered id segment = segment := by
  rw [renumbered, TextBuffer.renumberSegment, h]
  rfl

theorem dropPaste_renumber (hne : other ≠ id) :
    dropPaste id pastes (if id < other then other - 1 else other) = pastes other := by
  unfold dropPaste
  split
  · next hlater => rw [if_neg (by omega), Nat.sub_add_cancel (by omega)]
  · next hlater => rw [if_pos (by omega)]

theorem Numbered.forget (h : Numbered pastes segments) (hid : id ∉ pasteIds segments):
    Numbered (dropPaste id pastes) (segments.map (renumbered id)) := by
  have hne : ∀ segment ∈ segments, ∀ other, segment.pasteId = some other → other ≠ id := by
    rintro segment hmem other hother rfl
    exact hid (mem_pasteIds.2 ⟨segment, hmem, hother⟩)
  have hids : pasteIds (segments.map (renumbered id)) =
      (pasteIds segments).map fun other => if id < other then other - 1 else other := by
    rw [pasteIds, pasteIds, List.filterMap_map, List.map_filterMap]
    refine List.filterMap_congr fun segment hmem => ?_
    rw [Function.comp_apply]
    cases hother : segment.pasteId with
    | none => rw [renumbered_plain hother, hother, Option.map_none]
    | some other =>
      obtain ⟨content, -, -, heq⟩ := renumbered_eq h hmem hother id
      rw [heq, map_some]
  refine ⟨fun segment hmem number hnum => ?_, ?_⟩
  · obtain ⟨source, hsource, rfl⟩ := List.mem_map.1 hmem
    cases hother : source.pasteId with
    | none =>
      rw [renumbered_plain hother, hother] at hnum
      cases hnum
    | some other =>
      obtain ⟨content, hcont, hpaste, heq⟩ := renumbered_eq h hsource hother id
      rw [heq] at hnum ⊢
      cases hnum
      exact ⟨content, hcont, (dropPaste_renumber (hne source hsource other hother)).trans hpaste, rfl⟩
  rw [hids]
  -- The numbers above the forgotten one move down by one, so they stay apart.
  refine List.Nodup.map_on (fun a ha b hb heq => ?_) h.distinct
  have hane : a ≠ id := fun haid => hid (haid ▸ ha)
  have hbne : b ≠ id := fun hbid => hid (hbid ▸ hb)
  split at heq <;> split at heq <;> omega

theorem plainSegment_renumbered (h : Numbered pastes segments) (hid : id ∉ pasteIds segments)
    (hmem : segment ∈ segments) :
    plainSegment (dropPaste id pastes) (renumbered id segment) = plainSegment pastes segment := by
  cases hother : segment.pasteId with
  | none =>
    rw [renumbered_plain hother]
    exact plainSegment_congr fun number hnum => by rw [hother] at hnum; cases hnum
  | some other =>
    have hne : other ≠ id := by
      rintro rfl
      exact hid (mem_pasteIds.2 ⟨segment, hmem, hother⟩)
    obtain ⟨content, -, hpaste, heq⟩ := renumbered_eq h hmem hother id
    simp only [plainSegment, TextBuffer.expandSegment, heq, hother, bind_some,
      dropPaste_renumber hne, hpaste, getD_some]

theorem Counted.forget {counter : Nat} (h : Counted pastes counter) (hid : (pastes id).isSome) :
    Counted (dropPaste id pastes) (counter - 1) := by
  intro other hother
  have hle := h id hid
  unfold dropPaste at hother
  split at hother
  · omega
  · have hle' := h (other + 1) hother
    omega

namespace TextBuffer

/-! ## Forgetting the pastes of a range -/

/-- A part of a document that depends on the places of the segments only. -/
def Natural (part : BufferDocument → BufferDocument) : Prop :=
  ∀ (f : BufferSegment → BufferSegment) (document : BufferDocument),
    part (document.map (List.map f)) = (part document).map (List.map f)

/-- The step changes the segments one by one, and the segments of a part of the document are numbered and
stand for what they stood for. -/
structure Carried (part : BufferDocument → BufferDocument) (s t : TextBuffer) : Prop where
  rest : ∃ f pastes counter, t = { s with
    document := s.document.map (List.map f), pastes := pastes, pasteCounter := counter }
  numbered : Numbered t.pastes (part t.document).flatten
  counted : Counted t.pastes t.pasteCounter
  plain : plainDocument t.pastes (part t.document) = plainDocument s.pastes (part s.document)

namespace Carried

variable {part : BufferDocument → BufferDocument} {s t u : TextBuffer}

theorem refl (hnum : Numbered s.pastes (part s.document).flatten)
    (hcount : Counted s.pastes s.pasteCounter) : Carried part s s := by
  refine ⟨⟨id, s.pastes, s.pasteCounter, ?_⟩, hnum, hcount, rfl⟩
  rw [List.map_id_fun, List.map_id]

theorem trans (h : Carried part s t) (h' : Carried part t u) : Carried part s u := by
  refine ⟨?_, h'.numbered, h'.counted, h'.plain.trans h.plain⟩
  obtain ⟨f, pastes, counter, rfl⟩ := h.rest
  obtain ⟨g, pastes', counter', rfl⟩ := h'.rest
  exact ⟨g ∘ f, pastes', counter', by simp [map_map]⟩

theorem line (h : Carried part s t) {index : Nat} {line : BufferLine} (hline : s.document[index]? = some line) :
    ∃ line', t.document[index]? = some line' ∧ line'.length = line.length := by
  obtain ⟨f, pastes, counter, rfl⟩ := h.rest
  exact ⟨line.map f, by rw [getElem?_map, hline, map_some], length_map _⟩

end Carried

variable {s t : TextBuffer}

theorem forgetPaste_eq (h : s.forgetPaste id = some t) : t = { s with
      document := s.document.map (List.map (renumbered id))
      pastes := dropPaste id s.pastes
      pasteCounter := s.pasteCounter - 1 } := by
  simp only [forgetPaste, bind_eq_bind, bind_eq_some_iff] at h
  obtain ⟨document, hdoc, heq⟩ := h
  cases heq
  have hmap : document = s.document.map (List.map (renumbered id)) :=
    eq_map_of_mapM _ (fun line line' hline => (eq_map_of_mapM _ (fun segment segment' hseg => by
      rw [renumbered, hseg, getD_some]) hline).symm) hdoc
  rw [hmap]
  rfl

variable {part : BufferDocument → BufferDocument}

theorem forgetSegment_carried (hpart : Natural part) (h : s.forgetSegment segment = some t)
    (hnum : Numbered s.pastes (segment :: (part s.document).flatten))
    (hcount : Counted s.pastes s.pasteCounter) : Carried part s t := by
  have hstays : Numbered s.pastes (part s.document).flatten := hnum.sublist (List.sublist_cons_self _ _)
  unfold forgetSegment at h
  split at h
  · cases h
    exact .refl hstays hcount
  next id hid =>
  obtain rfl := forgetPaste_eq h
  have hmem : id ∈ pasteIds [segment] := mem_pasteIds.2 ⟨segment, List.mem_singleton_self _, hid⟩
  have hother : id ∉ pasteIds (part s.document).flatten := Numbered.disjoint (a := [segment]) hnum id hmem
  have hcont : (s.pastes id).isSome := Numbered.content (Numbered.left (a := [segment]) hnum) hmem
  refine ⟨⟨_, _, _, rfl⟩, ?_, hcount.forget hcont, ?_⟩
  · dsimp only
    rw [hpart, ← List.map_flatten]
    exact hstays.forget hother
  dsimp only
  rw [hpart]
  exact plainDocument_map fun other hmem => plainSegment_renumbered hstays hother hmem

/-- The pending segments of a line and a part of the document. -/
def pendingPart (part : BufferDocument → BufferDocument) (index start stop : Nat)
    (document : BufferDocument) : BufferDocument :=
  (((document.getD index []).take stop).drop start) :: part document

theorem natural_pendingPart (hpart : Natural part) (index start stop : Nat) :
    Natural (pendingPart part index start stop) := by
  intro f document
  have hline : (document.map (List.map f)).getD index [] = (document.getD index []).map f := by
    rw [getD_eq_getElem?_getD, getD_eq_getElem?_getD, getElem?_map]
    cases document[index]? <;> rfl
  rw [pendingPart, pendingPart, hpart, hline, map_cons, map_drop, map_take]

theorem forgetColumns_carried (hpart : Natural part) {index start count : Nat}
    (h : (List.range' start count).foldlM (fun s column => do
      let segments ← s.document[index]?
      let segment ← segments[column]?
      s.forgetSegment segment) s = some t)
    (hnum : Numbered s.pastes (pendingPart part index start (start + count) s.document).flatten)
    (hcount : Counted s.pastes s.pasteCounter) : Carried part s t := by
  induction count generalizing s start with
  | zero =>
    cases h
    rw [pendingPart, flatten_cons] at hnum
    exact .refl hnum.right hcount
  | succ count ih =>
    rw [List.range'_succ, List.foldlM_cons] at h
    simp only [bind_eq_bind, bind_eq_some_iff] at h
    obtain ⟨next, ⟨segments, hsegs, segment, hseg, hforget⟩, hrest⟩ := h
    have hlt : start < segments.length := (List.getElem?_eq_some_iff.1 hseg).1
    have hpend : (pendingPart part index start (start + (count + 1)) s.document).flatten =
        segment :: (pendingPart part index (start + 1) (start + 1 + count) s.document).flatten := by
      have hline : s.document.getD index [] = segments := by
        rw [getD_eq_getElem?_getD, hsegs]
        rfl
      have hlt' : start < (segments.take (start + (count + 1))).length := by
        rw [length_take]
        omega
      rw [pendingPart, pendingPart, hline, flatten_cons, flatten_cons,
        List.drop_eq_getElem_cons hlt', List.getElem_take, List.cons_append,
        show start + 1 + count = start + (count + 1) by omega]
      rw [(List.getElem?_eq_some_iff.1 hseg).2]
    rw [hpend] at hnum
    have hcarried : Carried part s next := by
      refine forgetSegment_carried hpart hforget (hnum.sublist ?_) hcount
      rw [pendingPart, flatten_cons]
      exact (List.sublist_append_right _ _).cons_cons _
    have hpend' := forgetSegment_carried (natural_pendingPart hpart index (start + 1) (start + 1 + count))
      hforget hnum hcount
    exact hcarried.trans (ih hrest hpend'.numbered hpend'.counted)

theorem forgetSpan_carried (hpart : Natural part) {index start stop : Nat} (hle : start ≤ stop)
    (h : s.forgetSpan index start stop = some t)
    (hnum : Numbered s.pastes (pendingPart part index start stop s.document).flatten)
    (hcount : Counted s.pastes s.pasteCounter) : Carried part s t := by
  refine forgetColumns_carried hpart h ?_ hcount
  rwa [Nat.add_sub_cancel' hle]

def pendingLines (part : BufferDocument → BufferDocument) (lines : List Nat)
    (document : BufferDocument) : BufferDocument :=
  (lines.map fun line => document.getD line []) ++ part document

theorem natural_pendingLines (hpart : Natural part) (lines : List Nat) : Natural (pendingLines part lines) := by
  intro f document
  rw [pendingLines, pendingLines, hpart, map_append, map_map]
  congr 1
  refine List.map_congr_left fun line _ => ?_
  rw [Function.comp_apply, getD_eq_getElem?_getD, getD_eq_getElem?_getD, getElem?_map]
  cases document[line]? <;> rfl

theorem forgetLines_carried (hpart : Natural part) {lines : List Nat} (h : s.forgetLines lines = some t)
    (hnum : Numbered s.pastes (pendingLines part lines s.document).flatten)
    (hcount : Counted s.pastes s.pasteCounter) : Carried part s t := by
  induction lines generalizing s with
  | nil =>
    cases h
    exact .refl hnum hcount
  | cons index lines ih =>
    simp only [forgetLines, bind_eq_bind, bind_eq_some_iff] at h
    obtain ⟨segments, hsegs, next, hspan, hrest⟩ := h
    have hline : s.document.getD index [] = segments := by
      rw [getD_eq_getElem?_getD, hsegs]
      rfl
    have hpend : (pendingLines part (index :: lines) s.document).flatten =
        (pendingPart (pendingLines part lines) index 0 segments.length s.document).flatten := by
      rw [pendingPart, hline, take_length, List.drop_zero, pendingLines, map_cons, hline]
      rfl
    rw [hpend] at hnum
    have hothers := forgetSpan_carried (natural_pendingLines hpart lines) (Nat.zero_le _) hspan hnum hcount
    have hcarried : Carried part s next := by
      refine forgetSpan_carried hpart (Nat.zero_le _) hspan (hnum.sublist ?_) hcount
      rw [pendingPart, pendingPart, flatten_cons, flatten_cons, pendingLines, List.flatten_append]
      exact (List.Sublist.refl _).append (List.sublist_append_right _ _)
    exact hcarried.trans (ih hrest hothers.numbered hothers.counted)

/-! ## Erasing a range -/

/-- A document without the range between two places. -/
def erased (start stop : BufferCursor) (document : BufferDocument) : BufferDocument :=
  if start.line = stop.line then
    document.set start.line ((document.getD start.line []).take start.column ++
      (document.getD start.line []).drop stop.column)
  else
    document.take start.line ++ [(document.getD start.line []).take start.column ++
      (document.getD stop.line []).drop stop.column] ++ document.drop (stop.line + 1)

/-- A document whose line ends at a column. -/
def headPart (start : BufferCursor) (document : BufferDocument) : BufferDocument :=
  document.set start.line ((document.getD start.line []).take start.column)

/-- The lines of a range joined, once the first of them ends where the range starts. -/
def joinedPart (start stop : BufferCursor) (document : BufferDocument) : BufferDocument :=
  document.take start.line ++ [document.getD start.line [] ++
    (document.getD stop.line []).drop stop.column] ++ document.drop (stop.line + 1)

theorem getD_map_map (f : BufferSegment → BufferSegment) (document : BufferDocument) (index : Nat) :
    (document.map (List.map f)).getD index [] = (document.getD index []).map f := by
  rw [getD_eq_getElem?_getD, getD_eq_getElem?_getD, getElem?_map]
  cases document[index]? <;> rfl

theorem natural_headPart (start : BufferCursor) : Natural (headPart start) := by
  intro f document
  rw [headPart, headPart, getD_map_map, List.map_set, map_take]

theorem natural_joinedPart (start stop : BufferCursor) : Natural (joinedPart start stop) := by
  intro f document
  simp only [joinedPart, getD_map_map, map_append, map_take, map_drop, map_cons, List.map_nil]

theorem natural_erased (start stop : BufferCursor) : Natural (erased start stop) := by
  intro f document
  unfold erased
  split
  · rw [getD_map_map, List.map_set, map_append, map_take, map_drop]
  · simp only [getD_map_map, map_append, map_take, map_drop, map_cons, List.map_nil]

theorem Natural.plain (hpart : Natural part) (pastes : Pastes) (document : BufferDocument) :
    plainDocument pastes (part document) = part (plainDocument pastes document) :=
  (hpart _ _).symm

variable {index start stop : Nat} {line : BufferLine}

theorem perm_flatten_set {gone kept : BufferLine}
    (hline : document[index]? = some line) (hperm : line.Perm (gone ++ kept)) :
    document.flatten.Perm (gone ++ (document.set index kept).flatten) := by
  induction document generalizing index with
  | nil => cases hline
  | cons first rest ih =>
    cases index with
    | zero =>
      cases hline
      rw [List.set_cons_zero, flatten_cons, flatten_cons, ← List.append_assoc]
      exact hperm.append_right _
    | succ index =>
      rw [List.set_cons_succ, flatten_cons, flatten_cons]
      exact ((ih hline).append_left first).trans (List.perm_append_comm_assoc _ _ _)

theorem map_getD_range' (document : BufferDocument) {count : Nat} (h : start + count ≤ document.length) :
    (List.range' start count).map (fun line => document.getD line []) =
      (document.take (start + count)).drop start := by
  refine List.ext_getElem (by simp; omega) fun index hindex hindex' => ?_
  rw [length_map, List.length_range'] at hindex
  simp only [List.getElem_map, List.getElem_range', Nat.one_mul, List.getElem_drop, List.getElem_take]
  rw [getD_eq_getElem?_getD, getElem?_eq_getElem (by omega), getD_some]

/-- The segments of the lines of a range: those between its ends, and those that stay. -/
theorem perm_joinedPart {start stop : BufferCursor}
    (hlt : start.line < stop.line) (hstop : stop.line < document.length) :
    document.flatten.Perm (pendingLines (pendingPart (joinedPart start stop) stop.line 0 stop.column)
      (List.range' (start.line + 1) (stop.line - (start.line + 1))) document).flatten := by
  have hsplit : document = document.take start.line ++ document.getD start.line [] ::
      ((document.take stop.line).drop (start.line + 1) ++
        document.getD stop.line [] :: document.drop (stop.line + 1)) := by
    have hfirst : document.getD start.line [] = document[start.line] := by
      rw [getD_eq_getElem?_getD, getElem?_eq_getElem (by omega), getD_some]
    have hlast : document.getD stop.line [] = document[stop.line] := by
      rw [getD_eq_getElem?_getD, getElem?_eq_getElem hstop, getD_some]
    have hstopTail : document.drop stop.line = document[stop.line] :: document.drop (stop.line + 1) :=
      List.drop_eq_getElem_cons hstop
    have hmid : (document.take stop.line).drop (start.line + 1) ++ document.drop stop.line =
        document.drop (start.line + 1) := by
      have hjoin := congrArg (List.drop (start.line + 1)) (take_append_drop stop.line document)
      rwa [List.drop_append_of_le_length (by rw [length_take]; omega)] at hjoin
    rw [hfirst, hlast, ← hstopTail, hmid, ← List.drop_eq_getElem_cons]
    exact (take_append_drop _ _).symm
  have hlines : (List.range' (start.line + 1) (stop.line - (start.line + 1))).map
      (fun line => document.getD line []) = (document.take stop.line).drop (start.line + 1) := by
    rw [map_getD_range' document (by omega), Nat.add_sub_cancel' (by omega)]
  have hlast : document.getD stop.line [] =
      (document.getD stop.line []).take stop.column ++ (document.getD stop.line []).drop stop.column :=
    (take_append_drop _ _).symm
  rw [pendingLines, pendingPart, joinedPart, hlines, List.drop_zero]
  generalize (document.take stop.line).drop (start.line + 1) = middle at hsplit ⊢
  generalize document.getD stop.line [] = last at hsplit hlast ⊢
  generalize document.getD start.line [] = first at hsplit ⊢
  generalize document.take start.line = front at hsplit ⊢
  generalize document.drop (stop.line + 1) = back at hsplit ⊢
  rw [hsplit]
  nth_rewrite 1 [hlast]
  refine List.perm_iff_count.2 fun segment => ?_
  simp only [List.flatten_append, flatten_cons, List.flatten_nil, List.append_nil, List.count_append]
  omega

theorem joinedPart_headPart {start stop : BufferCursor}
    (hlt : start.line < stop.line) (hstop : stop.line < document.length) :
    joinedPart start stop (headPart start document) = erased start stop document := by
  have hstart : start.line < document.length := by omega
  rw [joinedPart, headPart, erased, if_neg hlt.ne, List.take_set_of_le le_rfl,
    List.drop_set_of_lt (by omega), getD_eq_getElem?_getD, List.getElem?_set_self hstart,
    getD_some]
  congr 4
  rw [getD_eq_getElem?_getD, List.getElem?_set_ne hlt.ne, ← getD_eq_getElem?_getD]

/-- What an erasure leaves: numbered segments that stand for what they stood for. -/
structure Erased (start stop : BufferCursor) (s t : TextBuffer) : Prop where
  rest : ∃ document pastes counter, t = { s with
    document := document, pastes := pastes, pasteCounter := counter, cursor := start }.clampCursor ∧
      Numbered pastes document.flatten ∧ Counted pastes counter ∧
      plainDocument pastes document = erased start stop (plainDocument s.pastes s.document)
  lines : start.line < s.document.length ∧ stop.line < s.document.length

variable {α : Type} {items result : List α}

theorem eq_of_eraseSlice? (h : eraseSlice? items start stop = some result) :
    result = items.take start ++ items.drop stop := by
  unfold eraseSlice? at h
  split at h
  · exact (Option.some.inj h).symm
  · cases h

theorem eq_of_slice? (h : slice? items start stop = some result) : result = (items.take stop).drop start := by
  unfold slice? at h
  split at h
  · exact (Option.some.inj h).symm
  · cases h

theorem eq_of_setAt? {item : α} (h : setAt? items index item = some result) : result = items.set index item := by
  unfold setAt? at h
  split at h
  · exact (Option.some.inj h).symm
  · cases h

theorem getD_of_getElem? (h : document[index]? = some line) : document.getD index [] = line := by
  rw [getD_eq_getElem?_getD, h]
  rfl

theorem take_min_length (items : List α) (n : Nat) : items.take (min n items.length) = items.take n := by
  rcases Nat.le_total n items.length with h | h
  · rw [Nat.min_eq_left h]
  · rw [Nat.min_eq_right h, take_length, List.take_of_length_le h]

theorem drop_min_length (items : List α) (n : Nat) : items.drop (min n items.length) = items.drop n := by
  rcases Nat.le_total n items.length with h | h
  · rw [Nat.min_eq_left h]
  · rw [Nat.min_eq_right h, List.drop_length, List.drop_of_length_le h]

theorem take_succ_set (h : index < document.length):
    (document.take (index + 1)).set index line = document.take index ++ [line] := by
  have htake : (document.take index).length = index := by
    rw [length_take]
    omega
  rw [List.take_succ_eq_append_getElem h, List.set_append_right _ _ htake.le, htake, Nat.sub_self]
  rfl

theorem eraseOrdered_numbered {start stop : BufferCursor}
    (horder : start.line < stop.line ∨ (start.line = stop.line ∧ start.column ≤ stop.column))
    (hnum : Numbered s.pastes s.document.flatten) (hcount : Counted s.pastes s.pasteCounter)
    (h : s.eraseOrdered start stop = some t) :
    (t = s ∧ (s.document.length ≤ start.line ∨ s.document.length ≤ stop.line)) ∨ Erased start stop s t := by
  unfold eraseOrdered at h
  split at h
  · next hout => exact .inl ⟨(Option.some.inj h).symm, hout⟩
  next hin =>
  rw [not_or, not_le, not_le] at hin
  refine .inr ⟨?_, hin⟩
  split at h
  · next hsame =>
    simp only [bind_eq_bind, bind_eq_some_iff] at h
    obtain ⟨line, hline, next, hspan, line', hline', kept, herase, document, hset, heq⟩ := h
    cases heq
    have hle : min start.column line.length ≤ min stop.column line.length := by omega
    have hpart := natural_erased start stop
    have herasedLine : erased start stop s.document =
        s.document.set start.line (line.take start.column ++ line.drop stop.column) := by
      rw [erased, if_pos hsame, getD_of_getElem? hline]
    have hperm : s.document.flatten.Perm (pendingPart (erased start stop) start.line
        (min start.column line.length) (min stop.column line.length) s.document).flatten := by
      rw [pendingPart, getD_of_getElem? hline, flatten_cons, herasedLine]
      refine perm_flatten_set hline ?_
      have hsplit : line = line.take start.column ++ ((line.take (min stop.column line.length)).drop
          (min start.column line.length) ++ line.drop stop.column) := by
        have hmid : (line.take (min stop.column line.length)).drop (min start.column line.length) ++
            line.drop (min stop.column line.length) = line.drop (min start.column line.length) := by
          have hjoin := congrArg (List.drop (min start.column line.length))
            (take_append_drop (min stop.column line.length) line)
          rwa [List.drop_append_of_le_length (by rw [length_take]; omega)] at hjoin
        rw [← drop_min_length line stop.column, hmid, drop_min_length]
        exact (take_append_drop _ _).symm
      nth_rewrite 1 [hsplit]
      exact List.perm_append_comm_assoc _ _ _
    have hcarried := forgetSpan_carried hpart hle hspan (hnum.perm hperm) hcount
    have hlen : line'.length = line.length := by
      obtain ⟨line'', hline'', hlen⟩ := hcarried.line hline
      rw [hline'] at hline''
      rw [Option.some.inj hline'', hlen]
    have hdoc : document = erased start stop next.document := by
      rw [erased, if_pos hsame, getD_of_getElem? hline', eq_of_setAt? hset, eq_of_eraseSlice? herase,
        ← hlen, take_min_length, drop_min_length]
    obtain ⟨f, pastes, counter, hnext⟩ := hcarried.rest
    refine ⟨document, next.pastes, next.pasteCounter, ?_, ?_, hcarried.counted, ?_⟩
    · rw [hnext]
    · rw [hdoc]
      exact hcarried.numbered
    · rw [hdoc, hcarried.plain, hpart.plain]
  · next hne =>
    have hlt : start.line < stop.line := by omega
    simp only [bind_eq_bind, bind_eq_some_iff] at h
    obtain ⟨first, hfirst, second, hspan, first', hfirst', head, hhead, opened, hopened, third, hlines,
      last, hlast, fourth, hspan', last', hlast', tail, htail, first'', hfirst'', joined, hjoined,
      document, herase, heq⟩ := h
    cases heq
    -- The first line loses its end.
    have hperm : s.document.flatten.Perm (pendingPart (headPart start) start.line
        (min start.column first.length) first.length s.document).flatten := by
      rw [pendingPart, getD_of_getElem? hfirst, flatten_cons, headPart, getD_of_getElem? hfirst,
        take_length, drop_min_length]
      refine perm_flatten_set hfirst ?_
      nth_rewrite 1 [← take_append_drop start.column first]
      exact List.perm_append_comm
    have hcarried := forgetSpan_carried (natural_headPart start) (Nat.min_le_right _ _) hspan (hnum.perm hperm) hcount
    have hlen : first'.length = first.length := by
      obtain ⟨line, hline, hlen⟩ := hcarried.line hfirst
      rw [hfirst'] at hline
      rw [Option.some.inj hline, hlen]
    have hopenedEq : opened = headPart start second.document := by
      rw [headPart, getD_of_getElem? hfirst', eq_of_setAt? hopened, eq_of_eraseSlice? hhead,
        List.drop_length, List.append_nil, ← hlen, take_min_length]
    subst hopenedEq
    obtain ⟨f, pastes, counter, hsnd⟩ := hcarried.rest
    have hlengthSecond : (headPart start second.document).length = s.document.length := by
      rw [headPart, List.length_set, hsnd, length_map]
    -- The lines between and the start of the last one are forgotten.
    have hpart := natural_joinedPart start stop
    have hpend := hcarried.numbered.perm (perm_joinedPart hlt (hlengthSecond ▸ hin.2))
    have hlinesCarried := forgetLines_carried (natural_pendingPart hpart stop.line 0 stop.column) hlines
      hpend hcarried.counted
    have hjoinedCarried : Carried (joinedPart start stop)
        { second with document := headPart start second.document } third := by
      refine forgetLines_carried hpart hlines (hpend.sublist ?_) hcarried.counted
      rw [pendingLines, pendingLines, pendingPart, List.flatten_append, List.flatten_append, flatten_cons]
      exact (List.Sublist.refl _).append (List.sublist_append_right _ _)
    have hlastCarried : Carried (joinedPart start stop) third fourth := by
      refine forgetSpan_carried hpart (Nat.zero_le _) hspan' ?_ hlinesCarried.counted
      have hnumberedThird := hlinesCarried.numbered
      rw [pendingPart, getD_of_getElem? hlast] at hnumberedThird
      rwa [pendingPart, getD_of_getElem? hlast, take_min_length]
    have hall := hjoinedCarried.trans hlastCarried
    have hlengthLast : last'.length = last.length := by
      obtain ⟨line, hline, hlen⟩ := hlastCarried.line hlast
      rw [hlast'] at hline
      rw [Option.some.inj hline, hlen]
    have hlengthFourth : fourth.document.length = s.document.length := by
      obtain ⟨g, pastes', counter', hfourth⟩ := hall.rest
      rw [hfourth]
      exact (length_map _).trans hlengthSecond
    have hdoc : document = joinedPart start stop fourth.document := by
      rw [joinedPart, getD_of_getElem? hfirst'', getD_of_getElem? hlast', eq_of_eraseSlice? herase,
        eq_of_setAt? hjoined, eq_of_slice? htail, take_length, ← hlengthLast, drop_min_length,
        List.take_set, List.drop_set_of_lt (by omega)]
      rw [take_succ_set (by omega)]
    obtain ⟨g, pastes', counter', hfourth⟩ := hall.rest
    refine ⟨document, fourth.pastes, fourth.pasteCounter, ?_, ?_, hall.counted, ?_⟩
    · rw [hfourth, hsnd]
    · rw [hdoc]
      exact hall.numbered
    · rw [hdoc, hall.plain, hpart.plain, hcarried.plain, (natural_headPart start).plain]
      refine joinedPart_headPart hlt ?_
      rw [plainDocument, length_map]
      exact hin.2

/-! ## Ranges without markers -/

/-- No segment between two places is a marker. -/
def Unmarked (document : BufferDocument) (start stop : BufferCursor) : Prop :=
  ∀ index line column segment, document[index]? = some line → (line)[column]? = some segment →
    (start.line < index ∨ (start.line = index ∧ start.column ≤ column)) →
    (index < stop.line ∨ (index = stop.line ∧ column < stop.column)) → segment.pasteId = none

theorem forgetColumns_unmarked {columns : List Nat} (hline : s.document[index]? = some line)
    (hcolumns : ∀ column ∈ columns, ∃ segment, (line)[column]? = some segment ∧ segment.pasteId = none) :
    columns.foldlM (fun s column => do
      let segments ← s.document[index]?
      let segment ← segments[column]?
      s.forgetSegment segment) s = some s := by
  induction columns with
  | nil => rfl
  | cons column columns ih =>
    obtain ⟨segment, hseg, hplain⟩ := hcolumns column List.mem_cons_self
    rw [List.foldlM_cons]
    simp only [hline, hseg, forgetSegment, hplain, bind_eq_bind, bind_some]
    exact ih fun other hmem => hcolumns other (List.mem_cons_of_mem _ hmem)

theorem forgetSpan_unmarked (hline : s.document[index]? = some line) (hstop : stop ≤ line.length)
    (hplain : ∀ column segment, start ≤ column → column < stop → (line)[column]? = some segment →
      segment.pasteId = none) : s.forgetSpan index start stop = some s := by
  refine forgetColumns_unmarked hline fun column hmem => ?_
  obtain ⟨hlow, hhigh⟩ := List.mem_range'_1.1 hmem
  have hlt : column < line.length := by omega
  exact ⟨(line)[column], getElem?_eq_getElem hlt, hplain column _ hlow (by omega) (getElem?_eq_getElem hlt)⟩

theorem forgetLines_unmarked {lines : List Nat}
    (h : ∀ index ∈ lines, ∃ line, s.document[index]? = some line ∧ ∀ segment ∈ line, segment.pasteId = none) :
    s.forgetLines lines = some s := by
  induction lines with
  | nil => rfl
  | cons index lines ih =>
    obtain ⟨line, hline, hplain⟩ := h index List.mem_cons_self
    have hspan : s.forgetSpan index 0 line.length = some s :=
      forgetSpan_unmarked hline le_rfl fun column segment _ _ hseg =>
        hplain segment (List.mem_of_getElem? hseg)
    simp only [forgetLines, hline, hspan, bind_eq_bind, bind_some]
    exact ih fun other hmem => h other (List.mem_cons_of_mem _ hmem)

theorem eraseOrdered_unmarked {start stop : BufferCursor}
    (horder : start.line < stop.line ∨ (start.line = stop.line ∧ start.column ≤ stop.column))
    (hstart : start.line < s.document.length) (hstop : stop.line < s.document.length)
    (hplain : Unmarked s.document start stop) : s.eraseOrdered start stop =
      some { s with document := erased start stop s.document, cursor := start }.clampCursor := by
  have hfirst : s.document[start.line]? = some s.document[start.line] := getElem?_eq_getElem hstart
  have hlast : s.document[stop.line]? = some s.document[stop.line] := getElem?_eq_getElem hstop
  rw [eraseOrdered, if_neg (by omega)]
  split
  · next hsame =>
    generalize s.document[start.line] = line at hfirst
    have hspan : s.forgetSpan start.line (min start.column line.length) (min stop.column line.length) =
        some s := forgetSpan_unmarked hfirst (Nat.min_le_right _ _) fun column segment hlow hhigh hseg =>
      hplain _ _ _ _ hfirst hseg (by omega) (by omega)
    have herase : eraseSlice? line (min start.column line.length) (min stop.column line.length) =
      some _ := if_pos (by omega)
    have hset : ∀ line', setAt? s.document start.line line' = some (s.document.set start.line line') :=
      fun _ => if_pos hstart
    simp only [hfirst, hspan, herase, hset, bind_eq_bind, bind_some, erased, if_pos hsame,
      getD_of_getElem? hfirst, take_min_length, drop_min_length]
  next hne =>
  have hlt : start.line < stop.line := by omega
  generalize s.document[start.line] = first at hfirst
  generalize s.document[stop.line] = last at hlast
  have hspan : s.forgetSpan start.line (min start.column first.length) first.length = some s :=
    forgetSpan_unmarked hfirst le_rfl fun column segment hlow hhigh hseg =>
      hplain _ _ _ _ hfirst hseg (by omega) (by omega)
  have herase : eraseSlice? first (min start.column first.length) first.length = some _ :=
    eraseSlice?_tail (Nat.min_le_right _ _)
  have hset : setAt? s.document start.line (first.take (min start.column first.length)) = some _ := if_pos hstart
  have hother : ∀ index, start.line < index → (s.document.set start.line
      (first.take (min start.column first.length)))[index]? = s.document[index]? :=
    fun index hindex => List.getElem?_set_ne hindex.ne
  have hlines : TextBuffer.forgetLines
      { s with document := s.document.set start.line (first.take (min start.column first.length)) }
      (List.range' (start.line + 1) (stop.line - (start.line + 1))) = some
      { s with
        document := s.document.set start.line (first.take (min start.column first.length)) } := by
    refine forgetLines_unmarked fun index hmem => ?_
    obtain ⟨hlow, hhigh⟩ := List.mem_range'_1.1 hmem
    have hindex : index < s.document.length := by omega
    refine ⟨s.document[index], (hother index (by omega)).trans (getElem?_eq_getElem hindex),
      fun segment hseg => ?_⟩
    obtain ⟨column, hcol, rfl⟩ := List.getElem_of_mem hseg
    exact hplain _ _ _ _ (getElem?_eq_getElem hindex) (getElem?_eq_getElem hcol) (by omega) (by omega)
  have hlast' : (s.document.set start.line (first.take (min start.column first.length)))[stop.line]? =
    some last := (hother stop.line hlt).trans hlast
  have hspan' : TextBuffer.forgetSpan
      { s with document := s.document.set start.line (first.take (min start.column first.length)) }
      stop.line 0 (min stop.column last.length) = some _ :=
    forgetSpan_unmarked hlast' (Nat.min_le_right _ _) fun column segment hlow hhigh hseg =>
      hplain _ _ _ _ hlast hseg (by omega) (by omega)
  have hslice : slice? last (min stop.column last.length) last.length = some _ := slice?_tail (Nat.min_le_right _ _)
  have hfirst' : (s.document.set start.line (first.take (min start.column first.length)))[start.line]? =
    some _ := List.getElem?_set_self hstart
  have hset' : ∀ line', setAt? (s.document.set start.line (first.take (min start.column first.length)))
      start.line line' = some (s.document.set start.line line') := by
    intro line'
    rw [setAt?, if_pos (by rw [List.length_set]; exact hstart), List.set_set]
  have herase' : ∀ line', eraseSlice? (s.document.set start.line line') (start.line + 1)
      (stop.line + 1) = some (s.document.take start.line ++ [line'] ++ s.document.drop (stop.line + 1)) := by
    intro line'
    rw [eraseSlice?, if_pos (by rw [List.length_set]; omega), List.take_set,
      List.drop_set_of_lt (by omega), take_succ_set hstart]
  simp only [hfirst, hspan, herase, hset, hlines, hlast', hspan', hslice, hfirst', hset', herase',
    bind_eq_bind, bind_some]
  simp only [erased, if_neg hne, getD_of_getElem? hfirst, getD_of_getElem? hlast, take_min_length, drop_min_length]

end TextBuffer

end CodingHarness.Tui
