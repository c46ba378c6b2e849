import CodingHarness.Tui.BufferBounds
import CodingHarness.Tui.ReferenceBuffer

/-!
# The steps of the reference

For every operation, the reference makes the step that the buffer makes and shows what the buffer then
stands for. The helpers come first: erasures, kills and what comes back from a kill entry.
-/

namespace CodingHarness.Tui

open Library Support
open List (append_nil cons_ne_nil map_cons)
open Option (bind_eq_bind bind_eq_some_iff bind_some map_some)

namespace TextBuffer

variable {lib : Segmenter} {s r t : TextBuffer}

/-! ## Erasures -/

variable {document : BufferDocument}

theorem Mirrors.renew (h : Mirrors s r) {pastes : Pastes} {counter : Nat}
    (cursor : BufferCursor) (hnum : Numbered pastes document.flatten) (hcount : Counted pastes counter) :
    Mirrors { s with document := document, pastes := pastes, pasteCounter := counter, cursor := cursor }
      { r with document := plainDocument pastes document, cursor := cursor } :=
  { h with
    parallel := ⟨rfl, rfl, fun _ => plainSegment_plain⟩
    numbered := hnum
    counted := hcount }

theorem Mirrors.unmarked (h : Mirrors s r) : ∀ segment ∈ r.document.flatten, segment.pasteId = none := by
  intro segment hmem
  rw [h.parallel.document, flatten_mapped] at hmem
  obtain ⟨source, -, rfl⟩ := List.mem_map.1 hmem
  rfl

theorem Mirrors.length (h : Mirrors s r) : r.document.length = s.document.length := by
  rw [h.parallel.document, mapped, List.length_map]

theorem Mirrors.line (h : Mirrors s r) {index : Nat} {line : BufferLine} (hline : s.document[index]? = some line) :
    r.document[index]? = some (line.map (plainSegment s.pastes)) := h.parallel.line hline

variable {start stop : BufferCursor}

theorem mirrors_eraseOrdered (h : Mirrors s r)
    (horder : start.line < stop.line ∨ (start.line = stop.line ∧ start.column ≤ stop.column))
    (hstep : s.eraseOrdered start stop = some t) : ∃ r', r.eraseOrdered start stop = some r' ∧ Mirrors t r' := by
  rcases eraseOrdered_numbered horder h.numbered h.counted hstep with ⟨rfl, hout⟩ | herased
  · refine ⟨r, ?_, h⟩
    rw [eraseOrdered, if_pos (by rw [h.length]; exact hout)]
  obtain ⟨document, pastes, counter, rfl, hnum, hcount, hplain⟩ := herased.rest
  have hunmarked : Unmarked r.document start stop := by
    intro index line column segment hline hseg _ _
    exact h.unmarked segment (List.mem_flatten.2 ⟨line, List.mem_of_getElem? hline, List.mem_of_getElem? hseg⟩)
  have hlines := herased.lines
  rw [← h.length] at hlines
  refine ⟨_, eraseOrdered_unmarked horder hlines.1 hlines.2 hunmarked, ?_⟩
  rw [h.document, ← hplain]
  exact (h.renew start hnum hcount).clampCursor

theorem mirrors_eraseRange (h : Mirrors s r)
    (hstep : s.eraseRange start stop = some t) : ∃ r', r.eraseRange start stop = some r' ∧ Mirrors t r' := by
  unfold eraseRange at hstep ⊢
  split at hstep
  · next hswapped =>
    rw [if_pos hswapped]
    exact mirrors_eraseOrdered h (by omega) hstep
  next hordered =>
  rw [if_neg hordered]
  exact mirrors_eraseOrdered h (by omega) hstep

theorem mirrors_deleteSegment (h : Mirrors s r) {column : Nat} (hstep : s.deleteSegment column = some t) :
    ∃ r', r.deleteSegment column = some r' ∧ Mirrors t r' := by
  simp only [deleteSegment, bind_eq_bind, bind_eq_some_iff] at hstep
  obtain ⟨line, hline, segment, hseg, next, hforget, line', hline', kept, herase, document, hset, heq⟩ := hstep
  cases heq
  let start : BufferCursor := ⟨s.cursor.line, column⟩
  let stop : BufferCursor := ⟨s.cursor.line, column + 1⟩
  have hpart := natural_erased start stop
  have hlt : column < line.length := (List.getElem?_eq_some_iff.1 hseg).1
  have hsplit : line.Perm ([segment] ++ (line.take column ++ line.drop (column + 1))) := by
    have hline' : line = line.take column ++ segment :: line.drop (column + 1) := by
      rw [← (List.getElem?_eq_some_iff.1 hseg).2, ← List.drop_eq_getElem_cons hlt]
      exact (List.take_append_drop _ _).symm
    nth_rewrite 1 [hline']
    exact List.perm_append_comm_assoc _ [segment] _
  have hnum : Numbered s.pastes (segment :: (erased start stop s.document).flatten) := by
    refine h.numbered.perm ?_
    rw [erased, if_pos rfl, getD_of_getElem? hline]
    exact perm_flatten_set hline hsplit
  have hcarried := forgetSegment_carried hpart hforget hnum h.counted
  have hnum' := hcarried.numbered
  have hcount := hcarried.counted
  have hplain := hcarried.plain
  obtain ⟨f, pastes, counter, rfl⟩ := hcarried.rest
  have hdoc : document = erased start stop (s.document.map (List.map f)) := by
    rw [erased, if_pos rfl, getD_of_getElem? hline', eq_of_setAt? hset, eq_of_eraseSlice? herase]
  refine ⟨{ r with document := erased start stop r.document, cursor := s.cursor }, ?_, ?_⟩
  · have hseg' : (line.map (plainSegment s.pastes))[column]? = some (plainSegment s.pastes segment) := by
      rw [List.getElem?_map, hseg, map_some]
    have hforget' : r.forgetSegment (plainSegment s.pastes segment) = some r := rfl
    have herase' : eraseSlice? (line.map (plainSegment s.pastes)) column (column + 1) = some _ :=
      if_pos ⟨Nat.le_succ _, by rw [List.length_map]; exact hlt⟩
    have hindex : s.cursor.line < r.document.length := (List.getElem?_eq_some_iff.1 (h.line hline)).1
    have hset' : ∀ line', setAt? r.document s.cursor.line line' = some (r.document.set s.cursor.line line') :=
      fun _ => if_pos hindex
    simp only [deleteSegment, h.parallel.cursor, h.line hline, hseg', hforget', herase', hset',
      bind_eq_bind, bind_some, erased, if_true, start, stop, getD_of_getElem? (h.line hline)]
  rw [h.document, ← hpart.plain, ← hplain]
  rw [← hdoc] at hnum' ⊢
  exact h.renew s.cursor hnum' hcount

/-! ## Kills -/

variable {killed : BufferDocument}

theorem createKillEntry_pastes {id : Nat} (h : id ∈ pasteIds killed.flatten) :
    (s.createKillEntry killed).pastes id = s.pastes id := by
  obtain ⟨segment, hmem, hid⟩ := mem_pasteIds.1 h
  obtain ⟨line, hline, hseg⟩ := List.mem_flatten.1 hmem
  refine if_pos ?_
  rw [List.any_eq_true]
  refine ⟨line, hline, ?_⟩
  rw [List.any_eq_true]
  exact ⟨segment, hseg, by rw [hid, beq_self_eq_true]⟩

theorem mirrors_createKillEntry (h : Numbered s.pastes killed.flatten) (r : TextBuffer) :
    MirrorsKill (s.createKillEntry killed) (r.createKillEntry (plainDocument s.pastes killed)) :=
  ⟨h.congr fun _ hid => createKillEntry_pastes hid,
    (plainDocument_congr fun _ hid => createKillEntry_pastes hid).symm⟩

variable {deleted : BufferDocument}

theorem flatten_mergeBackward {last : BufferDocument} (h : deleted ≠ []) :
    (mergeBackward deleted last).flatten = deleted.flatten ++ last.flatten := by
  have hget := List.getLast?_eq_some_getLast h
  cases last with
  | nil => simp [mergeBackward, hget]
  | cons first more =>
    have hsplit := congrArg List.flatten (List.dropLast_append_getLast h)
    simp only [mergeBackward, hget]
    rw [← hsplit]
    simp only [List.flatten_append, List.flatten_cons, List.flatten_nil, append_nil, List.append_assoc]

theorem mergeBackward_mapped (f : BufferSegment → BufferSegment) (deleted last : BufferDocument) :
    mergeBackward (mapped f deleted) (mapped f last) = mapped f (mergeBackward deleted last) := by
  cases last with
  | nil =>
    have hnone : ∀ d : BufferDocument, mergeBackward d [] = d := by
      intro d
      unfold mergeBackward
      split
      · next heq => cases heq
      · rfl
    rw [hnone, show mapped f [] = [] from rfl, hnone]
  | cons first more =>
    simp only [mergeBackward, mapped, map_cons, List.getLast?_map]
    cases hget : deleted.getLast? with
    | none => rfl
    | some lastDeleted =>
      simp only [map_some, List.map_append, map_cons, List.map_nil, List.map_dropLast]

theorem mergeForward_mapped (f : BufferSegment → BufferSegment) {last document : BufferDocument}
    (h : mergeForward deleted last = some document) :
    mergeForward (mapped f deleted) (mapped f last) = some (mapped f document) ∧
      document.flatten = last.flatten ++ deleted.flatten := by
  simp only [mergeForward, bind_eq_bind, bind_eq_some_iff] at h
  obtain ⟨lastLine, hlast, firstDeleted, hfirst, heq⟩ := h
  cases heq
  refine ⟨?_, ?_⟩
  · simp only [mergeForward, mapped, List.getLast?_map, hlast, List.head?_map, hfirst, map_some,
      bind_eq_bind, bind_some, List.map_append, map_cons, List.map_nil,
      List.map_dropLast, List.map_tail]
  have hne : last ≠ [] := fun hnil => by rw [hnil] at hlast; cases hlast
  have hget := List.getLast?_eq_some_getLast hne
  rw [hlast, Option.some.injEq] at hget
  have hsplit := congrArg List.flatten (List.dropLast_append_getLast hne)
  have hdel : deleted = firstDeleted :: deleted.tail := by
    cases deleted with
    | nil => cases hfirst
    | cons head tail => rw [Option.some.inj hfirst, List.tail_cons]
  rw [← hsplit, hdel, ← hget, List.tail_cons]
  simp only [List.flatten_append, List.flatten_cons, List.flatten_nil, append_nil, List.append_assoc]

theorem lineText_plain_eq_nil {pastes : Pastes} {line : BufferLine} (h : Numbered pastes line) :
    lineText (line.map (plainSegment pastes)) = [] ↔ lineText line = [] := by
  have hseg : ∀ segment ∈ line, expandSegment pastes segment = [] ↔ segment.text = [] := by
    intro segment hmem
    cases hid : segment.pasteId with
    | none => rw [expandSegment, hid, Option.bind_none, Option.getD_none]
    | some id =>
      obtain ⟨content, hne, hcont, htext⟩ := h.marker segment hmem id hid
      rw [expandSegment, hid, bind_some, hcont, Option.getD_some, htext]
      exact iff_of_false hne (markerFor_ne_nil id content)
  simp only [lineText, List.flatMap_map, List.flatMap_eq_nil_iff, plainSegment]
  exact forall₂_congr hseg

variable {ring ring' : List Bytes}

theorem pushKill_length {text text' : Bytes} (prepend accumulate : Bool)
    (hring : ring'.length = ring.length) (htext : text' = [] ↔ text = []) :
    (pushKill ring' text' prepend accumulate).length = (pushKill ring text prepend accumulate).length := by
  have hlast : ring'.getLast? = none ↔ ring.getLast? = none := by
    rw [List.getLast?_eq_none_iff, List.getLast?_eq_none_iff, ← List.length_eq_zero_iff,
      ← List.length_eq_zero_iff, hring]
  unfold pushKill
  by_cases hempty : text = []
  · rw [if_pos hempty, if_pos (htext.2 hempty), hring]
  rw [if_neg hempty, if_neg fun hnil => hempty (htext.1 hnil)]
  cases accumulate with
  | false => simp [hring]
  | true =>
    cases hget : ring.getLast? with
    | none => simp [hlast.2 hget, hring]
    | some last =>
      cases hget' : ring'.getLast? with
      | none => rw [hlast.1 hget'] at hget; cases hget
      | some last' => simp [hring]

/-- What a kill removes and leaves. -/
structure Killed (s t : TextBuffer) (deleted : BufferDocument) : Prop where
  numbered : Numbered t.pastes (deleted.flatten ++ t.document.flatten)
  pastes : deleted ≠ [] → t.pastes = s.pastes ∧ s.document.flatten.Perm (deleted.flatten ++ t.document.flatten)
  rings : t.docKillRing = s.docKillRing ∧ t.killRing = s.killRing

theorem Killed.plain_eq (h : Killed s t deleted) :
    plainDocument s.pastes deleted = plainDocument t.pastes deleted := by
  by_cases hempty : deleted = []
  · rw [hempty]
    rfl
  · rw [(h.pastes hempty).1]

theorem mirrors_removeUntil (h : Mirrors s r) {target : Nat} {forward : Bool} {removed : BufferLine}
    (hstep : s.removeUntil target forward = some (removed, t)) :
    ∃ r', r.removeUntil target forward = some (removed.map (plainSegment s.pastes), r') ∧ Mirrors t r' ∧
      Killed s t [removed] := by
  obtain ⟨hedit, hrem⟩ := edit_removeUntil hstep
  obtain ⟨r', hr', hmir⟩ := h.editPlain hedit fun segment hmem => (List.not_mem_nil hmem).elim
  have hfst := hrem _ r h.parallel
  obtain ⟨⟨removed', next⟩, hres, rfl⟩ := Option.map_eq_some_iff.1 hr'
  rw [hres, map_some, Option.some.injEq] at hfst
  subst hfst
  refine ⟨next, hres, hmir, ?_⟩
  have hperm := hedit.perm
  rw [append_nil] at hperm
  have hnum := h.numbered.perm hperm
  obtain ⟨document, cursor, rfl⟩ := hedit.rest
  refine ⟨by rwa [List.flatten_singleton], fun _ => ⟨rfl, by rwa [List.flatten_singleton]⟩, rfl, rfl⟩

theorem mirrors_killRange (h : Mirrors s r) {text : Bytes}
    (hstep : s.killRange start stop = some (text, deleted, t)) :
    ∃ text' r', r.killRange start stop = some (text', plainDocument s.pastes deleted, r') ∧ Mirrors t r' ∧
      (text' = [] ↔ text = []) ∧ Killed s t deleted := by
  unfold killRange at hstep ⊢
  split at hstep
  · next hsame =>
    obtain ⟨⟨removed, next⟩, hremove, heq⟩ := Option.bind_eq_some_iff.1 hstep
    obtain ⟨rfl, rfl, rfl⟩ := heq
    obtain ⟨r', hr', hmir, hkilled⟩ := mirrors_removeUntil h hremove
    have hnum : Numbered s.pastes removed := by
      have hleft := hkilled.numbered.left
      rwa [(hkilled.pastes (cons_ne_nil _ _)).1, List.flatten_singleton] at hleft
    rw [if_pos hsame]
    simp only [hr', bind_eq_bind, bind_some]
    exact ⟨_, r', rfl, hmir, lineText_plain_eq_nil hnum, hkilled⟩
  next hne =>
  obtain ⟨next, herase, heq⟩ := Option.bind_eq_some_iff.1 hstep
  obtain ⟨rfl, rfl, rfl⟩ := heq
  obtain ⟨r', hr', hmir⟩ := mirrors_eraseRange h herase
  rw [if_neg hne]
  simp only [hr', bind_eq_bind, bind_some]
  refine ⟨_, r', rfl, hmir, iff_of_true rfl trivial, ⟨hmir.numbered, fun hne => absurd rfl hne, ?_⟩⟩
  obtain ⟨document, cursor, pastes, counter, rfl⟩ := (frame_eraseRange herase).rest
  exact ⟨rfl, rfl⟩

theorem ready_ready (s : TextBuffer) : s.ready.ready = s.ready := ready_eq (s := s.ready) (clampCursor_line _)

theorem Newest.ready (h : s.Newest) : s.ready.Newest := by
  intro hkill entry rest hring id hid
  obtain ⟨hpastes, hdoc⟩ := h hkill entry rest hring id hid
  refine ⟨hpastes, ?_⟩
  rwa [TextBuffer.ready, flatten_clampCursor]

theorem mirrors_follow (h : Mirrors s r) (hmotion : Motion s.ready t) : Mirrors t (r.follow t) := by
  obtain ⟨cursor, index, action, error, rfl⟩ := hmotion
  exact { h.ready with
    parallel := ⟨h.ready.parallel.document, rfl, h.ready.parallel.plain⟩
    index := rfl
    action := rfl
    error := rfl }

theorem Mirrors.withKill (h : Mirrors s r) {kills kills' : List KillEntry}
    (hkills : List.Forall₂ MirrorsKill kills kills') (hne : kills ≠ []) (hring : ring'.length = ring.length)
    (action : LastAction) : Mirrors { s with killRing := ring, docKillRing := kills, lastAction := action }
      { r with killRing := ring', docKillRing := kills', lastAction := action } :=
  { h with
    parallel := ⟨h.parallel.document, h.parallel.cursor, h.parallel.plain⟩
    action := rfl
    kills := hkills
    ringLength := hring
    ring := fun hempty => absurd hempty hne }

theorem Newest.motion (h : s.Newest) (hmotion : Motion s t)
    (hact : t.lastAction = .none ∨ t.lastAction = s.lastAction) : t.Newest := by
  obtain ⟨cursor, index, action, error, rfl⟩ := hmotion
  intro hkill
  rcases hact with hnone | hsame
  · exact absurd (hnone.symm.trans hkill) (by decide)
  · exact h (hsame.symm.trans hkill)

/-- A kill after the given state, whose entry is new or extends the newest one. -/
theorem newest_of_entry {entry : KillEntry} {rest : List KillEntry} {u : TextBuffer}
    (hkills : u.docKillRing = entry :: rest) (hentry : ∀ id ∈ pasteIds entry.document.flatten,
      entry.pastes id = u.pastes id ∧ id ∉ pasteIds u.document.flatten) : u.Newest := by
  intro _ entry' rest' heq id hid
  rw [hkills, List.cons.injEq] at heq
  obtain ⟨rfl, rfl⟩ := heq
  exact hentry id hid

variable {last last' : KillEntry}

theorem Killed.mergeBackward (h : Killed s t deleted)
    (hlast : MirrorsKill last last') (hnewest : ∀ id ∈ pasteIds last.document.flatten,
      last.pastes id = s.pastes id ∧ id ∉ pasteIds s.document.flatten) (r : TextBuffer) :
    MirrorsKill (t.createKillEntry (TextBuffer.mergeBackward deleted last.document))
        (r.createKillEntry (TextBuffer.mergeBackward (plainDocument s.pastes deleted) last'.document)) ∧
      ∀ id ∈ pasteIds (TextBuffer.mergeBackward deleted last.document).flatten, id ∉ pasteIds t.document.flatten := by
  by_cases hempty : deleted = []
  · subst hempty
    exact ⟨⟨.nil _, rfl⟩, fun id hid => (List.not_mem_nil hid).elim⟩
  obtain ⟨hpastes, hperm⟩ := h.pastes hempty
  have hmem : ∀ id, id ∈ pasteIds s.document.flatten ↔
      id ∈ pasteIds (deleted.flatten ++ t.document.flatten) := fun id => (hperm.filterMap _).mem_iff
  have hnum : Numbered t.pastes (deleted.flatten ++ last.document.flatten) := by
    refine h.numbered.left.append (hlast.numbered.congr fun id hid => ?_) fun id hid hid' => ?_
    · rw [hpastes, (hnewest id hid).1]
    refine (hnewest id hid').2 ((hmem id).2 ?_)
    rw [pasteIds_append]
    exact List.mem_append_left _ hid
  have hplain : last'.document = plainDocument t.pastes last.document := by
    rw [hlast.document]
    refine plainDocument_congr fun id hid => ?_
    rw [hpastes, (hnewest id hid).1]
  refine ⟨?_, fun id hid hid' => ?_⟩
  · rw [hplain, ← hpastes]
    have hmerged := mergeBackward_mapped (plainSegment t.pastes) deleted last.document
    rw [mapped, mapped, mapped] at hmerged
    rw [plainDocument, plainDocument, hmerged]
    refine mirrors_createKillEntry ?_ r
    rwa [flatten_mergeBackward hempty]
  rw [flatten_mergeBackward hempty, pasteIds_append] at hid
  rcases List.mem_append.1 hid with hid | hid
  · exact h.numbered.disjoint id hid hid'
  refine (hnewest id hid).2 ((hmem id).2 ?_)
  rw [pasteIds_append]
  exact List.mem_append_right _ hid'

/-- A kill that starts an entry: where kills accumulate, nothing was in the ring yet. -/
theorem Killed.freshEntry {u : TextBuffer} (hkilled : Killed s u deleted) (h : Mirrors u r) {wasKill : Bool}
    (hring : ring'.length = ring.length)
    (hfresh : ∀ last rest, wasKill = true → u.docKillRing = last :: rest → False) :
    (wasKill = true → r.docKillRing = []) ∧ Mirrors { u with
          killRing := ring
          docKillRing := u.createKillEntry deleted :: u.docKillRing
          lastAction := .kill }
        { r with
          killRing := ring'
          docKillRing := r.createKillEntry (plainDocument u.pastes deleted) :: r.docKillRing
          lastAction := .kill } ∧
      TextBuffer.Newest { u with
        killRing := ring
        docKillRing := u.createKillEntry deleted :: u.docKillRing
        lastAction := .kill } := by
  have hentry := mirrors_createKillEntry hkilled.numbered.left r
  refine ⟨fun hwas => ?_, h.withKill (.cons hentry h.kills) (cons_ne_nil _ _) hring .kill,
    newest_of_entry rfl fun id hid => ⟨createKillEntry_pastes hid, hkilled.numbered.disjoint id hid⟩⟩
  have hempty : u.docKillRing = [] := List.eq_nil_iff_forall_not_mem.2 fun last hmem => by
    obtain ⟨first, rest, heq⟩ := List.exists_cons_of_ne_nil (List.ne_nil_of_mem hmem)
    exact hfresh first rest hwas heq
  have hkills := h.kills
  rw [hempty] at hkills
  exact List.forall₂_nil_left_iff.1 hkills

/-- After the motion of a word kill both buffers stop with its error or at its place, or both go on. -/
theorem mirrors_found {moved : TextBuffer} {next next' : Option TextBuffer} (hnewest : s.Newest)
    (hmotion : Motion s moved) (hact : moved.lastAction = .none ∨ moved.lastAction = s.lastAction)
    (hmir : Mirrors moved r)
    (hstep : (if moved.error.isSome then some { moved with cursor := s.cursor, lastAction := s.lastAction }
      else if s.cursor = moved.cursor then some moved else next) = some t)
    (hnext : ¬ moved.error.isSome = true → next = some t → ∃ r', next' = some r' ∧ Mirrors t r' ∧ t.Newest) :
    ∃ r', (if r.error.isSome then some { r with cursor := s.cursor, lastAction := s.lastAction }
      else if s.cursor = r.cursor then some r else next') = some r' ∧ Mirrors t r' ∧ t.Newest := by
  split at hstep
  · next herror =>
    cases hstep
    rw [if_pos (hmir.error.symm ▸ herror)]
    refine ⟨_, rfl, (hmir.withCursor s.cursor).withAction s.lastAction, ?_⟩
    obtain ⟨cursor, index, action, error, rfl⟩ := hmotion
    exact hnewest
  next herror =>
  rw [if_neg (hmir.error.symm ▸ herror)]
  split at hstep
  · next hsame =>
    cases hstep
    rw [if_pos (hsame.trans hmir.parallel.cursor.symm)]
    exact ⟨r, rfl, hmir, hnewest.motion hmotion hact⟩
  · next hsame =>
    rw [if_neg fun heq => hsame (heq.trans hmir.parallel.cursor)]
    exact hnext herror hstep

theorem mirrors_killBackward (h : Mirrors s r) (hnewest : s.Newest)
    (hstep : s.killBackward (moveWordBackward lib) = some t) :
    ∃ r', r.killBackward (fun r => (s.ready.moveWordBackward lib).map r.follow) = some r' ∧
      Mirrors t r' ∧ t.Newest := by
  have hready := h.ready
  have hnready := hnewest.ready
  simp only [killBackward] at hstep ⊢
  have hmove : ∀ moved, moveWordBackward lib s.ready = some moved →
      Motion s.ready moved ∧ (moved.lastAction = .none ∨ moved.lastAction = s.ready.lastAction) := by
    intro moved hmoved
    have hmotion := moveWordBackward_motion hmoved
    rwa [ready_ready] at hmotion
  have hfollow : ∀ moved, Motion s.ready moved → Mirrors moved (r.ready.follow moved) := by
    intro moved hmotion
    refine mirrors_follow hready ?_
    rwa [ready_ready]
  generalize s.ready = s₁ at hready hnready hstep hmove hfollow ⊢
  generalize r.ready = r₁ at hready hfollow ⊢
  rw [hready.parallel.cursor, hready.options, hready.action]
  split at hstep
  · next hstart =>
    cases hstep
    rw [if_pos hstart]
    exact ⟨r₁, rfl, hready, hnready⟩
  next hstart =>
  rw [if_neg hstart]
  obtain ⟨moved, hmoved, hstep⟩ := Option.bind_eq_some_iff.1 hstep
  obtain ⟨hmotion, hact⟩ := hmove moved hmoved
  have hmir := hfollow moved hmotion
  simp only [hmoved, map_some, bind_eq_bind, bind_some]
  generalize r₁.follow moved = r₂ at hmir ⊢
  refine mirrors_found hnready hmotion hact hmir hstep fun herror hstep => ?_
  obtain ⟨⟨text, deleted, u⟩, hkill, hstep⟩ := Option.bind_eq_some_iff.1 hstep
  obtain ⟨text', r₃, hkill', hmir', htext, hkilled⟩ := mirrors_killRange hmir.pushUndo hkill
  simp only [hmir.parallel.cursor, hkill', bind_some]
  have hkills := hmir'.kills
  have hring := pushKill_length true (decide (s₁.lastAction = .kill)) hmir'.ringLength htext
  split at hstep
  · next last rest hwas hlast =>
    cases hstep
    rw [hlast] at hkills
    obtain ⟨last', rest', hlastMirrors, hrest, hlast'⟩ := List.forall₂_cons_left_iff.1 hkills
    have hlast₁ : s₁.docKillRing = last :: rest := by
      obtain ⟨cursor, index, action, error, rfl⟩ := hmotion
      exact hkilled.rings.1.symm.trans hlast
    have hnewest₁ : ∀ id ∈ pasteIds last.document.flatten, last.pastes id = moved.pushUndo.pastes id ∧
        id ∉ pasteIds moved.pushUndo.document.flatten := by
      obtain ⟨cursor, index, action, error, rfl⟩ := hmotion
      exact hnready (of_decide_eq_true hwas) last rest hlast₁
    obtain ⟨hmerged, hdisjoint⟩ := hkilled.mergeBackward hlastMirrors hnewest₁ r₃
    simp only [hwas, hlast']
    refine ⟨_, rfl, hmir'.withKill (.cons hmerged hrest) (cons_ne_nil _ _) (hwas ▸ hring) .kill,
      newest_of_entry rfl fun id hid => ⟨createKillEntry_pastes hid, hdisjoint id hid⟩⟩
  · next hfresh =>
    cases hstep
    obtain ⟨hempty, hmir'', hnewest'⟩ := hkilled.freshEntry hmir' hring hfresh
    refine ⟨_, ?_, hmir'', hnewest'⟩
    rw [hkilled.plain_eq]
    split
    · next hwas hlast => cases (hempty hwas).symm.trans hlast
    · rfl

theorem moveWordForward_nextWord (hmove : s.moveWordForward lib = some t) (herror : ¬ t.error.isSome = true)
    (hline : t.cursor.line = s.ready.cursor.line) :
    ((s.ready.document.getD s.ready.cursor.line []).take t.cursor.column).drop s.ready.cursor.column =
      s.nextWord lib := by
  simp only [moveWordForward, bind_eq_bind, bind_eq_some_iff] at hmove
  obtain ⟨line, hget, hmove⟩ := hmove
  split at hmove
  · cases hmove
    exact absurd hline (Nat.succ_ne_self _)
  simp only [nextWord, getD_of_getElem? hget]
  cases hfound : findWordForward lib (lineText line) s.ready.cursorByteOffset (atomicSpans line 0) with
  | error error =>
    rw [hfound] at hmove
    cases hmove
    exact absurd rfl herror
  | ok next =>
    rw [hfound] at hmove
    cases hmove
    rfl

theorem killRange_deleted {text : Bytes}
    (hstep : s.killRange start stop = some (text, deleted, t)) (hdel : deleted ≠ []) : start.line = stop.line ∧
      deleted = [((s.document.getD s.cursor.line []).take stop.column).drop s.cursor.column] := by
  unfold killRange at hstep
  split at hstep
  · next hsame =>
    refine ⟨hsame, ?_⟩
    obtain ⟨⟨removed, next⟩, hremove, heq⟩ := Option.bind_eq_some_iff.1 hstep
    obtain ⟨-, rfl, -⟩ := heq
    simp only [removeUntil, bind_eq_bind, bind_eq_some_iff, if_true] at hremove
    obtain ⟨line, hline, slice, hslice, kept, -, heq⟩ := hremove
    obtain ⟨rfl, -⟩ := Prod.mk.inj (Option.some.inj heq)
    rw [getD_of_getElem? hline, eq_of_slice? hslice]
  obtain ⟨next, -, heq⟩ := Option.bind_eq_some_iff.1 hstep
  simp only [Option.some.injEq, Prod.mk.injEq] at heq
  exact absurd heq.2.1.symm hdel

/-- The entry of a forward kill that continues another: it brings no markers. -/
theorem Killed.mergeForward (h : Killed s t deleted) (hlast : MirrorsKill last last') (hne : deleted ≠ [])
    (hnewest : ∀ id ∈ pasteIds last.document.flatten, last.pastes id = s.pastes id ∧ id ∉ pasteIds s.document.flatten)
    (hplain : ∀ segment ∈ deleted.flatten, segment.pasteId = none)
    (hmerge : TextBuffer.mergeForward deleted last.document = some document) :
    ∃ document', TextBuffer.mergeForward (plainDocument s.pastes deleted) last'.document = some document' ∧
      MirrorsKill { last with document := document } { last' with document := document' } ∧
      ∀ id ∈ pasteIds document.flatten, last.pastes id = t.pastes id ∧ id ∉ pasteIds t.document.flatten := by
  obtain ⟨hmapped, hflatten⟩ := mergeForward_mapped (plainSegment last.pastes) hmerge
  have hids : pasteIds document.flatten = pasteIds last.document.flatten := by
    have hempty : pasteIds deleted.flatten = [] := List.filterMap_eq_nil_iff.2 hplain
    rw [hflatten, pasteIds_append, hempty, append_nil]
  have hsame : plainDocument s.pastes deleted = mapped (plainSegment last.pastes) deleted := by
    rw [plainDocument_plain hplain]
    exact (plainDocument_plain hplain).symm
  obtain ⟨hpastes, hperm⟩ := h.pastes hne
  refine ⟨mapped (plainSegment last.pastes) document, ?_, ⟨?_, rfl⟩, fun id hid => ?_⟩
  · rw [hsame, hlast.document]
    exact hmapped
  · rw [hflatten]
    refine hlast.numbered.append (.of_plain hplain) fun id _ hid => ?_
    obtain ⟨segment, hmem, hsome⟩ := mem_pasteIds.1 hid
    rw [hplain segment hmem] at hsome
    cases hsome
  · rw [hids] at hid
    obtain ⟨hpaste, hdoc⟩ := hnewest id hid
    refine ⟨hpaste.trans (by rw [hpastes]), fun hid' => hdoc ((hperm.filterMap _).mem_iff.2 ?_)⟩
    rw [List.filterMap_append]
    exact List.mem_append_right _ hid'

theorem mirrors_killForward (h : Mirrors s r) (hnewest : s.Newest)
    (hkept : s.lastAction = .kill → s.docKillRing ≠ [] → ∀ segment ∈ s.nextWord lib, segment.pasteId = none)
    (hstep : s.killForward (moveWordForward lib) = some t) :
    ∃ r', r.killForward (fun r => (s.ready.moveWordForward lib).map r.follow) = some r' ∧
      Mirrors t r' ∧ t.Newest := by
  have hready := h.ready
  have hnready := hnewest.ready
  simp only [killForward] at hstep ⊢
  have hmove : ∀ moved, moveWordForward lib s.ready = some moved →
      Motion s.ready moved ∧ (moved.lastAction = .none ∨ moved.lastAction = s.ready.lastAction) := by
    intro moved hmoved
    have hmotion := moveWordForward_motion hmoved
    rwa [ready_ready] at hmotion
  have hfollow : ∀ moved, Motion s.ready moved → Mirrors moved (r.ready.follow moved) := by
    intro moved hmotion
    refine mirrors_follow hready ?_
    rwa [ready_ready]
  have hword : ∀ moved, moveWordForward lib s.ready = some moved → ¬ moved.error.isSome = true →
      moved.cursor.line = s.ready.cursor.line →
      ((s.ready.document.getD s.ready.cursor.line []).take moved.cursor.column).drop
        s.ready.cursor.column = s.nextWord lib := by
    intro moved hmoved herror hline
    have hnext := moveWordForward_nextWord hmoved herror (by rw [ready_ready]; exact hline)
    rw [nextWord] at hnext ⊢
    rwa [ready_ready] at hnext
  have hact : s.ready.lastAction = s.lastAction := rfl
  have hrings : s.ready.docKillRing = s.docKillRing := rfl
  rw [← hact, ← hrings] at hkept
  generalize s.ready = s₁ at hready hnready hstep hmove hfollow hword hkept ⊢
  generalize r.ready = r₁ at hready hfollow ⊢
  obtain ⟨line, hline, hstep⟩ := Option.bind_eq_some_iff.1 hstep
  simp only [hready.parallel.cursor, hready.line hline, hready.options, hready.action, hready.length,
    List.length_map, bind_eq_bind, bind_some]
  split at hstep
  · next hend =>
    cases hstep
    rw [if_pos hend]
    exact ⟨r₁, rfl, hready, hnready⟩
  next hend =>
  rw [if_neg hend]
  obtain ⟨moved, hmoved, hstep⟩ := Option.bind_eq_some_iff.1 hstep
  obtain ⟨hmotion, hact'⟩ := hmove moved hmoved
  have hmir := hfollow moved hmotion
  simp only [hmoved, map_some, bind_some]
  generalize r₁.follow moved = r₂ at hmir ⊢
  refine mirrors_found hnready hmotion hact' hmir hstep fun herror hstep => ?_
  obtain ⟨⟨text, deleted, u⟩, hkill, hstep⟩ := Option.bind_eq_some_iff.1 hstep
  obtain ⟨text', r₃, hkill', hmir', htext, hkilled⟩ := mirrors_killRange (hmir.withCursor s₁.cursor).pushUndo hkill
  simp only [hmir.parallel.cursor, hkill', bind_some]
  have hkills := hmir'.kills
  have hring := pushKill_length false (decide (s₁.lastAction = .kill)) hmir'.ringLength htext
  split at hstep
  · next last rest hwas hlast =>
    obtain ⟨document, hmerge, hstep⟩ := Option.bind_eq_some_iff.1 hstep
    cases hstep
    rw [hlast] at hkills
    obtain ⟨last', rest', hlastMirrors, hrest, hlast'⟩ := List.forall₂_cons_left_iff.1 hkills
    have hdel : deleted ≠ [] := by
      rintro rfl
      simp [mergeForward] at hmerge
    obtain ⟨hsameLine, hrem⟩ := killRange_deleted hkill hdel
    have hlast₁ : s₁.docKillRing = last :: rest := by
      obtain ⟨cursor, index, action, error, rfl⟩ := hmotion
      exact hkilled.rings.1.symm.trans hlast
    have hplain : ∀ segment ∈ deleted.flatten, segment.pasteId = none := by
      intro segment hmem
      refine hkept (of_decide_eq_true hwas) (hlast₁ ▸ cons_ne_nil _ _) segment ?_
      rw [← hword moved hmoved herror hsameLine.symm]
      rw [hrem, List.flatten_singleton] at hmem
      obtain ⟨cursor, index, action, error, rfl⟩ := hmotion
      exact hmem
    have hnewest₁ : ∀ id ∈ pasteIds last.document.flatten,
        last.pastes id = ({ moved with cursor := s₁.cursor }.pushUndo).pastes id ∧
          id ∉ pasteIds ({ moved with cursor := s₁.cursor }.pushUndo).document.flatten := by
      obtain ⟨cursor, index, action, error, rfl⟩ := hmotion
      exact hnready (of_decide_eq_true hwas) last rest hlast₁
    obtain ⟨document', hmerge', hentry, hentryNewest⟩ := hkilled.mergeForward hlastMirrors hdel hnewest₁ hplain hmerge
    simp only [hwas, hlast', hmerge', bind_some]
    exact ⟨_, rfl, hmir'.withKill (.cons hentry hrest) (cons_ne_nil _ _) (hwas ▸ hring) .kill,
      newest_of_entry rfl hentryNewest⟩
  · next hfresh =>
    cases hstep
    obtain ⟨hempty, hmir'', hnewest'⟩ := hkilled.freshEntry hmir' hring hfresh
    refine ⟨_, ?_, hmir'', hnewest'⟩
    rw [hkilled.plain_eq]
    split
    · next hwas hlast => cases (hempty hwas).symm.trans hlast
    · rfl

end TextBuffer

end CodingHarness.Tui
