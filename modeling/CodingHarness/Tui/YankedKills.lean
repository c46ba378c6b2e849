import CodingHarness.Tui.KillRings

/-!
# Yanked kills

A yank after a run of kills puts back what the run took (`kills_yanked`), as long as the kills merge: the
newest entry then holds all that the document lacks at the cursor (`Lacks`). Its markers get new numbers
above the counter, with the contents they had, so the expanded text is the one before the run.
-/

namespace CodingHarness.Tui

open Library Support

namespace TextBuffer

variable {lib : Segmenter} {s t u : TextBuffer}

/-! ## Entries that come back -/

/-- Numbers were given out from the counter on, and those below it stand for what they stood for. -/
structure Grown (s t : TextBuffer) : Prop where
  rest : ∃ pastes counter, t = { s with pastes := pastes, pasteCounter := counter }
  le : s.pasteCounter ≤ t.pasteCounter
  kept : ∀ id, id ≤ s.pasteCounter → t.pastes id = s.pastes id

theorem Grown.refl (s : TextBuffer) : Grown s s := ⟨⟨_, _, rfl⟩, le_rfl, fun _ _ => rfl⟩

theorem Grown.trans (h : Grown s t) (h' : Grown t u) : Grown s u := by
  refine ⟨?_, h.le.trans h'.le, fun id hid => ?_⟩
  · obtain ⟨pastes, counter, rfl⟩ := h.rest
    obtain ⟨pastes', counter', rfl⟩ := h'.rest
    exact ⟨pastes', counter', rfl⟩
  · rw [h'.kept id (hid.trans h.le), h.kept id hid]

/-- Segments stand for what other segments stood for, and their numbers have been given out. -/
structure Shows (pastes : Pastes) (t : TextBuffer) (segments result : BufferLine) : Prop where
  plain : result.map (plainSegment t.pastes) = segments.map (plainSegment pastes)
  bounded : ∀ id ∈ pasteIds result, id ≤ t.pasteCounter

variable {segments : BufferLine} {pastes : Pastes}

theorem Shows.grown {result : BufferLine} (h : Shows pastes t segments result)
    (hgrown : Grown t u) : Shows pastes u segments result := by
  refine ⟨?_, fun id hid => (h.bounded id hid).trans hgrown.le⟩
  rw [← h.plain]
  refine List.map_congr_left fun segment hmem => plainSegment_congr fun id hid => hgrown.kept id ?_
  exact h.bounded id (mem_pasteIds.2 ⟨segment, hmem, hid⟩)

theorem Shows.cons {pastes : Pastes} {segment result : BufferSegment} {rest results : BufferLine}
    (h : Shows pastes t [segment] [result]) (h' : Shows pastes t rest results) :
    Shows pastes t (segment :: rest) (result :: results) := by
  refine ⟨?_, fun id hid => ?_⟩
  · rw [List.map_cons, List.map_cons, h'.plain, List.head_eq_of_cons_eq h.plain]
  · rw [show result :: results = [result] ++ results from rfl, pasteIds_append] at hid
    exact (List.mem_append.1 hid).elim (h.bounded id) (h'.bounded id)

/-- The contents of the entry are those of the buffer, and the numbers that were given out for them show
them. -/
structure Renumbers (entry : KillEntry) (pastes : Pastes) (remapped : List (Nat × Nat))
    (s : TextBuffer) : Prop where
  given : ∀ source target, remapped.lookup source = some target → target ≤ s.pasteCounter ∧
    ∃ content, pastes source = some content ∧ s.pastes target = some content
  old : ∀ id, entry.pastes id = none ∨ entry.pastes id = pastes id

/-- The numbers in segments are old ones. -/
def OldIn (pastes : Pastes) (s : TextBuffer) (segments : BufferLine) : Prop :=
  ∀ id ∈ pasteIds segments, id ≤ s.pasteCounter ∧ s.pastes id = pastes id

theorem OldIn.grown (h : OldIn pastes s segments) (hgrown : Grown s t) : OldIn pastes t segments := fun id hid =>
  ⟨(h id hid).1.trans hgrown.le, (hgrown.kept id (h id hid).1).trans (h id hid).2⟩

theorem OldIn.left {a b : BufferLine} (h : OldIn pastes s (a ++ b)) : OldIn pastes s a :=
  fun id hid => h id (by rw [pasteIds_append]; exact List.mem_append_left _ hid)

theorem OldIn.right {a b : BufferLine} (h : OldIn pastes s (a ++ b)) : OldIn pastes s b :=
  fun id hid => h id (by rw [pasteIds_append]; exact List.mem_append_right _ hid)

theorem OldIn.plain (h : OldIn pastes s segments) :
    segments.map (plainSegment s.pastes) = segments.map (plainSegment pastes) :=
  List.map_congr_left fun segment hmem => plainSegment_congr fun id hid =>
    (h id (mem_pasteIds.2 ⟨segment, hmem, hid⟩)).2

theorem OldIn.shows (h : OldIn pastes s segments) :
    Shows pastes s segments segments := ⟨h.plain, fun id hid => (h id hid).1⟩

variable {remapped : List (Nat × Nat)} {entry : KillEntry}

theorem materializeSegment_shows
    {segment : BufferSegment} (h : Renumbers entry pastes remapped s) (hold : OldIn pastes s [segment]) :
    Shows pastes (materializeSegment entry remapped s segment).2.2 [segment]
        [(materializeSegment entry remapped s segment).1] ∧
      Grown s (materializeSegment entry remapped s segment).2.2 ∧
      Renumbers entry pastes (materializeSegment entry remapped s segment).2.1
        (materializeSegment entry remapped s segment).2.2 := by
  cases hid : segment.pasteId with
  | none =>
    have heq : materializeSegment entry remapped s segment = (segment, remapped, s) := by
      rw [materializeSegment, hid]
    rw [heq]
    exact ⟨hold.shows, .refl s, h⟩
  | some source =>
    cases hlookup : remapped.lookup source with
    | some target =>
      -- The marker was seen before and takes the number it got then.
      have heq : materializeSegment entry remapped s segment =
          (⟨markerFor target ((entry.pastes source).getD []), some target⟩, remapped, s) := by
        simp only [materializeSegment, hid, hlookup]
      obtain ⟨hle, content, hcont, htgt⟩ := h.given source target hlookup
      rw [heq]
      refine ⟨⟨?_, fun id hmem => ?_⟩, .refl s, h⟩
      · simp only [List.map_cons, List.map_nil, plainSegment, expandSegment, hid, Option.bind_some,
          hcont, htgt, Option.getD_some]
      · obtain rfl := List.mem_singleton.1 hmem
        exact hle
    | none =>
      cases hentry : entry.pastes source with
      | none =>
        -- The entry has no content, so the marker stays as it is and shows the buffer's.
        have heq : materializeSegment entry remapped s segment =
            (segment, remapped, { s with pasteCounter := s.pasteCounter + 1 }) := by
          simp only [materializeSegment, hid, hlookup, hentry]
        have hgrown : Grown s { s with pasteCounter := s.pasteCounter + 1 } :=
          ⟨⟨_, _, rfl⟩, Nat.le_succ _, fun _ _ => rfl⟩
        rw [heq]
        refine ⟨hold.shows.grown hgrown, hgrown, fun source target hgiven => ?_, h.old⟩
        obtain ⟨hle, hcont⟩ := h.given source target hgiven
        exact ⟨hle.trans (Nat.le_succ _), hcont⟩
      | some content =>
        have heq : materializeSegment entry remapped s segment =
            (⟨markerFor (s.pasteCounter + 1) content, some (s.pasteCounter + 1)⟩,
              (source, s.pasteCounter + 1) :: remapped, { s with
                pasteCounter := s.pasteCounter + 1
                pastes := Function.update s.pastes (s.pasteCounter + 1) (some content) }) := by
          simp only [materializeSegment, hid, hlookup, hentry]
        have hcont : pastes source = some content := by
          rcases h.old source with hnone | hsame
          · rw [hentry] at hnone
            cases hnone
          · rw [← hsame, hentry]
        rw [heq]
        refine ⟨⟨?_, fun id hmem => ?_⟩, ⟨⟨_, _, rfl⟩, Nat.le_succ _, fun id hle => ?_⟩,
          fun other target hgiven => ?_, h.old⟩
        · simp only [List.map_cons, List.map_nil, plainSegment, expandSegment, hid, Option.bind_some,
            hcont, Function.update_self, Option.getD_some]
        · obtain rfl := List.mem_singleton.1 hmem
          exact le_rfl
        · exact Function.update_of_ne (by omega) _ _
        · rw [List.lookup_cons] at hgiven
          split at hgiven
          · next hother =>
            cases hgiven
            rw [beq_iff_eq] at hother
            exact ⟨le_rfl, content, hother ▸ hcont, Function.update_self _ _ _⟩
          obtain ⟨hle, shown, hshown, htgt⟩ := h.given other target hgiven
          refine ⟨hle.trans (Nat.le_succ _), shown, hshown, ?_⟩
          dsimp only
          rw [Function.update_of_ne (by omega), htgt]

theorem materializeLine_shows
    {line : BufferLine} (h : Renumbers entry pastes remapped s) (hold : OldIn pastes s line) :
    Shows pastes (materializeLine entry remapped s line).2.2 line (materializeLine entry remapped s line).1 ∧
      Grown s (materializeLine entry remapped s line).2.2 ∧
      Renumbers entry pastes (materializeLine entry remapped s line).2.1
        (materializeLine entry remapped s line).2.2 := by
  induction line generalizing remapped s with
  | nil => exact ⟨⟨rfl, fun _ hmem => (List.not_mem_nil hmem).elim⟩, .refl s, h⟩
  | cons segment rest ih =>
    obtain ⟨hshows, hgrown, hrenumbers⟩ := materializeSegment_shows h (OldIn.left (a := [segment]) (b := rest) hold)
    obtain ⟨hshows', hgrown', hrenumbers'⟩ :=
      ih hrenumbers ((OldIn.right (a := [segment]) (b := rest) hold).grown hgrown)
    exact ⟨(hshows.grown hgrown').cons hshows', hgrown.trans hgrown', hrenumbers'⟩

variable {document : BufferDocument}

theorem materializeLines_shows (h : Renumbers entry pastes remapped s) (hold : OldIn pastes s document.flatten) :
    List.Forall₂ (Shows pastes (materializeLines entry remapped s document).2) document
        (materializeLines entry remapped s document).1 ∧ Grown s (materializeLines entry remapped s document).2 := by
  induction document generalizing remapped s with
  | nil => exact ⟨.nil, .refl s⟩
  | cons line rest ih =>
    obtain ⟨hshows, hgrown, hrenumbers⟩ := materializeLine_shows h (OldIn.left (a := line) (b := rest.flatten) hold)
    obtain ⟨hshows', hgrown'⟩ := ih hrenumbers ((OldIn.right (a := line) (b := rest.flatten) hold).grown hgrown)
    exact ⟨.cons (hshows.grown hgrown') hshows', hgrown.trans hgrown'⟩

theorem plainDocument_shows {document result : BufferDocument} (h : List.Forall₂ (Shows pastes t) document result) :
    plainDocument t.pastes result = plainDocument pastes document := by
  induction h with
  | nil => rfl
  | cons hline _ ih =>
    rw [plainDocument, plainDocument, List.map_cons, List.map_cons, hline.plain]
    exact congrArg _ ih

theorem plainDocument_old
    (h : OldIn pastes s document.flatten) : plainDocument s.pastes document = plainDocument pastes document := by
  refine List.map_congr_left fun line hline => OldIn.plain fun id hid => h id ?_
  obtain ⟨segment, hmem, hsome⟩ := mem_pasteIds.1 hid
  exact mem_pasteIds.2 ⟨segment, List.mem_flatten.2 ⟨line, hline, hmem⟩, hsome⟩

theorem plainDocument_joinLines (pastes : Pastes) (a b : BufferDocument) :
    plainDocument pastes (joinLines a b) = joinLines (plainDocument pastes a) (plainDocument pastes b) :=
  joinLines_map _ a b

/-! ## Runs of kills -/

/-- The document is the one before the run, and no kill has been made. -/
structure Untouched (s t : TextBuffer) : Prop where
  document : t.document = s.document
  pastes : t.pastes = s.pastes
  counter : t.pasteCounter = s.pasteCounter
  action : t.lastAction ≠ .kill

/-- The newest entry is what the document lacks at the cursor. -/
structure Lacks (s t : TextBuffer) : Prop where
  pastes : t.pastes = s.pastes
  counter : t.pasteCounter = s.pasteCounter
  action : t.lastAction = .kill
  newest : ∃ entry rest lines before after more, t.docKillRing = entry :: rest ∧ Around t lines before after more ∧
    s.document = joinLines (joinLines (lines ++ [before]) entry.document) (after :: more) ∧
    ∀ id, entry.pastes id = none ∨ entry.pastes id = s.pastes id

theorem Untouched.lacks (h : Untouched s t) {lines more deleted : BufferDocument} {before after : BufferLine}
    {prepend : Bool} (haround : Around t lines before after more)
    (htook : Took (lines ++ [before]) (after :: more) t u deleted prepend) : Lacks s u := by
  refine ⟨htook.pastes.trans h.pastes, htook.counter.trans h.counter, htook.action, ?_⟩
  rcases htook.entered with ⟨last, rest, entry, hkilled, -⟩ | ⟨-, hents⟩
  · exact absurd hkilled h.action
  obtain ⟨lines', before', after', more', haround', hhead, htail⟩ := htook.cut
  refine ⟨_, _, lines', before', after', more', hents, haround', ?_, fun id => ?_⟩
  · rw [← h.document, haround.joined, hhead, htail]
    cases prepend with
    | true => rfl
    | false => exact (joinLines_assoc _ htook.nonempty _).symm
  · rw [← h.pastes]
    exact createKillEntry_pastes_cases t deleted id

/-- A later kill of a run goes to the end of the newest entry that it was next to. -/
theorem Lacks.next (h : Lacks s t) (hlines : ∀ entry ∈ t.docKillRing, entry.document ≠ [])
    (hkill : ∀ lines before after more, Around t lines before after more → ∃ deleted prepend,
      Took (lines ++ [before]) (after :: more) t u deleted prepend) : Lacks s u := by
  obtain ⟨last, rest, lines, before, after, more, hring, haround, hdoc, hpastes⟩ := h.newest
  obtain ⟨deleted, prepend, htook⟩ := hkill lines before after more haround
  have hlast : last.document ≠ [] := hlines last (hring ▸ List.mem_cons_self)
  refine ⟨htook.pastes.trans h.pastes, htook.counter.trans h.counter, htook.action, ?_⟩
  rcases htook.entered with ⟨last', rest', entry, -, hring', hents, hmerged⟩ | ⟨hfresh, -⟩
  · rw [hring] at hring'
    obtain ⟨rfl, rfl⟩ := List.cons.inj hring'
    obtain ⟨lines', before', after', more', haround', hhead, htail⟩ := htook.cut
    refine ⟨entry, rest, lines', before', after', more', hents, haround', ?_, fun id => ?_⟩
    · rw [hdoc, hhead, htail, hmerged.document]
      cases prepend with
      | true =>
        simp only [if_true]
        rw [joinLines_assoc _ htook.nonempty]
      | false =>
        simp only [Bool.false_eq_true, if_false]
        rw [← joinLines_assoc _ htook.nonempty, joinLines_assoc _ hlast deleted]
    rcases hmerged.pastes id with hsame | hnone | hsame
    · rw [hsame]
      exact hpastes id
    · exact .inl hnone
    · exact .inr (hsame.trans (congrFun h.pastes id))
  · rcases hfresh with hfresh | hempty
    · exact absurd h.action hfresh
    · rw [hring] at hempty
      cases hempty

theorem Lacks.spared {op : BufferOp} (h : Lacks s t) (hspared : Spared lib op t u)
    (hhere : t.reach lib op ≠ .here) : Lacks s u := by
  have hact : u.lastAction = .kill := by
    rcases hspared.action with hsame | hother
    · exact hsame.trans h.action
    · exact absurd hother.1 hhere
  obtain ⟨entry, rest, lines, before, after, more, hring, haround, hdoc, hpastes⟩ := h.newest
  obtain ⟨cursor, index, action, error, rfl⟩ := hspared.motion
  exact ⟨h.pastes, h.counter, hact, entry, rest, lines, before, after, more, hring,
    haround.congr rfl hspared.cursor, hdoc, hpastes⟩

theorem Untouched.spared {op : BufferOp} (h : Untouched s t) (hspared : Spared lib op t u) : Untouched s u := by
  have hact : u.lastAction ≠ .kill := by
    rcases hspared.action with hsame | hother
    · rw [hsame]
      exact h.action
    · rw [hother.2]
      exact fun hkill => by cases hkill
  obtain ⟨cursor, index, action, error, rfl⟩ := hspared.motion
  exact ⟨h.document, h.pastes, h.counter, hact⟩

/-- A run of kills that merge, in which a kill that continues the run finds a word to take or none. -/
def KillRun (lib : Segmenter) : TextBuffer → List BufferOp → Prop
  | _, [] => True
  | s, op :: ops => op.isKill = true ∧ s.Merges lib op ∧ (s.lastAction = .kill → s.reach lib op ≠ .here) ∧
      ∀ t, op.apply lib s = some t → t.KillRun lib ops

def KillsSomething (lib : Segmenter) : TextBuffer → List BufferOp → Prop
  | _, [] => False
  | s, op :: ops => (s.reach lib op).takes = true ∨ ∃ t, op.apply lib s = some t ∧ t.KillsSomething lib ops

variable {ops : List BufferOp}

theorem KillRun.lacks (hlib : lib.Lawful) (hkills : t.KillRun lib ops) (hinv : t.Inv)
    (hstep : t.InStep) (h : Lacks s t) : ∃ u, t.run lib ops = some u ∧ u.Inv ∧ u.InStep ∧ Lacks s u := by
  induction ops generalizing t with
  | nil => exact ⟨t, rfl, hinv, hstep, h⟩
  | cons op ops ih =>
    obtain ⟨hkill, hmerges, hhere, hrest⟩ := hkills
    obtain ⟨lines, before, after, more, haround⟩ := exists_around hinv.sound.cursor
    obtain ⟨next, hnext, hinv', hout⟩ := exists_outcome hlib hinv hstep hkill hmerges haround
    have hlacks : Lacks s next := by
      rcases hout with ⟨-, hspared⟩ | ⟨htakes, -⟩
      · exact h.spared hspared (hhere h.action)
      refine h.next hstep.lines fun lines before after more haround => ?_
      obtain ⟨next', hnext', -, hout⟩ := exists_outcome hlib hinv hstep hkill hmerges haround
      obtain rfl := Option.some.inj (hnext.symm.trans hnext')
      exact hout.elim (fun hspared => by rw [htakes] at hspared; cases hspared.1) And.right
    obtain ⟨u, hu, hres⟩ := ih (hrest next hnext) hinv' (hout.inStep hstep) hlacks
    exact ⟨u, by rw [run, List.foldlM_cons, hnext]; exact hu, hres⟩

theorem KillRun.taken (hlib : lib.Lawful) (hkills : t.KillRun lib ops)
    (hsome : t.KillsSomething lib ops) (hinv : t.Inv) (hstep : t.InStep) (h : Untouched s t) :
    ∃ u, t.run lib ops = some u ∧ u.Inv ∧ u.InStep ∧ Lacks s u := by
  induction ops generalizing t with
  | nil => exact hsome.elim
  | cons op ops ih =>
    obtain ⟨hkill, hmerges, -, hrest⟩ := hkills
    obtain ⟨lines, before, after, more, haround⟩ := exists_around hinv.sound.cursor
    obtain ⟨next, hnext, hinv', hout⟩ := exists_outcome hlib hinv hstep hkill hmerges haround
    have hstep' := hout.inStep hstep
    have hrun : ∀ u, next.run lib ops = some u → t.run lib (op :: ops) = some u := by
      intro u hu
      rw [run, List.foldlM_cons, hnext]
      exact hu
    rcases hout with ⟨htakes, hspared⟩ | ⟨-, deleted, prepend, htook⟩
    · have hlater : next.KillsSomething lib ops := by
        rcases hsome with hsome | ⟨next', hnext', hlater⟩
        · rw [htakes] at hsome
          cases hsome
        · rwa [Option.some.inj (hnext.symm.trans hnext')]
      obtain ⟨u, hu, hres⟩ := ih (hrest next hnext) hlater hinv' hstep' (h.spared hspared)
      exact ⟨u, hrun u hu, hres⟩
    · obtain ⟨u, hu, hres⟩ := (hrest next hnext).lacks hlib hinv' hstep' (h.lacks haround htook)
      exact ⟨u, hrun u hu, hres⟩

theorem Lacks.yank (h : Lacks s t) (hinv : t.Inv) (hstep : t.InStep)
    (hold : ∀ id ∈ pasteIds s.document.flatten, id ≤ s.pasteCounter) :
    ∃ u, t.yank lib = some u ∧ u.expandedText = s.expandedText ∧ SameRings t u := by
  obtain ⟨entry, rest, lines, before, after, more, hring, haround, hdoc, hpastes⟩ := h.newest
  have hentry : entry ∈ t.docKillRing := hring ▸ List.mem_cons_self
  have hne := hstep.lines entry hentry
  have hready : TextBuffer.Inv { t with error := none }.pushUndo := (hinv.withFlags t.lastAction none).pushUndo
  obtain ⟨u, hu, -⟩ := exists_insertKill hready (hinv.stored.kills entry hentry)
  rw [yank_entry hring, hu, Option.bind_some]
  refine ⟨_, rfl, ?_, ?_⟩
  · -- Every number in the document before the run is an old one.
    have hnumbers : ∀ {part : BufferLine}, (∀ id ∈ pasteIds part, id ∈ pasteIds s.document.flatten) →
        OldIn s.pastes { t with error := none }.pushUndo part := fun hpart id hid =>
      ⟨(hold id (hpart id hid)).trans_eq h.counter.symm, congrFun h.pastes id⟩
    have hflat : s.document.flatten =
        ((lines ++ [before]).flatten ++ entry.document.flatten) ++ (after :: more).flatten := by
      rw [hdoc, flatten_joinLines (joinLines_ne_nil_right _ hne), flatten_joinLines (by simp)]
    have hhead : OldIn s.pastes { t with error := none }.pushUndo (lines ++ [before]).flatten :=
      hnumbers fun id hid => by
        rw [hflat, pasteIds_append, pasteIds_append]
        exact List.mem_append_left _ (List.mem_append_left _ hid)
    have hmid : OldIn s.pastes { t with error := none }.pushUndo entry.document.flatten := hnumbers fun id hid => by
        rw [hflat, pasteIds_append, pasteIds_append]
        exact List.mem_append_left _ (List.mem_append_right _ hid)
    have htail : OldIn s.pastes { t with error := none }.pushUndo (after :: more).flatten := hnumbers fun id hid => by
        rw [hflat, pasteIds_append]
        exact List.mem_append_right _ hid
    have hnone : Renumbers entry s.pastes [] { t with error := none }.pushUndo :=
      ⟨fun _ _ hgiven => (by cases hgiven), hpastes⟩
    obtain ⟨hshows, hgrown⟩ := materializeLines_shows hnone hmid
    change Grown _ (materializeKill _ entry).2 at hgrown
    have hplaced : Around ({ t with error := none }.pushUndo.materializeKill entry).2 lines before after
        more := by
      obtain ⟨pastes, counter, heq⟩ := hgrown.rest
      rw [heq]
      exact haround.congr rfl rfl
    have hres : ({ t with error := none }.pushUndo.materializeKill entry).1 ≠ [] := fun hempty =>
      hne (List.length_eq_zero_iff.1 (hshows.length_eq.trans (congrArg List.length hempty)))
    have hjoined := insertSegments_joined hplaced hres hu
    have hpastes' : u.pastes = ({ t with error := none }.pushUndo.materializeKill entry).2.pastes := by
      obtain ⟨document, cursor, rfl⟩ := (edit_insertSegments hu).rest
      rfl
    have hplain : plainDocument u.pastes u.document = plainDocument s.pastes s.document := by
      rw [hjoined, hdoc, hpastes', plainDocument_joinLines, plainDocument_joinLines,
        plainDocument_joinLines, plainDocument_joinLines, plainDocument_old (hhead.grown hgrown),
        plainDocument_old (htail.grown hgrown), ← plainDocument_shows hshows]
      rfl
    change expandDocument u.pastes u.document = expandDocument s.pastes s.document
    rw [expandDocument_eq, expandDocument_eq, hplain]
  · have hsame := sameRings_insertKill hu
    exact ⟨hsame.ring, hsame.entries⟩

end TextBuffer

/-- In a buffer with a ring of its own, after a run in which pastes are kept and kills merge, a run of
kills that merge and take something is undone by a yank, and the rings hold the same texts. -/
theorem kills_yanked {lib : Segmenter} (hlib : lib.Lawful) (options : TextBufferOptions)
    (before kills : List BufferOp) (s : TextBuffer) (hwithin : TextBuffer.WithinRun lib { options := options } before)
    (hkept : TextBuffer.KeptRun lib { options := options } before)
    (hmerges : TextBuffer.MergesRun lib { options := options } before)
    (hrun : TextBuffer.run lib { options := options } before = some s) (hfirst : s.lastAction ≠ .kill)
    (hkills : s.KillRun lib kills) (hsome : s.KillsSomething lib kills) :
    ∃ t u, s.run lib kills = some t ∧ t.yank lib = some u ∧ u.expandedText = s.expandedText ∧
      (t.killRing.reverse = t.docKillRing.map KillEntry.plainText ∧
        u.killRing.reverse = u.docKillRing.map KillEntry.plainText) := by
  have hempty : TextBuffer.InStep { options := options } := ⟨rfl, fun _ hmem => (List.not_mem_nil hmem).elim⟩
  obtain ⟨hinv, hstep⟩ := hmerges.inStep hlib hwithin (TextBuffer.inv_empty options []) hempty hrun
  obtain ⟨r, -, hmirrors⟩ := hkept.mirrors (TextBuffer.mirrors_empty options [])
    (.of_action fun hkill => by cases hkill) hrun
  obtain ⟨t, ht, hinv', hstep', hlacks⟩ := hkills.taken hlib hsome hinv hstep
    (⟨rfl, rfl, rfl, hfirst⟩ : TextBuffer.Untouched s s)
  obtain ⟨u, hu, htext, hsame⟩ := hlacks.yank hinv' hstep' fun id hid =>
    hmirrors.counted id (hmirrors.numbered.content hid)
  exact ⟨t, u, ht, hu, htext, hstep'.texts, (hstep'.same hsame).texts⟩

/-- The end of a line and then the word before it are killed, and one yank brings both back. -/
theorem kills_yanked_two_words :
    ∃ s t u, TextBuffer.run asciiSegmenter {} [.insertText "a b c" true, .moveWordBackward] = some s ∧
      s.run asciiSegmenter [.killToLineEnd, .deleteWordBackward] = some t ∧
      t.yank asciiSegmenter = some u ∧ u.expandedText = s.expandedText ∧
      (t.killRing.reverse = t.docKillRing.map KillEntry.plainText ∧
        u.killRing.reverse = u.docKillRing.map KillEntry.plainText) := by
  have hstart : (TextBuffer.run asciiSegmenter {} [.insertText "a b c" true,
      .moveWordBackward]).map (fun s => (s.lastAction, s.reach asciiSegmenter .killToLineEnd)) =
      some (.none, .sameLine) := by
    decide +kernel
  have hnext : (TextBuffer.run asciiSegmenter {} [.insertText "a b c" true, .moveWordBackward,
      .killToLineEnd]).map (fun s => s.reach asciiSegmenter .deleteWordBackward) = some .sameLine := by
    decide +kernel
  obtain ⟨s, hs, hfacts⟩ := Option.map_eq_some_iff.1 hstart
  obtain ⟨haction, hreach⟩ := Prod.mk.inj hfacts
  have hfirst : s.lastAction ≠ .kill := by
    rw [haction]
    exact fun hkill => by cases hkill
  have hkills : s.KillRun asciiSegmenter [.killToLineEnd, .deleteWordBackward] := by
    refine ⟨rfl, fun hkilled => absurd hkilled hfirst, fun hkilled => absurd hkilled hfirst, fun next happly => ?_⟩
    have hrun : TextBuffer.run asciiSegmenter {} [.insertText "a b c" true, .moveWordBackward,
        .killToLineEnd] = some next := by
      have happend : TextBuffer.run asciiSegmenter {} ([.insertText "a b c" true,
          .moveWordBackward] ++ [.killToLineEnd]) = some next := by
        rw [TextBuffer.run, List.foldlM_append]
        exact Option.bind_eq_some_iff.2 ⟨s, hs, Option.bind_eq_some_iff.2 ⟨next, happly, rfl⟩⟩
      exact happend
    rw [hrun] at hnext
    have hsame : next.reach asciiSegmenter .deleteWordBackward = .sameLine := Option.some.inj hnext
    refine ⟨rfl, ?_, fun _ => ?_, fun _ _ => trivial⟩
    · rw [TextBuffer.Merges, hsame]
      exact fun hother => by cases hother
    · rw [hsame]
      exact fun hhere => by cases hhere
  refine ⟨s, ?_⟩
  obtain ⟨t, u, hresult⟩ := kills_yanked asciiSegmenter_lawful {} [.insertText "a b c" true, .moveWordBackward] _ s
    ⟨trivial, fun _ _ => ⟨trivial, fun _ _ => trivial⟩⟩ ⟨trivial, fun _ _ => ⟨trivial, fun _ _ => trivial⟩⟩
    ⟨trivial, fun _ _ => ⟨trivial, fun _ _ => trivial⟩⟩ hs hfirst hkills
    (.inl (by rw [hreach]; rfl))
  exact ⟨t, u, hs, hresult⟩

/-- The rest of a line and then its break are killed. The ring of documents has two entries for them, so
the yank brings the break back without the text before it. -/
theorem line_kills_half_yanked :
    ∃ s t u, TextBuffer.run asciiSegmenter {} [.insertText "a\nb" true, .moveToStart] = some s ∧
      s.run asciiSegmenter [.killToLineEnd, .killToLineEnd] = some t ∧ t.yank asciiSegmenter = some u ∧
      u.expandedText ≠ s.expandedText ∧ t.killRing.length ≠ t.docKillRing.length := by
  have hrun : (TextBuffer.run asciiSegmenter {} [.insertText "a\nb" true, .moveToStart]).any
      (fun s => (s.run asciiSegmenter [.killToLineEnd, .killToLineEnd]).any fun t =>
        (t.yank asciiSegmenter).any fun u =>
          u.expandedText ≠ s.expandedText ∧ t.killRing.length ≠ t.docKillRing.length) = true := by
    decide +kernel
  obtain ⟨s, hs, hrest⟩ := (Option.any_eq_true _ _).1 hrun
  obtain ⟨t, ht, hrest⟩ := (Option.any_eq_true _ _).1 hrest
  obtain ⟨u, hu, hdiffers⟩ := (Option.any_eq_true _ _).1 hrest
  exact ⟨s, t, u, hs, ht, hu, of_decide_eq_true hdiffers⟩

end CodingHarness.Tui
