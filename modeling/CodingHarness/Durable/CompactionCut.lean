import CodingHarness.Durable.EntryCodec
import CodingHarness.Durable.ToolResultOrder

/-!
# The cut of a compaction

`select_cut` walks the contributions of a view from their end until enough tokens are kept, and cuts in front of a
candidate. No call before such a cut has a result behind it: a candidate starts with an assistant message, which ends
the reach of the calls before it, or with a user message that no result of the last calls follows. So the two sides of
the cut are ordered on their own (`selectCut_separates`). An attempt finds the cut again by the entries it pinned,
and sees the messages that were chosen (`replayedMessages_selected`).
-/

namespace CodingHarness.Durable.Context

open Library Support Chord

/-! ## Estimates -/

/-- `estimate_chars`: the number of characters by 3.5, rounded up. -/
def estimateChars (chars : Nat) : Nat := (2 * chars + 6) / 7

def estimateJsonChars (value : Json) : Nat := estimateChars (asText value).length

/-- The member of a block that is a string. -/
def blockText (block : Json) (name : String) : Option Bytes :=
  (block.asObject.bind fun object => jsonMember object name).bind Json.asString

def estimateText (block : Json) (name : String) : Nat :=
  (blockText block name).elim 0 fun text => estimateChars text.length

/-- One block of `estimate_blocks_tokens`. -/
def estimateBlock (block : Json) : Nat := match blockText block "type" with
  | none => 0
  | some kind =>
    if kind = "text" ∨ kind = "thinking" then estimateText block "text"
    else if kind = "image" then 4800
    else if kind = "toolCall" then
      estimateText block "name" +
        ((block.asObject.bind fun object => jsonMember object "arguments").elim 0 estimateJsonChars)
    else 0

/-- `estimate_blocks_tokens`; content that is no array counts as its string. -/
def estimateBlocksTokens (content : Json) : Nat := match content.asArray with
  | none => estimateChars (content.asString.getD []).length
  | some blocks => (blocks.map estimateBlock).sum

def estimateMessageTokens (message : Json) : Nat := match message.asObject with
  | none => 0
  | some object =>
    if contextRole message = "system" then
      estimateText message "content" + estimateJsonChars ((jsonMember object "toolsAdded").getD (.array []))
    else
      estimateBlocksTokens ((jsonMember object "content").getD .null) +
        if contextRole message = "toolResult" then estimateText message "toolCallId" else 0

/-! ## Candidates -/

def callId (block : Json) : Option Bytes :=
  if blockText block "type" = some (ofString "toolCall") then blockText block "id" else none

/-- The identities of the calls of a message. -/
def callIds (message : Json) : List Bytes :=
  (((message.asObject.bind fun object => jsonMember object "content").bind Json.asArray).getD []).filterMap callId

/-- `assistant_call_ids`: those of the last assistant message. -/
def assistantCallIds (contribution : List Json) : List Bytes :=
  (contribution.reverse.find? isAssistant).elim [] callIds

/-- The calls of the nearest contribution with an assistant message. -/
def callsBefore (contributions : List (List Json)) : List Bytes :=
  (contributions.reverse.find? fun contribution => contribution.any isAssistant).elim [] assistantCallIds

/-- `is_candidate`. The scan for results ends at the next assistant message; the first message is a user there. -/
def isCandidate (contributions : List (List Json)) (index : Nat) : Bool :=
  match contributions[index]?.bind List.head? with
  | none => false
  | some first =>
    if isAssistant first then true
    else if contextRole first != "user" then false
    else
      let calls := callsBefore (contributions.take index)
      (reach (contributions.drop index).flatten).all fun message => !calls.any fun id => isResultOf id message

/-! ## The cut -/

/-- The contribution at which enough is kept, looking from the end down to `start`. -/
def keptFrom (contributions : List (List Json)) (start : Nat) (keepRecent : Int) (kept : Nat) : Nat → Option Nat
  | 0 => none
  | index + 1 =>
    if index + 1 ≤ start then none
    else
      let kept := kept + ((contributions[index]?.getD []).map estimateMessageTokens).sum
      if kept < keepRecent then keptFrom contributions start keepRecent kept index else some index

/-- The first contribution behind the marker of a head. -/
def View.start (view : View) : Nat := if view.head.isSome then 1 else 0

/-- The contributions that may start the kept range. -/
def View.candidates (view : View) : List Nat :=
  (List.range' view.start (view.contributions.length - view.start)).filter (isCandidate view.contributions)

/-- `select_cut`: the first candidate inside the kept tail, unless nothing stands before it. -/
def selectCut (view : View) (keepRecent : Int) : Option Nat := do
  let last ← view.candidates.getLast?
  let index ← keptFrom view.contributions view.start keepRecent 0 view.contributions.length
  let cut := (view.candidates.find? fun candidate => index ≤ candidate).getD last
  if ((view.contributions.take cut).drop view.start).any fun contribution => !contribution.isEmpty then
    return cut
  else none

def summarizedMessages (view : View) (cut : Nat) : List Json :=
  orderToolResults (view.contributions.take cut).flatten

/-! ## Ordering on both sides -/

variable {before later : List Json} {call : Json × Json}

/-- Calls whose results all stand before the next message are ordered without it. -/
theorem resultFor_append_of_answer {message : Json} (hprev : before.find? isAssistant = none)
    (hnone : ∀ id, call.1.asString = some id → answer later id = none) :
    resultFor message (before ++ later) call = resultFor message before call := by
  have hreach : ∀ m ∈ before, (!isAssistant m) = true := by
    simpa [List.find?_eq_none] using hprev
  rw [resultFor_eq, resultFor_eq]
  cases hid : call.1.asString with
  | none => rfl
  | some id =>
    have hlater := hnone id hid
    rw [answer] at hlater
    rw [Option.bind_some, Option.bind_some, answer, answer, reach, List.takeWhile_append_of_pos hreach,
      List.find?_append, reach, List.takeWhile_eq_self_iff.2 hreach, ← reach, hlater, Option.or_none]

/-- When nothing behind answers a call of the last assistant message before, both sides are ordered on their own. -/
theorem orderToolResults_split
    (h : ∀ last, before.reverse.find? isAssistant = some last → ∀ call ∈ toolCalls last, ∀ id,
      call.1.asString = some id → answer later id = none) :
    orderToolResults (before ++ later) = orderToolResults before ++ orderToolResults later := by
  induction before with
  | nil => rfl
  | cons message before ih =>
    rw [List.reverse_cons, List.find?_append] at h
    have hrest := ih fun last hlast => h last (by rw [hlast, Option.some_or])
    rw [List.cons_append]
    rcases message_cases message with hres | hasst | ⟨hres, hasst⟩
    · rw [orderToolResults_result hres, orderToolResults_result hres, hrest]
    · rw [orderToolResults_assistant hasst, orderToolResults_assistant hasst, hrest, List.append_assoc]
      refine congrArg (fun results => (message :: results) ++ _) (List.map_congr_left fun call hcall => ?_)
      cases hlast : before.find? isAssistant with
      | none =>
        refine resultFor_append_of_answer hlast (h message ?_ call hcall)
        have hnone : before.reverse.find? isAssistant = none := by simpa [List.find?_eq_none] using hlast
        simp [hnone, hasst]
      | some other =>
        obtain ⟨first, second, rfl, -⟩ := List.find?_eq_some_iff_append.1 hlast |>.2
        have hother := List.find?_some hlast
        rw [List.append_assoc, List.cons_append, resultFor_append message first hother,
          resultFor_append message first hother]
    · rw [orderToolResults_other hres hasst, orderToolResults_other hres hasst, hrest, List.cons_append]

theorem find_flatten (contributions : List (List Json)) : contributions.flatten.reverse.find? isAssistant =
      (contributions.reverse.find? fun contribution => contribution.any isAssistant).bind fun contribution =>
        contribution.reverse.find? isAssistant := by
  induction contributions using List.reverseRecOn with
  | nil => rfl
  | append_singleton contributions last ih =>
    rw [List.flatten_append, List.reverse_append, List.reverse_append, List.flatten_singleton,
      List.reverse_singleton, List.singleton_append, List.find?_append, List.find?_cons, ih]
    cases hany : last.any isAssistant with
    | false =>
      have hnone : last.reverse.find? isAssistant = none := by
        simpa [List.find?_eq_none, List.any_eq_false] using hany
      rw [hnone, Option.none_or]
    | true =>
      obtain ⟨message, hmem, hasst⟩ := List.any_eq_true.1 hany
      have hsome : (last.reverse.find? isAssistant).isSome := by
        rw [List.find?_isSome]
        exact ⟨message, List.mem_reverse.2 hmem, hasst⟩
      obtain ⟨found, hfound⟩ := Option.isSome_iff_exists.1 hsome
      rw [hfound, Option.some_or, Option.bind_some, hfound]

theorem mem_callIds {message : Json} {id : Bytes} (hcall : call ∈ toolCalls message)
    (hid : call.1.asString = some id) : id ∈ callIds message := by
  obtain ⟨block, hblock, hmade⟩ := List.mem_filterMap.1 hcall
  refine List.mem_filterMap.2 ⟨block, hblock, ?_⟩
  simp only [toolCall, Option.bind_eq_bind, Option.bind_eq_some_iff, Option.ite_none_right_eq_some] at hmade
  obtain ⟨object, hobj, type, ⟨value, hvalue, htype⟩, hkind, found, hfound, name, -, hmade⟩ := hmade
  cases hmade
  simp [callId, blockText, hobj, hvalue, htype, hkind, hfound, hid]

theorem orderToolResults_candidate {contributions : List (List Json)} {index : Nat}
    (h : isCandidate contributions index = true) :
    orderToolResults contributions.flatten = orderToolResults (contributions.take index).flatten ++
        orderToolResults (contributions.drop index).flatten := by
  have hsplit : contributions.flatten = (contributions.take index).flatten ++ (contributions.drop index).flatten := by
    rw [← List.flatten_append, List.take_append_drop]
  rw [hsplit]
  unfold isCandidate at h
  cases hfirst : contributions[index]?.bind List.head? with
  | none => rw [hfirst] at h; cases h
  | some first =>
    simp only [hfirst] at h
    split at h
    · next hasst =>
      obtain ⟨contribution, hat, hhead⟩ := Option.bind_eq_some_iff.1 hfirst
      obtain ⟨hlt, rfl⟩ := List.getElem?_eq_some_iff.1 hat
      obtain ⟨rest, hrest⟩ := List.head?_eq_some_iff.1 hhead
      rw [List.drop_eq_getElem_cons hlt, hrest, List.flatten_cons, List.cons_append]
      exact orderToolResults_append _ hasst _
    split at h
    · cases h
    refine orderToolResults_split fun last hlast call hcall id hid => ?_
    rw [find_flatten, Option.bind_eq_some_iff] at hlast
    obtain ⟨contribution, hnearest, hlast⟩ := hlast
    have hmem : id ∈ callsBefore (contributions.take index) := by
      rw [callsBefore, hnearest, Option.elim_some, assistantCallIds, hlast]
      exact mem_callIds hcall hid
    rw [answer, List.find?_eq_none]
    intro message hmsg hres
    have hfree := List.all_eq_true.1 h message hmsg
    simp only [Bool.not_eq_true', List.any_eq_false] at hfree
    exact hfree id hmem hres

variable {view : View}

/-- A cut is a candidate with something before it. -/
theorem selectCut_candidate {keepRecent : Int} {cut : Nat} (h : selectCut view keepRecent = some cut) :
    cut ∈ view.candidates ∧
      (((view.contributions.take cut).drop view.start).any fun contribution => !contribution.isEmpty) = true := by
  simp only [selectCut, Option.bind_eq_bind, Option.bind_eq_some_iff, Option.ite_none_right_eq_some] at h
  obtain ⟨last, hlast, index, -, hany, hcut⟩ := h
  have hcandidate : (view.candidates.find? fun candidate => index ≤ candidate).getD last ∈ view.candidates := by
    cases hfind : view.candidates.find? fun candidate => index ≤ candidate with
    | none => exact List.mem_of_getLast? hlast
    | some found => exact List.mem_of_find?_eq_some hfind
  rw [Option.some.inj hcut] at hany hcandidate
  exact ⟨hcandidate, hany⟩

/-- **A cut never separates a call from its result**, and something is summarised. -/
theorem selectCut_separates {keepRecent : Int} {cut : Nat} (h : selectCut view keepRecent = some cut) :
    orderToolResults view.contributions.flatten =
        summarizedMessages view cut ++ orderToolResults (view.contributions.drop cut).flatten ∧
      ∃ index contribution, view.start ≤ index ∧ index < cut ∧ view.contributions[index]? = some contribution ∧
        contribution ≠ [] := by
  obtain ⟨hcandidate, hany⟩ := selectCut_candidate h
  refine ⟨orderToolResults_candidate (List.mem_filter.1 hcandidate).2, ?_⟩
  obtain ⟨contribution, hmem, hfull⟩ := List.any_eq_true.1 hany
  obtain ⟨offset, hat⟩ := List.mem_iff_getElem?.1 hmem
  rw [List.getElem?_drop, List.getElem?_take] at hat
  split at hat
  · next hlt => exact ⟨_, contribution, Nat.le_add_right _ _, hlt, hat, by simpa using hfull⟩
  · cases hat

def sampleMessage (role : String) : Json :=
  .object (field "role" (.string (ofString role)) ++ field "content" (.string "several characters") ++
    field "toolCallId" (.string "a"))

/-- A user entry between a call and its late result is no candidate; the next user entry is. -/
def sampleView : View where
  contributions := [[sampleMessage "user"], [sampleAssistant], [sampleMessage "user"],
    [sampleMessage "toolResult"], [sampleMessage "user"]]

theorem selectCut_separates_late : orderToolResults sampleView.contributions.flatten =
        summarizedMessages sampleView 4 ++ orderToolResults (sampleView.contributions.drop 4).flatten ∧
      ∃ index contribution, sampleView.start ≤ index ∧ index < 4 ∧
        sampleView.contributions[index]? = some contribution ∧ contribution ≠ [] :=
  selectCut_separates (show selectCut sampleView 15 = some 4 by decide +kernel)

/-! ## The range of a summary -/

/-- The range in a `SummaryRequest`. -/
structure SummaryRange where
  tail : EntryId
  firstKept : EntryId

/-- What `select` pins for every attempt: the newest entry of its view and the first kept one. -/
def pinRange (view : View) (cut : Nat) : Option SummaryRange := do
  let first ← view.entries[cut]?
  return ⟨(view.entries.map EntryRecord.id).foldl max (view.tail.getD first.id), first.id⟩

/-- What `summarize` reads again for a range. -/
def replayedMessages (storage : StorageState) (conversation : ConversationId) (range : SummaryRange) :
    Expected (List Json) := do
  let view ← contextView storage conversation (some range.tail)
  return summarizedMessages view (view.entries.findIdx fun entry => entry.id == range.firstKept)

/-- The entries of a view are selected ones, each of them once. -/
theorem viewOf_entries {selected : List EntryRecord} (h : viewOf selected = .ok view)
    (hsorted : selected.Pairwise fun older newer => older.id < newer.id) :
    view.tail = selected.getLast?.map EntryRecord.id ∧ view.contributions.length = view.entries.length ∧
      (∀ entry ∈ view.entries, entry ∈ selected) ∧ (view.entries.map EntryRecord.id).Nodup := by
  unfold viewOf at h
  cases hlast : selected.getLast? with
  | none =>
    rw [hlast] at h
    cases h
    simp
  | some last =>
    simp only [hlast, bind_eq_ok] at h
    obtain ⟨kept, hkept, h⟩ := h
    cases h
    have hsub : kept.Sublist selected := by
      cases hhead : newestHead selected with
      | none =>
        rw [hhead] at hkept
        cases hkept
        exact .refl _
      | some head =>
        cases hdrop : selected.dropWhile fun entry => some entry.id != head.head with
        | nil => simp [hhead, fromHead, hdrop] at hkept
        | cons first rest =>
          simp only [hhead, fromHead, hdrop, Except.ok.injEq] at hkept
          rw [← hkept, ← hdrop]
          exact List.dropWhile_sublist _
    have hids : (selected.map EntryRecord.id).Nodup := (List.pairwise_map.2 hsorted).imp fun hlt => hlt.ne
    refine ⟨rfl, List.length_map _, ?_, ?_⟩
    · intro entry hentry
      cases hhead : newestHead selected with
      | none =>
        rw [hhead] at hentry
        exact hsub.subset hentry
      | some head =>
        rw [hhead] at hentry
        rcases List.mem_cons.1 hentry with rfl | hentry
        · exact List.mem_reverse.1 (List.mem_of_find?_eq_some hhead)
        · exact hsub.subset (List.mem_filter.1 hentry).1
    cases hhead : newestHead selected with
    | none => exact hids.sublist (hsub.map _)
    | some head =>
      refine List.nodup_cons.2 ⟨fun hmem => ?_, hids.sublist ((List.filter_sublist.trans hsub).map _)⟩
      -- The head carries a head itself, so it is not among the others.
      obtain ⟨other, hother, hid⟩ := List.mem_map.1 hmem
      obtain ⟨hother, hplain⟩ := List.mem_filter.1 hother
      have heq := List.inj_on_of_nodup_map hids (hsub.subset hother)
        (List.mem_reverse.1 (List.mem_of_find?_eq_some hhead)) hid
      have hsome := List.find?_some hhead
      rw [← heq] at hsome
      simp_all

theorem selectCut_lt {keepRecent : Int} {cut : Nat} (h : selectCut view keepRecent = some cut) :
    cut < view.contributions.length := by
  have hrange := (List.mem_filter.1 (selectCut_candidate h).1).1
  rw [List.mem_range'_1] at hrange
  omega

theorem foldl_max_eq_self {ids : List EntryId} {top : EntryId} (h : ∀ id ∈ ids, id ≤ top) : ids.foldl max top = top := by
  induction ids with
  | nil => rfl
  | cons id ids ih =>
    rw [List.foldl_cons, max_eq_left (h id List.mem_cons_self)]
    exact ih fun other hother => h other (List.mem_cons_of_mem _ hother)

/-- **Every attempt reads the messages that `select` chose**, whatever was committed in between. -/
theorem replayedMessages_selected (closedMessage : Bytes) (before after : List Session.Step) (c : ConversationId)
    (keepRecent : Int) {cut : Nat} :
    let now := ({ storage := { closedMessage := closedMessage } } : Session).run before
    contextView now.storage c none = .ok view → selectCut view keepRecent = some cut →
      ∃ range, pinRange view cut = some range ∧
        replayedMessages (now.run after).storage c range = .ok (summarizedMessages view cut) := by
  intro now hview hcut
  have hnow : InOrder now.storage := (follows_run (inOrder_initial closedMessage) before).inOrder
  obtain ⟨visible, hvisible, hselected⟩ := bind_eq_ok.1 hview
  obtain ⟨record, hstored⟩ := stored_of_visibleEntries hvisible
  obtain ⟨list, hlist, -, hsorted⟩ := visibleEntries_spec hnow.transcript hstored
  cases hlist.symm.trans hvisible
  obtain ⟨htail, hlength, hmem, hids⟩ := viewOf_entries hselected hsorted
  have hlt : cut < view.entries.length := hlength ▸ selectCut_lt hcut
  have hin := hmem _ (List.getElem_mem hlt)
  cases hlast : visible.getLast? with
  | none =>
    rw [List.getLast?_eq_none_iff.1 hlast] at hin
    cases hin
  | some last =>
    obtain ⟨same, -, hlater, hnewest⟩ := (follows_run hnow after).contextView hnow hvisible
      ⟨last, List.mem_of_getLast? hlast, rfl⟩
    cases hview.symm.trans (hnewest (by rw [hlast]; rfl))
    have hfirst : view.entries.findIdx (fun entry => entry.id == view.entries[cut].id) = cut := by
      refine (List.findIdx_eq hlt).2 ⟨beq_self_eq_true _, fun index hindex => ?_⟩
      rw [beq_eq_false_iff_ne]
      intro heq
      have hsame := List.inj_on_of_nodup_map hids (List.getElem_mem _) (List.getElem_mem _) heq
      exact hindex.ne ((hids.of_map _).getElem_inj_iff.1 hsame)
    refine ⟨⟨last.id, view.entries[cut].id⟩, ?_, ?_⟩
    · have hmax : (view.entries.map EntryRecord.id).foldl max last.id = last.id := foldl_max_eq_self fun id hid => by
        obtain ⟨entry, hentry, rfl⟩ := List.mem_map.1 hid
        exact le_last hsorted hlast entry (hmem entry hentry)
      rw [pinRange, List.getElem?_eq_getElem hlt, htail, hlast]
      exact congrArg (fun tail => some (SummaryRange.mk tail _)) hmax
    · rw [replayedMessages, hlater]
      exact congrArg (fun index => Except.ok (summarizedMessages view index)) hfirst

end CodingHarness.Durable.Context
