import CodingHarness.Ai.MessageNormalization
import Mathlib.Data.List.Count

/-!
# Paired tool calls

A provider wants every tool call answered by one result, before the next message, and no other results.
`normalize_history` makes up the results that are missing, and passes on those that come too late, twice or
for a message that it dropped. So its output is `Paired` exactly when the history `Answers` its calls in
place (`history_paired_iff`). The proof reads the output from the left with the calls of the last
assistant message and the ids of the results since (`Reads`).
-/

namespace CodingHarness.Ai

open Library Support Agent
open List (any_append append_assoc flatMap_cons nil_append not_mem_nil)

/-! ## The property -/

/-- The ids of the tool calls of an assistant message. -/
def callIds (message : AssistantMessage) : List Bytes := (toolCalls message).map ToolCallContent.id

/-- The ids of the tool calls of a message. -/
def messageCallIds : Message → List Bytes
  | .assistant message => callIds message
  | _ => []

def answersCall (id : Bytes) : Message → Bool
  | .toolResult result => result.toolCallId = id
  | _ => false

/-- The message is an assistant or a user message. -/
def isTurn : Message → Bool
  | .assistant _ => true
  | .user _ => true
  | _ => false

def isResult : Message → Bool
  | .toolResult _ => true
  | _ => false

/-- The last assistant message of a history. -/
def lastAssistant (messages : List Message) : Option AssistantMessage := messages.reverse.findSome? fun
    | .assistant message => some message
    | _ => none

/-- Every call has one result, which comes after it and before the next assistant or user message, and
every result answers a call of the assistant message before it. -/
structure Paired (messages : List Message) : Prop where
  calls : ∀ before assistant after, messages = before ++ .assistant assistant :: after →
    ∀ id ∈ callIds assistant, messages.countP (answersCall id) = 1 ∧
      (after.takeWhile fun message => !isTurn message).any (answersCall id)
  results : ∀ before result after, messages = before ++ .toolResult result :: after →
    ∃ assistant, lastAssistant before = some assistant ∧ result.toolCallId ∈ callIds assistant

/-- What becomes of a message that is not a tool result. -/
def carriedOver (model : Model) : Message → Option Message
  | .assistant message => if failed message then none else some (.assistant (normalizeAssistant model message))
  | .toolResult _ => none
  | .user message => some (.user (normalizeUser model message))
  | message => (extendedMessageToUserMessage message).map .user

/-- The history answers its calls in place: a result follows the assistant message that made the call, with
only results and excluded messages between them, and is the first one for it. -/
def Answers : List Bytes → List Bytes → List Message → Prop
  | _, _, [] => True
  | calls, answered, message :: rest =>
    match message with
    | .assistant assistant => Answers (if failed assistant then [] else callIds assistant) [] rest
    | .toolResult result =>
      (result.toolCallId ∈ calls ∧ result.toolCallId ∉ answered) ∧
        Answers calls (result.toolCallId :: answered) rest
    | message =>
      if excludedFromProviderContext message then Answers calls answered rest
      else Answers [] [] rest

/-! ## Reading the output -/

/-- Messages are read after an assistant message with some calls, of which some are answered: a result is
the first one for one of the calls, and a turn comes when all calls are answered. -/
def Reads : List Bytes → List Bytes → List Message → Prop
  | calls, answered, [] => ∀ id ∈ calls, id ∈ answered
  | calls, answered, message :: rest =>
    match message with
    | .assistant assistant => (∀ id ∈ calls, id ∈ answered) ∧ Reads (callIds assistant) [] rest
    | .toolResult result =>
      (result.toolCallId ∈ calls ∧ result.toolCallId ∉ answered) ∧
        Reads calls (result.toolCallId :: answered) rest
    | _ => (∀ id ∈ calls, id ∈ answered) ∧ Reads [] [] rest

variable {messages : List Message}

theorem Reads.answered {calls answered : List Bytes}
    (h : Reads calls answered messages) {id : Bytes} (hcall : id ∈ calls) (hopen : id ∉ answered) :
    (messages.takeWhile fun message => !isTurn message).any (answersCall id) = true := by
  induction messages generalizing answered with
  | nil => exact absurd (h id hcall) hopen
  | cons message rest ih =>
    cases message with
    | toolResult result =>
      obtain ⟨-, hrest⟩ := h
      by_cases heq : result.toolCallId = id
      · simp [isTurn, answersCall, heq]
      have hlater := ih hrest fun hmem => (List.mem_cons.1 hmem).elim (fun h => heq h.symm) hopen
      simp [isTurn] at hlater ⊢
      exact Or.inr hlater
    | _ => exact absurd (h.1 id hcall) hopen

/-- An id is answered once if it is waited for, and once for every later call with it. -/
theorem Reads.count {calls answered : List Bytes}
    (h : Reads calls answered messages) (hnodup : (messages.flatMap messageCallIds).Nodup) (id : Bytes) :
    messages.countP (answersCall id) =
      (if id ∈ calls ∧ id ∉ answered then 1 else 0) + (messages.flatMap messageCallIds).count id := by
  induction messages generalizing calls answered with
  | nil =>
    have hclosed : ¬ (id ∈ calls ∧ id ∉ answered) := fun hopen => hopen.2 (h id hopen.1)
    rw [if_neg hclosed]
    rfl
  | cons message rest ih =>
    rw [flatMap_cons] at hnodup ⊢
    have hrest := (List.nodup_append.1 hnodup).2.1
    cases message with
    | assistant assistant =>
      have hclosed : ¬ (id ∈ calls ∧ id ∉ answered) := fun hopen => hopen.2 (h.1 id hopen.1)
      have hcalls : (callIds assistant).Nodup := (List.nodup_append.1 hnodup).1
      rw [List.countP_cons_of_neg (by simp [answersCall]), ih h.2 hrest, if_neg hclosed, List.count_append,
        messageCallIds, hcalls.count]
      simp
    | toolResult result =>
      obtain ⟨⟨hcall, hopen⟩, hreads⟩ := h
      simp only [messageCallIds, nil_append]
      rw [List.countP_cons, ih hreads hrest]
      by_cases heq : result.toolCallId = id
      · subst heq
        simp [answersCall, hcall, hopen]
        omega
      · have hother : id ≠ result.toolCallId := fun h => heq h.symm
        simp [answersCall, heq, hother]
    | _ =>
      have hclosed : ¬ (id ∈ calls ∧ id ∉ answered) := fun hopen => hopen.2 (h.1 id hopen.1)
      rw [List.countP_cons_of_neg (by simp [answersCall]), ih h.2 hrest, if_neg hclosed]
      simp [messageCallIds]

variable {assistant : AssistantMessage}

theorem Reads.after {calls answered : List Bytes} {before after : List Message}
    (h : Reads calls answered (before ++ .assistant assistant :: after)) : Reads (callIds assistant) [] after := by
  induction before generalizing calls answered with
  | nil => exact h.2
  | cons message rest ih => cases message <;> exact ih h.2

theorem lastAssistant_append (before after : List Message) :
    lastAssistant (before ++ after) = (lastAssistant after).or (lastAssistant before) := by
  rw [lastAssistant, List.reverse_append, List.findSome?_append]
  rfl

theorem lastAssistant_mem (h : lastAssistant messages = some assistant) : Message.assistant assistant ∈ messages := by
  obtain ⟨message, hmem, hfound⟩ := List.exists_of_findSome?_eq_some h
  cases message with
  | assistant found => exact Option.some.inj hfound ▸ List.mem_reverse.1 hmem
  | _ => exact nomatch hfound

/-- A result that is read answers one of the calls at the start or a call of the last assistant message. -/
theorem Reads.answering {calls answered : List Bytes} {before after : List Message}
    {result : ToolResultMessage} (h : Reads calls answered (before ++ .toolResult result :: after)) :
    (∃ assistant, lastAssistant before = some assistant ∧ result.toolCallId ∈ callIds assistant) ∨
      (lastAssistant before = none ∧ result.toolCallId ∈ calls) := by
  induction before generalizing calls answered with
  | nil => exact Or.inr ⟨rfl, h.1.1⟩
  | cons message rest ih =>
    rw [← List.singleton_append, lastAssistant_append]
    cases message with
    | assistant assistant =>
      rcases ih h.2 with ⟨later, hlast, hmem⟩ | ⟨hnone, hmem⟩
      · exact Or.inl ⟨later, by rw [hlast]; rfl, hmem⟩
      · exact Or.inl ⟨assistant, by rw [hnone]; rfl, hmem⟩
    | toolResult result =>
      rcases ih h.2 with ⟨later, hlast, hmem⟩ | ⟨hnone, hmem⟩
      · exact Or.inl ⟨later, by rw [hlast]; rfl, hmem⟩
      · exact Or.inr ⟨by rw [hnone]; rfl, hmem⟩
    | _ =>
      rcases ih h.2 with ⟨later, hlast, hmem⟩ | ⟨hnone, hmem⟩
      · exact Or.inl ⟨later, by rw [hlast]; rfl, hmem⟩
      · exact nomatch hmem

theorem Reads.paired (h : Reads [] [] messages) (hnodup : (messages.flatMap messageCallIds).Nodup) :
    Paired messages where
  calls := by
    rintro before assistant after rfl id hid
    have hmem : id ∈ (before ++ .assistant assistant :: after).flatMap messageCallIds :=
      List.mem_flatMap.2 ⟨_, List.mem_append_right _ List.mem_cons_self, hid⟩
    refine ⟨?_, h.after.answered hid (not_mem_nil)⟩
    rw [h.count hnodup id, if_neg fun hcall => (not_mem_nil hcall.1), List.count_eq_one_of_mem hnodup hmem]
  results := by
    rintro before result after rfl
    exact h.answering.resolve_right fun hcall => nomatch hcall.2

theorem Reads.settled {calls answered : List Bytes} (h : Reads [] [] messages)
    (hdone : ∀ id ∈ calls, id ∈ answered) : Reads calls answered messages := by
  cases messages with
  | nil => exact hdone
  | cons message rest =>
    cases message with
    | toolResult result => exact nomatch h.1.1
    | _ => exact ⟨hdone, h.2⟩

/-! ## The output, written from the left -/

/-- The rest of the output for calls that wait and the ids of the results since. -/
def remaining (model : Model) : List ToolCallContent → List Bytes → List Message → List Message
  | pendingCalls, resultIds, [] => orphans pendingCalls resultIds
  | pendingCalls, resultIds, message :: rest =>
    match message with
    | .assistant assistant =>
      orphans pendingCalls resultIds ++ if failed assistant then remaining model [] [] rest
        else
          .assistant (normalizeAssistant model assistant) ::
            remaining model (toolCalls (normalizeAssistant model assistant)) [] rest
    | .toolResult result =>
      .toolResult (normalizeToolResult model result) ::
        remaining model pendingCalls (result.toolCallId :: resultIds) rest
    | message =>
      if excludedFromProviderContext message then remaining model pendingCalls resultIds rest
      else orphans pendingCalls resultIds ++ ((carriedOver model message).toList ++ remaining model [] [] rest)

/-- The message is neither an assistant message nor a tool result. -/
def isOther : Message → Bool
  | .assistant _ => false
  | .toolResult _ => false
  | _ => true

theorem message_kinds (message : Message) :
    (∃ assistant, message = .assistant assistant) ∨ (∃ result, message = .toolResult result) ∨
      isOther message = true := by
  cases message with
  | assistant assistant => exact Or.inl ⟨assistant, rfl⟩
  | toolResult result => exact Or.inr (Or.inl ⟨result, rfl⟩)
  | _ => exact Or.inr (Or.inr rfl)

section Other

variable {message : Message} (h : isOther message = true)
include h

theorem messageCallIds_other : messageCallIds message = [] := by
  cases message <;> first | rfl | exact nomatch h

theorem carriedOver_other (model : Model) :
    ∃ user : Option UserMessage, carriedOver model message = user.map .user := by
  cases message with
  | assistant assistant | toolResult result => exact nomatch h
  | user user => exact ⟨some (normalizeUser model user), rfl⟩
  | system system => exact ⟨none, rfl⟩
  | bashExecution bash => exact ⟨extendedMessageToUserMessage (.bashExecution bash), rfl⟩
  | custom custom => exact ⟨some (customMessageToUserMessage custom), rfl⟩
  | branchSummary branch => exact ⟨some (branchSummaryToUserMessage branch), rfl⟩
  | compactionSummary compaction => exact ⟨some (compactionSummaryToUserMessage compaction), rfl⟩

theorem remaining_other (model : Model) (pendingCalls : List ToolCallContent) (resultIds : List Bytes)
    (rest : List Message) : remaining model pendingCalls resultIds (message :: rest) =
      if excludedFromProviderContext message then remaining model pendingCalls resultIds rest
      else orphans pendingCalls resultIds ++ ((carriedOver model message).toList ++ remaining model [] [] rest) := by
  cases message <;> first | rfl | exact nomatch h

theorem answers_other (calls answered : List Bytes) (rest : List Message) : Answers calls answered (message :: rest) =
      if excludedFromProviderContext message then Answers calls answered rest else Answers [] [] rest := by
  cases message <;> first | rfl | exact nomatch h

theorem normalizeMessage_other (model : Model) (s : NormalizeState) :
    normalizeMessage model s message = if excludedFromProviderContext message then s
      else { s.flushOrphans with
        result := s.flushOrphans.result ++ (carriedOver model message).toList } := by
  cases message with
  | assistant assistant | toolResult result => exact nomatch h
  | bashExecution bash =>
    by_cases hexcluded : bash.excludeFromContext <;>
      simp [normalizeMessage, excludedFromProviderContext, carriedOver, extendedMessageToUserMessage, hexcluded]
  | _ => simp [normalizeMessage, excludedFromProviderContext, carriedOver, extendedMessageToUserMessage]

end Other

theorem carriedOver_excluded {message : Message} (model : Model)
    (h : excludedFromProviderContext message = true) : carriedOver model message = none := by
  cases message with
  | bashExecution bash => simp [carriedOver, extendedMessageToUserMessage, h]
  | _ => exact nomatch h

theorem foldl_flushed (model : Model) (messages : List Message) (s : NormalizeState) :
    (messages.foldl (normalizeMessage model) s).flushOrphans.result =
      s.result ++ remaining model s.pendingCalls s.resultIds messages := by
  induction messages generalizing s with
  | nil => rfl
  | cons message rest ih =>
    rw [List.foldl_cons, ih]
    obtain ⟨assistant, rfl⟩ | ⟨result, rfl⟩ | hother := message_kinds message
    · by_cases hfailed : failed assistant <;>
        simp [normalizeMessage, remaining, hfailed, NormalizeState.flushOrphans]
    · simp [normalizeMessage, remaining]
    · rw [normalizeMessage_other hother, remaining_other hother]
      split_ifs
      · rfl
      · simp [NormalizeState.flushOrphans]

theorem normalizeHistory_eq (model : Model) (messages : List Message) :
    normalizeHistory model messages = remaining model [] [] messages :=
  foldl_flushed model messages {}

theorem callIds_normalizeAssistant (model : Model) (message : AssistantMessage) :
    callIds (normalizeAssistant model message) = callIds message := by
  simp only [callIds, toolCalls, normalizeAssistant]
  induction message.content with
  | nil => rfl
  | cons block rest ih =>
    cases block with
    | text block => simpa [normalizeBlock] using ih
    | toolCall call =>
      cases hsame : sameModel model message <;> simpa [normalizeBlock, hsame] using ih
    | thinking block =>
      simp only [List.filterMap_cons, normalizeBlock]
      split_ifs <;> simpa using ih

/-! ## What the output keeps -/

variable {pendingCalls : List ToolCallContent} {resultIds : List Bytes}

theorem mem_orphans {message : Message} : message ∈ orphans pendingCalls resultIds ↔
      ∃ call ∈ pendingCalls, call.id ∉ resultIds ∧ .toolResult (orphanResult call) = message := by
  simp only [orphans, List.mem_map, List.mem_filter, decide_eq_true_eq, and_assoc]

theorem callIds_orphans (pendingCalls : List ToolCallContent) (resultIds : List Bytes) :
    (orphans pendingCalls resultIds).flatMap messageCallIds = [] := by
  refine List.flatMap_eq_nil_iff.2 fun message hmem => ?_
  obtain ⟨call, -, -, rfl⟩ := mem_orphans.1 hmem
  rfl

theorem filter_orphans (pendingCalls : List ToolCallContent) (resultIds : List Bytes) :
    (orphans pendingCalls resultIds).filter (fun message => !isResult message) = [] := by
  refine List.filter_eq_nil_iff.2 fun message hmem => ?_
  obtain ⟨call, -, -, rfl⟩ := mem_orphans.1 hmem
  exact Bool.false_ne_true

theorem callIds_remaining (model : Model) (pendingCalls : List ToolCallContent) (resultIds : List Bytes)
    (messages : List Message) : ((remaining model pendingCalls resultIds messages).flatMap messageCallIds).Sublist
      (messages.flatMap messageCallIds) := by
  induction messages generalizing pendingCalls resultIds with
  | nil => exact (callIds_orphans pendingCalls resultIds).symm ▸ List.Sublist.refl _
  | cons message rest ih =>
    rw [flatMap_cons]
    obtain ⟨assistant, rfl⟩ | ⟨result, rfl⟩ | hother := message_kinds message
    · simp only [remaining, List.flatMap_append, callIds_orphans, nil_append]
      split_ifs with hfailed
      · exact (ih _ _).trans (List.sublist_append_right _ _)
      · rw [flatMap_cons, messageCallIds, messageCallIds, callIds_normalizeAssistant]
        exact (ih _ _).append_left _
    · exact ih _ _
    · rw [remaining_other hother, messageCallIds_other hother, nil_append]
      obtain ⟨user, hcarried⟩ := carriedOver_other hother model
      split_ifs with hexcluded
      · exact ih _ _
      · rw [hcarried, List.flatMap_append, callIds_orphans, nil_append, List.flatMap_append]
        cases user <;> exact ih _ _

/-- The messages of the output that are not results are those of the history, in order. -/
theorem filter_remaining (model : Model) (pendingCalls : List ToolCallContent) (resultIds : List Bytes)
    (messages : List Message) :
    (remaining model pendingCalls resultIds messages).filter (fun message => !isResult message) =
      messages.filterMap (carriedOver model) := by
  induction messages generalizing pendingCalls resultIds with
  | nil => exact filter_orphans pendingCalls resultIds
  | cons message rest ih =>
    obtain ⟨assistant, rfl⟩ | ⟨result, rfl⟩ | hother := message_kinds message
    · rw [remaining, List.filter_append, filter_orphans, nil_append, List.filterMap_cons, carriedOver]
      split_ifs with hfailed
      · exact ih _ _
      · rw [List.filter_cons_of_pos rfl, ih]
    · exact ih _ _
    · obtain ⟨user, hcarried⟩ := carriedOver_other hother model
      rw [remaining_other hother, List.filterMap_cons]
      split_ifs with hexcluded
      · rw [carriedOver_excluded model hexcluded, ih]
      · rw [hcarried, List.filter_append, filter_orphans, nil_append, List.filter_append, ih]
        cases user <;> rfl

/-! ## From the history to the output -/

theorem reads_orphanResults {calls answered : List Bytes} {waiting : List ToolCallContent}
    (hsettled : Reads [] [] messages) (hnodup : (waiting.map ToolCallContent.id).Nodup)
    (hwaiting : ∀ call ∈ waiting, call.id ∈ calls ∧ call.id ∉ answered)
    (hcover : ∀ id ∈ calls, id ∈ answered ∨ id ∈ waiting.map ToolCallContent.id) :
    Reads calls answered ((waiting.map fun call => .toolResult (orphanResult call)) ++ messages) := by
  induction waiting generalizing answered with
  | nil => exact hsettled.settled fun id hid => (hcover id hid).resolve_right not_mem_nil
  | cons call rest ih =>
    obtain ⟨hfresh, hrest⟩ := List.nodup_cons.1 hnodup
    refine ⟨hwaiting call List.mem_cons_self, ih hrest (fun other hother => ?_) fun id hid => ?_⟩
    · obtain ⟨hcall, hopen⟩ := hwaiting other (List.mem_cons_of_mem _ hother)
      refine ⟨hcall, fun hmem => (List.mem_cons.1 hmem).elim (fun heq => hfresh ?_) hopen⟩
      exact List.mem_map.2 ⟨other, hother, heq⟩
    rcases hcover id hid with hdone | hmem
    · exact Or.inl (List.mem_cons_of_mem _ hdone)
    · exact (List.mem_cons.1 hmem).imp_left fun heq => List.mem_cons.2 (Or.inl heq)

theorem reads_orphans (hsettled : Reads [] [] messages) (hnodup : (pendingCalls.map ToolCallContent.id).Nodup)
    (resultIds : List Bytes) :
    Reads (pendingCalls.map ToolCallContent.id) resultIds (orphans pendingCalls resultIds ++ messages) := by
  refine reads_orphanResults hsettled (hnodup.sublist (List.filter_sublist.map _)) (fun call hcall => ?_)
    fun id hid => or_iff_not_imp_left.2 fun hopen => ?_
  · obtain ⟨hmem, hopen⟩ := List.mem_filter.1 hcall
    exact ⟨List.mem_map_of_mem hmem, of_decide_eq_true hopen⟩
  · obtain ⟨call, hmem, rfl⟩ := List.mem_map.1 hid
    exact List.mem_map_of_mem (List.mem_filter.2 ⟨hmem, decide_eq_true hopen⟩)

/-- The output for a history that answers its calls in place can be read from the left. -/
theorem Answers.reads (model : Model) (pendingCalls : List ToolCallContent)
    (h : Answers (pendingCalls.map ToolCallContent.id) resultIds messages)
    (hpend : (pendingCalls.map ToolCallContent.id).Nodup) (hnodup : (messages.flatMap messageCallIds).Nodup) :
    Reads (pendingCalls.map ToolCallContent.id) resultIds (remaining model pendingCalls resultIds messages) := by
  induction messages generalizing pendingCalls resultIds with
  | nil =>
    have hend : Reads [] [] [] := fun _ hid => nomatch hid
    have hread := reads_orphans hend hpend resultIds
    rwa [List.append_nil] at hread
  | cons message rest ih =>
    have hrest := (List.nodup_append.1 hnodup).2.1
    obtain ⟨assistant, rfl⟩ | ⟨result, rfl⟩ | hother := message_kinds message
    · have hanswers : Answers (if failed assistant then [] else callIds assistant) [] rest := h
      refine reads_orphans ?_ hpend resultIds
      split_ifs at hanswers ⊢ with hfailed
      · exact ih [] hanswers List.nodup_nil hrest
      have hcalls : (callIds assistant).Nodup := (List.nodup_append.1 hnodup).1
      rw [← callIds_normalizeAssistant model] at hanswers hcalls
      exact ⟨(fun _ hid => nomatch hid), ih _ hanswers hcalls hrest⟩
    · exact ⟨h.1, ih _ h.2 hpend hrest⟩
    · rw [answers_other hother] at h
      rw [remaining_other hother]
      split_ifs at h ⊢ with hexcluded
      · exact ih _ h hpend hrest
      obtain ⟨user, hcarried⟩ := carriedOver_other hother model
      have hsettled := ih [] h List.nodup_nil hrest
      refine reads_orphans ?_ hpend resultIds
      rw [hcarried]
      cases user with
      | none => exact hsettled
      | some user => exact ⟨(fun _ hid => nomatch hid), hsettled⟩

/-! ## From the output to the history -/

/-- What has been written when some calls wait: the results since are there, and each call of the last
assistant message waits or has a result. -/
structure Written (head : List Message) (pendingCalls : List ToolCallContent) (resultIds : List Bytes) :
    Prop where
  answered : ∀ id ∈ resultIds, head.any (answersCall id)
  last : ∀ assistant, lastAssistant head = some assistant → ∀ id ∈ callIds assistant,
    id ∈ pendingCalls.map ToolCallContent.id ∨ head.any (answersCall id)

theorem lastAssistant_orphans (pendingCalls : List ToolCallContent) (resultIds : List Bytes) :
    lastAssistant (orphans pendingCalls resultIds) = none := by
  refine List.findSome?_eq_none_iff.2 fun message hmem => ?_
  obtain ⟨call, -, -, rfl⟩ := mem_orphans.1 (List.mem_reverse.1 hmem)
  rfl

variable {head : List Message}

theorem Written.flushed (h : Written head pendingCalls resultIds) :
    Written (head ++ orphans pendingCalls resultIds) [] [] where
  answered := fun _ hid => nomatch hid
  last := by
    intro assistant hlast id hid
    rw [lastAssistant_append, lastAssistant_orphans, Option.none_or] at hlast
    rw [any_append, Bool.or_eq_true]
    refine Or.inr ((h.last assistant hlast id hid).elim (fun hmem => ?_) Or.inl)
    obtain ⟨call, hcall, rfl⟩ := List.mem_map.1 hmem
    by_cases hdone : call.id ∈ resultIds
    · exact Or.inl (h.answered _ hdone)
    · exact Or.inr (List.any_eq_true.2 ⟨_, mem_orphans.2 ⟨call, hcall, hdone, rfl⟩, decide_eq_true rfl⟩)

theorem written_assistant (head : List Message) (assistant : AssistantMessage) :
    Written (head ++ [.assistant assistant]) (toolCalls assistant) [] where
  answered := fun _ hid => nomatch hid
  last := by
    intro found hlast id hid
    rw [lastAssistant_append] at hlast
    cases hlast
    exact Or.inl hid

theorem Written.user (h : Written head [] []) (user : UserMessage) : Written (head ++ [.user user]) [] [] where
  answered := fun _ hid => nomatch hid
  last := by
    intro assistant hlast id hid
    rw [lastAssistant_append] at hlast
    refine Or.inr ?_
    rw [any_append, (h.last assistant hlast id hid).resolve_left not_mem_nil, Bool.true_or]

theorem Written.result (h : Written head pendingCalls resultIds) (result : ToolResultMessage) :
    Written (head ++ [.toolResult result]) pendingCalls (result.toolCallId :: resultIds) where
  answered := by
    intro id hid
    rw [any_append, Bool.or_eq_true]
    rcases List.mem_cons.1 hid with rfl | hid
    · exact Or.inr (by simp [answersCall])
    · exact Or.inl (h.answered id hid)
  last := by
    intro assistant hlast id hid
    rw [lastAssistant_append] at hlast
    rw [any_append, Bool.or_eq_true]
    exact (h.last assistant hlast id hid).imp_right Or.inl

theorem Paired.single {head after : List Message} {result : ToolResultMessage}
    (h : Paired (head ++ .toolResult result :: after)) (hlast : lastAssistant head = some assistant)
    (hid : result.toolCallId ∈ callIds assistant) : head.any (answersCall result.toolCallId) = false := by
  obtain ⟨before, between, hhead⟩ := List.append_of_mem (lastAssistant_mem hlast)
  have hone := (h.calls before assistant (between ++ .toolResult result :: after) (by rw [hhead]; simp) _ hid).1
  rw [List.countP_append, List.countP_cons_of_pos (by simp [answersCall])] at hone
  rw [Bool.eq_false_iff]
  intro hany
  have hpos : 0 < head.countP (answersCall result.toolCallId) := by
    rw [List.countP_pos_iff]
    exact List.any_eq_true.1 hany
  omega

theorem Paired.answers (model : Model) {head : List Message}
    (h : Paired (head ++ remaining model pendingCalls resultIds messages))
    (hwrote : Written head pendingCalls resultIds) :
    Answers (pendingCalls.map ToolCallContent.id) resultIds messages := by
  induction messages generalizing head pendingCalls resultIds with
  | nil => trivial
  | cons message rest ih =>
    obtain ⟨assistant, rfl⟩ | ⟨result, rfl⟩ | hother := message_kinds message
    · show Answers (if failed assistant then [] else callIds assistant) [] rest
      rw [remaining, ← append_assoc] at h
      split_ifs at h ⊢ with hfailed
      · exact ih h hwrote.flushed
      rw [← callIds_normalizeAssistant model]
      rw [← List.singleton_append, ← append_assoc] at h
      exact ih h (written_assistant _ _)
    · obtain ⟨assistant, hlast, hid⟩ := h.results head _ _ rfl
      have hsingle := h.single hlast hid
      refine ⟨⟨?_, fun hmem => ?_⟩, ?_⟩
      · refine (hwrote.last assistant hlast _ hid).resolve_right fun hany => ?_
        exact Bool.false_ne_true (hsingle.symm.trans hany)
      · exact Bool.false_ne_true (hsingle.symm.trans (hwrote.answered _ hmem))
      · rw [remaining, ← List.singleton_append, ← append_assoc] at h
        exact ih h (hwrote.result _)
    · rw [answers_other hother]
      rw [remaining_other hother] at h
      obtain ⟨user, hcarried⟩ := carriedOver_other hother model
      split_ifs at h ⊢ with hexcluded
      · exact ih h hwrote
      rw [← append_assoc, hcarried] at h
      cases user with
      | none => exact ih h hwrote.flushed
      | some user => exact ih (by rwa [← append_assoc] at h) (hwrote.flushed.user user)

/-! ## The result -/

/-- The output is paired and keeps the other messages exactly when the history answers its calls in place. -/
theorem history_paired_iff (model : Model) (messages : List Message) (h : (messages.flatMap messageCallIds).Nodup) :
    (Paired (normalizeHistory model messages) ∧
      (normalizeHistory model messages).filter (fun message => !isResult message) =
        messages.filterMap (carriedOver model)) ↔ Answers [] [] messages := by
  rw [normalizeHistory_eq]
  constructor
  · rintro ⟨hpaired, -⟩
    have hhead : Paired ([] ++ remaining model [] [] messages) := hpaired
    exact hhead.answers model ⟨(fun _ hid => nomatch hid), (fun _ hlast => nomatch hlast)⟩
  intro hanswers
  have hreads := Answers.reads model [] hanswers List.nodup_nil h
  exact ⟨hreads.paired (h.sublist (callIds_remaining model [] [] messages)), filter_remaining model [] [] messages⟩

def textModel : Model := ⟨"m", "openai-completions", "p", [.text]⟩

/-- An assistant message of one tool call. -/
def callingMessage (id : Bytes) : AssistantMessage where
  content := [.toolCall { id := id, name := "read" }]
  api := "openai-completions"
  provider := "p"
  model := "m"
  usage := ⟨0, 0, 0, 0, none, none, 0, ⟨.zero false, .zero false, .zero false, .zero false, .zero false⟩⟩
  stopReason := .toolUse

def resultMessage (id : Bytes) : ToolResultMessage where
  toolCallId := id
  toolName := "read"
  content := []

/-- An excluded shell command between a call and its result does not matter, and a call without a result gets
one. -/
theorem history_paired_missing : Paired (normalizeHistory textModel [.assistant (callingMessage [97]),
      .bashExecution { command := "ls", output := [], excludeFromContext := true },
      .toolResult (resultMessage [97]), .assistant (callingMessage [98])]) :=
  ((history_paired_iff textModel _ (by decide)).2 (by
    refine ⟨⟨List.mem_singleton.2 rfl, not_mem_nil⟩, trivial⟩)).1

/-- A result that comes after a user message stays in the output, next to the one that was made up for the
call. -/
theorem late_result_unpaired : ([Message.assistant (callingMessage [97]), .user (userTextMessage [104, 105] 0),
      .toolResult (resultMessage [97])].flatMap messageCallIds).Nodup ∧
    ¬ Paired (normalizeHistory textModel [.assistant (callingMessage [97]),
      .user (userTextMessage [104, 105] 0), .toolResult (resultMessage [97])]) := by
  refine ⟨by decide, fun hpaired => ?_⟩
  have hone := (hpaired.calls [] (callingMessage [97])
    [.toolResult (orphanResult { id := [97], name := "read" }), .user (userTextMessage [104, 105] 0),
      .toolResult (resultMessage [97])] (by decide +kernel) [97] (by decide)).1
  exact absurd hone (by decide +kernel)

end CodingHarness.Ai
