import CodingHarness.Durable.ContextView

/-!
# The order of tool results

`orderToolResults` gives every tool call of an assistant message one result, directly after the message:
`toolResults_paired` states where the results stand and what else is kept. A second pass changes nothing unless two
calls of one message share an identity that no result answers, and differ in their names: the second pass then
answers both with the placeholder of the first one. `Unambiguous` excludes such messages, and
`orderToolResults_idempotent_iff` says that they are the only ones to exclude.
-/

namespace CodingHarness.Durable.Context

open Library Support Chord
open List (cons_append nil_append)
open Option (bind_none bind_some getD_none)

/-! ## Results -/

def isToolResult (message : Json) : Bool := contextRole message == "toolResult"

def isAssistant (message : Json) : Bool := contextRole message == "assistant"

/-- The messages that can answer a call of the message before them. -/
def reach (later : List Json) : List Json := later.takeWhile fun message => !isAssistant message

/-- The first result for an identity before the next assistant message. -/
def answer (later : List Json) (id : Bytes) : Option Json := (reach later).find? (isResultOf id)

theorem resultFor_eq (assistant : Json) (later : List Json) (call : Json × Json) :
    resultFor assistant later call = (call.1.asString.bind (answer later)).getD (missingResult call assistant) := by
  unfold resultFor
  simp only [answer, reach, isAssistant, bne]
  rfl

@[simp] theorem asString_asObject_missingResult (call : Json × Json) (assistant : Json) :
    ((missingResult call assistant).asObject.bind fun object => jsonMember object "toolCallId").bind Json.asString =
      call.1.asString := by
  rfl

theorem isResultOf_missingResult (id : Bytes) (call : Json × Json) (assistant : Json) :
    isResultOf id (missingResult call assistant) = (call.1.asString == some id) := by
  have hrole : contextRole (missingResult call assistant) = "toolResult" := rfl
  unfold isResultOf
  rw [hrole, asString_asObject_missingResult, beq_self_eq_true, Bool.true_and]

theorem isResultOf_resultFor (id : Bytes) (assistant : Json) (later : List Json) (call : Json × Json) :
    isResultOf id (resultFor assistant later call) = (call.1.asString == some id) := by
  rw [resultFor_eq]
  cases hid : call.1.asString with
  | none => rw [bind_none, getD_none, isResultOf_missingResult, hid]
  | some own =>
    rw [bind_some]
    cases hfound : answer later own with
    | none => rw [getD_none, isResultOf_missingResult, hid]
    | some message =>
      have hres := List.find?_some hfound
      simp only [isResultOf, Bool.and_eq_true, beq_iff_eq] at hres
      simp [isResultOf, hres.1, hres.2]

theorem isToolResult_resultFor (assistant : Json) (later : List Json) (call : Json × Json) :
    isToolResult (resultFor assistant later call) = true := by
  rw [resultFor_eq]
  cases hfound : call.1.asString.bind (answer later) with
  | none => rfl
  | some message =>
    obtain ⟨id, -, hanswer⟩ := Option.bind_eq_some_iff.1 hfound
    have hres := List.find?_some hanswer
    simp only [isResultOf, Bool.and_eq_true] at hres
    exact hres.1

variable {assistant : Json}

theorem missingResult_inj {call call' : Json × Json}
    (h : missingResult call assistant = missingResult call' assistant) : call.2 = call'.2 := by
  simp only [missingResult, field, Json.object.injEq, cons_append, nil_append,
    List.cons.injEq, Prod.mk.injEq, true_and] at h
  exact h.2.1

/-! ## One message -/

variable {message : Json}

theorem orderToolResults_result (h : isToolResult message = true) (later : List Json) :
    orderToolResults (message :: later) = orderToolResults later := by
  rw [orderToolResults, if_pos (beq_iff_eq.1 h)]

theorem not_result_of_assistant (h : isAssistant message = true) : isToolResult message = false := by
  have hne : ofString "assistant" ≠ "toolResult" := by decide
  rw [isToolResult, beq_iff_eq.1 h]
  exact beq_false_of_ne hne

theorem orderToolResults_assistant (h : isAssistant message = true) (later : List Json) :
    orderToolResults (message :: later) =
      message :: (toolCalls message).map (resultFor message later) ++ orderToolResults later := by
  have hother : ¬ contextRole message = "toolResult" := by
    simpa [isToolResult] using not_result_of_assistant h
  rw [orderToolResults, if_neg hother, if_pos (beq_iff_eq.1 h)]

theorem orderToolResults_other (hres : isToolResult message = false)
    (hasst : isAssistant message = false) (later : List Json) :
    orderToolResults (message :: later) = message :: orderToolResults later := by
  rw [orderToolResults, if_neg (by simpa [isToolResult] using hres),
    if_neg (by simpa [isAssistant] using hasst)]

theorem message_cases (message : Json) : isToolResult message = true ∨ isAssistant message = true ∨
      (isToolResult message = false ∧ isAssistant message = false) := by
  cases isToolResult message <;> cases isAssistant message <;> simp

theorem orderToolResults_results {results : List Json} (h : ∀ message ∈ results, isToolResult message = true)
    (later : List Json) : orderToolResults (results ++ later) = orderToolResults later := by
  induction results with
  | nil => rfl
  | cons message rest ih =>
    rw [cons_append, orderToolResults_result (h message List.mem_cons_self)]
    exact ih fun other hother => h other (List.mem_cons_of_mem _ hother)

/-! ## Where the results stand -/

theorem reach_append (before : List Json) (h : isAssistant assistant = true) (later : List Json) :
    reach (before ++ assistant :: later) = reach before := by
  unfold reach
  induction before with
  | nil => simp [h]
  | cons message before ih =>
    rw [cons_append, List.takeWhile_cons, List.takeWhile_cons, ih]

theorem resultFor_append (message : Json) (before : List Json)
    (h : isAssistant assistant = true) (later : List Json) (call : Json × Json) :
    resultFor message (before ++ assistant :: later) call = resultFor message before call := by
  have hanswer : answer (before ++ assistant :: later) = answer before := by
    funext id
    rw [answer, reach_append before h, answer]
  rw [resultFor_eq, resultFor_eq, hanswer]

theorem orderToolResults_append (before : List Json) (h : isAssistant assistant = true) (later : List Json) :
    orderToolResults (before ++ assistant :: later) =
      orderToolResults before ++ orderToolResults (assistant :: later) := by
  induction before with
  | nil => rfl
  | cons message before ih =>
    rw [cons_append]
    rcases message_cases message with hres | hasst | ⟨hres, hasst⟩
    · rw [orderToolResults_result hres, orderToolResults_result hres, ih]
    · have hcalls : resultFor message (before ++ assistant :: later) = resultFor message before := by
        funext call
        exact resultFor_append message before h later call
      rw [orderToolResults_assistant hasst, orderToolResults_assistant hasst, ih, hcalls, List.append_assoc]
    · rw [orderToolResults_other hres hasst, orderToolResults_other hres hasst, ih, cons_append]

/-- The results that follow the first message of a list. -/
def resultsAt : List Json → List Json
  | [] => []
  | message :: later => if isAssistant message then (toolCalls message).map (resultFor message later) else []

theorem filter_results (message : Json) (later : List Json) :
    ((toolCalls message).map (resultFor message later)).filter isToolResult =
      (toolCalls message).map (resultFor message later) := by
  rw [List.filter_eq_self]
  intro result hres
  obtain ⟨call, -, rfl⟩ := List.mem_map.1 hres
  exact isToolResult_resultFor message later call

theorem others_orderToolResults (messages : List Json) :
    (orderToolResults messages).filter (fun message => !isToolResult message) =
      messages.filter fun message => !isToolResult message := by
  induction messages with
  | nil => rfl
  | cons message later ih =>
    rcases message_cases message with hres | hasst | ⟨hres, hasst⟩
    · rw [orderToolResults_result hres, ih, List.filter_cons_of_neg (by simp [hres])]
    · have hother := not_result_of_assistant hasst
      have hnone : ((toolCalls message).map (resultFor message later)).filter
          (fun message => !isToolResult message) = [] := by
        rw [List.filter_eq_nil_iff]
        intro result hres
        obtain ⟨call, -, rfl⟩ := List.mem_map.1 hres
        simp [isToolResult_resultFor]
      rw [orderToolResults_assistant hasst, cons_append, List.filter_cons_of_pos (by simp [hother]),
        List.filter_append, hnone, ih, nil_append, List.filter_cons_of_pos (by simp [hother])]
    · rw [orderToolResults_other hres hasst, List.filter_cons_of_pos (by simp [hres]), ih,
        List.filter_cons_of_pos (by simp [hres])]

theorem results_orderToolResults (messages : List Json) :
    (orderToolResults messages).filter isToolResult = messages.tails.flatMap resultsAt := by
  induction messages with
  | nil => rfl
  | cons message later ih =>
    rw [List.tails_cons, List.flatMap_cons, resultsAt, ← ih]
    rcases message_cases message with hres | hasst | ⟨hres, hasst⟩
    · have hother : isAssistant message = false := by
        cases hcase : isAssistant message with
        | false => rfl
        | true => rw [not_result_of_assistant hcase] at hres; exact absurd hres Bool.false_ne_true
      rw [orderToolResults_result hres, hother, if_neg Bool.false_ne_true, nil_append]
    · rw [orderToolResults_assistant hasst, if_pos hasst, cons_append,
        List.filter_cons_of_neg (by simp [not_result_of_assistant hasst]), List.filter_append,
        filter_results]
    · rw [orderToolResults_other hres hasst, hasst, if_neg Bool.false_ne_true,
        List.filter_cons_of_neg (by simp [hres]), nil_append]

/-! ## The second pass -/

/-- No result stands before the first assistant message of an ordered list. -/
theorem reach_orderToolResults (messages : List Json) :
    ∀ message ∈ reach (orderToolResults messages), isToolResult message = false := by
  induction messages with
  | nil => simp [orderToolResults, reach]
  | cons message later ih =>
    rcases message_cases message with hres | hasst | ⟨hres, hasst⟩
    · rw [orderToolResults_result hres]
      exact ih
    · rw [orderToolResults_assistant hasst]
      simp [reach, hasst]
    · rw [orderToolResults_other hres hasst]
      intro other hother
      rw [reach, List.takeWhile_cons_of_pos (by simp [hasst])] at hother
      rcases List.mem_cons.1 hother with rfl | hother
      · exact hres
      · exact ih other hother

/-- What the second pass finds for an identity: the result of the first call that has it. -/
theorem answer_again (message : Json) (later : List Json) (id : Bytes) :
    answer ((toolCalls message).map (resultFor message later) ++ orderToolResults later) id =
      ((toolCalls message).find? fun call => call.1.asString == some id).map (resultFor message later) := by
  have hreach : reach ((toolCalls message).map (resultFor message later) ++ orderToolResults later) =
      (toolCalls message).map (resultFor message later) ++ reach (orderToolResults later) := by
    unfold reach
    refine List.takeWhile_append_of_pos fun result hres => ?_
    obtain ⟨call, -, rfl⟩ := List.mem_map.1 hres
    have hres' := isToolResult_resultFor message later call
    cases hcase : isAssistant (resultFor message later call) with
    | false => rfl
    | true => rw [not_result_of_assistant hcase] at hres'; exact absurd hres' Bool.false_ne_true
  have hrest : (reach (orderToolResults later)).find? (isResultOf id) = none := by
    rw [List.find?_eq_none]
    intro other hother hres
    simp only [isResultOf, Bool.and_eq_true] at hres
    have hnot := reach_orderToolResults later other hother
    rw [isToolResult, hres.1] at hnot
    cases hnot
  rw [answer, hreach, List.find?_append, hrest, Option.or_none, List.find?_map]
  refine congrArg (Option.map _) (congrArg (List.find? · _) ?_)
  funext call
  exact isResultOf_resultFor id message later call

/-- Two calls of the message that share an identity without an answer have the same name. -/
def Clear (message : Json) (later : List Json) : Prop :=
  ∀ id, answer later id = none → ∀ call ∈ toolCalls message, ∀ call' ∈ toolCalls message,
    call.1 = .string id → call'.1 = .string id → call.2 = call'.2

theorem asString_eq_some {value : Json} {id : Bytes} : value.asString = some id ↔ value = .string id := by
  cases value <;> simp [Json.asString]

/-- The second pass gives a call the same result exactly when its identity is clear. -/
theorem results_again_iff (message : Json) (later : List Json) : (toolCalls message).map (resultFor message
        ((toolCalls message).map (resultFor message later) ++ orderToolResults later)) =
      (toolCalls message).map (resultFor message later) ↔ Clear message later := by
  rw [List.map_inj_left]
  -- The call that decides what the second pass finds.
  have hfirst : ∀ call ∈ toolCalls message, ∀ id, call.1.asString = some id →
      ∃ first ∈ toolCalls message, first.1.asString = some id ∧
        ((toolCalls message).find? fun call => call.1.asString == some id) = some first := by
    intro call hcall id hid
    cases hfind : (toolCalls message).find? fun call => call.1.asString == some id with
    | none => exact absurd (by simp [hid]) (List.find?_eq_none.1 hfind call hcall)
    | some first => exact ⟨first, List.mem_of_find?_eq_some hfind, by simpa using List.find?_some hfind, rfl⟩
  constructor
  · intro hsame id hnone
    have hname : ∀ call ∈ toolCalls message, call.1 = .string id → ∀ first,
        ((toolCalls message).find? fun call => call.1.asString == some id) = some first →
        first.1.asString = some id → first.2 = call.2 := by
      intro call hcall hid first hfind hfirstId
      have hcallId := asString_eq_some.2 hid
      have heq := hsame call hcall
      rw [resultFor_eq, resultFor_eq, hcallId, bind_some, bind_some, answer_again, hfind, hnone,
        Option.map_some, Option.getD_some, getD_none, resultFor_eq, hfirstId, bind_some, hnone,
        getD_none] at heq
      exact missingResult_inj heq
    intro call hcall call' hcall' hid hid'
    obtain ⟨first, -, hfirstId, hfind⟩ := hfirst call hcall id (asString_eq_some.2 hid)
    exact (hname call hcall hid first hfind hfirstId).symm.trans (hname call' hcall' hid' first hfind hfirstId)
  intro hclear call hcall
  cases hid : call.1.asString with
  | none => rw [resultFor_eq, resultFor_eq, hid, bind_none, bind_none]
  | some id =>
    obtain ⟨first, hmem, hfirstId, hfind⟩ := hfirst call hcall id hid
    rw [resultFor_eq, hid, bind_some, answer_again, hfind, Option.map_some, Option.getD_some,
      resultFor_eq, resultFor_eq, hid, hfirstId, bind_some]
    cases hanswer : answer later id with
    | some found => rfl
    | none =>
      have hfirstKey := asString_eq_some.1 hfirstId
      have hcallKey := asString_eq_some.1 hid
      have heq : first = call :=
        Prod.ext (hfirstKey.trans hcallKey.symm) (hclear id hanswer first hmem call hcall hfirstKey hcallKey)
      rw [heq]

/-- Every assistant message of the list is clear. -/
def Unambiguous (messages : List Json) : Prop :=
  ∀ before message later, messages = before ++ message :: later → isAssistant message = true → Clear message later

theorem unambiguous_cons {later : List Json} :
    Unambiguous (message :: later) ↔ (isAssistant message = true → Clear message later) ∧ Unambiguous later := by
  constructor
  · intro h
    exact ⟨h [] message later rfl, fun before other rest heq => h (message :: before) other rest (by rw [heq]; rfl)⟩
  rintro ⟨hhead, htail⟩ before other rest heq hasst
  cases before with
  | nil =>
    obtain ⟨rfl, rfl⟩ := List.cons.inj heq
    exact hhead hasst
  | cons first before =>
    obtain ⟨rfl, hrest⟩ := List.cons.inj heq
    exact htail before other rest hrest hasst

/-- **A second pass changes nothing** exactly when the messages are unambiguous. -/
theorem orderToolResults_idempotent_iff (messages : List Json) :
    orderToolResults (orderToolResults messages) = orderToolResults messages ↔ Unambiguous messages := by
  induction messages with
  | nil => exact ⟨fun _ before message later h => absurd h (by simp), fun _ => rfl⟩
  | cons message later ih =>
    rw [unambiguous_cons]
    rcases message_cases message with hres | hasst | ⟨hres, hasst⟩
    · rw [orderToolResults_result hres, ih]
      refine ⟨fun h => ⟨fun hasst => ?_, h⟩, And.right⟩
      rw [not_result_of_assistant hasst] at hres
      exact absurd hres Bool.false_ne_true
    · have hdropped : orderToolResults ((toolCalls message).map (resultFor message later) ++
          orderToolResults later) = orderToolResults (orderToolResults later) := by
        refine orderToolResults_results (fun result hmem => ?_) _
        obtain ⟨call, -, rfl⟩ := List.mem_map.1 hmem
        exact isToolResult_resultFor message later call
      rw [orderToolResults_assistant hasst, cons_append, orderToolResults_assistant hasst, hdropped,
        cons_append, List.cons.injEq, ← ih, ← results_again_iff]
      constructor
      · rintro ⟨-, h⟩
        obtain ⟨hress, hlater⟩ := List.append_inj h (by simp)
        exact ⟨fun _ => hress, hlater⟩
      · rintro ⟨hress, hlater⟩
        exact ⟨rfl, by rw [hress hasst, hlater]⟩
    · rw [orderToolResults_other hres hasst, orderToolResults_other hres hasst, List.cons.injEq, ih]
      refine ⟨fun h => ⟨fun h' => ?_, h.2⟩, fun h => ⟨rfl, h.2⟩⟩
      rw [hasst] at h'
      exact absurd h' Bool.false_ne_true

/-- **Tool results are paired with their calls**: the other messages keep their order; the results of the output
are those of its assistant messages, in order; they stand directly after their message, one for each call, and no
further result follows; and a second pass changes nothing exactly when the messages are unambiguous. -/
theorem toolResults_paired (messages : List Json) :
    (orderToolResults messages).filter (fun message => !isToolResult message) =
        messages.filter (fun message => !isToolResult message) ∧
      (orderToolResults messages).filter isToolResult = messages.tails.flatMap resultsAt ∧
      (∀ before assistant later, messages = before ++ assistant :: later → isAssistant assistant = true →
        orderToolResults messages = orderToolResults before ++
            assistant :: (toolCalls assistant).map (resultFor assistant later) ++ orderToolResults later ∧
          ∀ message ∈ reach (orderToolResults later), isToolResult message = false) ∧
      (orderToolResults (orderToolResults messages) = orderToolResults messages ↔ Unambiguous messages) := by
  refine ⟨others_orderToolResults messages, results_orderToolResults messages, ?_,
    orderToolResults_idempotent_iff messages⟩
  rintro before assistant later rfl hassistant
  refine ⟨?_, reach_orderToolResults later⟩
  rw [orderToolResults_append before hassistant, orderToolResults_assistant hassistant, List.append_assoc]

def sampleCall (id name : String) : Json :=
  .object (field "type" (.string "toolCall") ++ field "id" (.string (ofString id)) ++
    field "name" (.string (ofString name)))

/-- An assistant message with two calls of one identity and different names. -/
def sampleAssistant : Json := .object (field "role" (.string "assistant") ++
    field "content" (.array [sampleCall "a" "read", sampleCall "a" "write"]))

/-- The second pass answers the second call with the placeholder of the first one. -/
theorem placeholder_renamed :
    ¬ ∀ messages : List Json, orderToolResults (orderToolResults messages) = orderToolResults messages := by
  intro h
  have hsample := h [sampleAssistant]
  revert hsample
  decide +kernel

end CodingHarness.Durable.Context
