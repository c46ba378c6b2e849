import CodingHarness.Durable.JsonlSidecar

/-!
# The entry record of both backends

An entry keeps its whole payload under `data` and lists its model messages a second time under
`model`. The readers also accept an older layout, where the payload is flattened into a `data` and a
`model` member, and tell the two apart by the shape of what they read: a record with messages whose
data has no member `model` is taken for the older layout and its payload is nested once more.

Each reader returns the written record exactly for `EntryRecord.Kept` records
(`entry_codec_iff`).
-/

namespace CodingHarness.Durable

open Library Support Chord

/-! ## Writing -/

def editMembers (convert : Json → Json) (edit : ContextEdit) : JsonObject Json :=
  field "target" (number edit.target) ++
  field "action" (.string edit.action) ++
  field "messages" (.array (edit.messages.map convert))

/-- The members of a written entry; `convert` is the conversion of its JSON values. -/
def entryMembers (convert : Json → Json) (entry : EntryRecord) : JsonObject Json := field "id" (number entry.id) ++
  field "conversationId" (number entry.conversationId) ++
  field "kind" (.string entry.kind) ++
  field "data" (convert entry.data) ++
  optionalField "head" number entry.head ++
  (if entry.model.isEmpty then [] else field "model" (.array (entry.model.map convert))) ++
  optionalField "byTaskId" number entry.byTaskId ++
  (if entry.edits.isEmpty then []
    else field "edits" (.array (entry.edits.map fun edit => .object (editMembers convert edit))))

/-- `entry_value` of `JsonlStorage.cpp`. -/
def entryValue (entry : EntryRecord) : Json := .object (entryMembers toSupport entry)

/-- The columns of a row of the SQLite table `entries` that `recover` reads. -/
structure EntryRow where
  id : Int
  conversationId : Int
  record : Bytes
  commitSeq : Seq
  deriving DecidableEq

/-- `as_string` of `SqliteStorage.cpp`. -/
def asText (value : Json) : Bytes := writeJson (toSupport value)

/-- The row an `entry` write of `SqliteStorage::Impl::commit` inserts. -/
def entryRow (seq : Seq) (entry : EntryRecord) : EntryRow where
  id := entry.id
  conversationId := entry.conversationId
  record := asText (.object (entryMembers id entry))
  commitSeq := seq

/-! ## Reading -/

/-- The payload of a read entry, from its data and its messages. -/
def entryPayload (data : Option Json) (model : Option Json) : Json := match data, model with
  | some data, none => data
  | data, model =>
    if (data.bind Json.asObject).any (JsonObject.contains · "model") then
      data.getD .null
    else .object (optionalField "data" id data ++ optionalField "model" id model)

/-- One context edit of `parse_entry`. -/
def parseEdit (description : Bytes) (raw : Json) : Expected ContextEdit := do
  let problem := ofString "Invalid context edit in " ++ description
  let object ← present raw.asObject problem
  let target ← present (jsonIntegerMember object "target") problem
  let action ← present (jsonStringMember object "action") problem
  let messages ← present (jsonArrayMember object "messages") problem
  let messages ← messages.mapM fun message => present (fromSupport message).toOption problem
  return { target, action, messages }

/-- The head of `parse_entry`; a null head is no head. -/
def parseHead (description : Bytes) : Option Json → Expected (Option EntryId)
  | none | some .null => .ok none
  | some raw => do
      let head ← present (nonnegativeInteger raw)
        (ofString "Invalid entry write in " ++ description)
      return some head

/-- `parse_entry` of `JsonlStorage.cpp`. -/
def parseEntry (value : Json) (description : Bytes) : Expected EntryRecord := do
  let problem := ofString "Invalid entry write in " ++ description
  let entry ← present value.asObject problem
  let id ← present (jsonIntegerMember entry "id") problem
  let conversationId ← present (jsonIntegerMember entry "conversationId") problem
  let kind ← present (jsonStringMember entry "kind") problem
  let data ← (jsonMember entry "data").mapM fromSupport
  let head ← parseHead description (jsonMember entry "head")
  let model ← ((jsonArrayMember entry "model").getD []).mapM fun message =>
    present (fromSupport message).toOption problem
  let edits ← ((jsonArrayMember entry "edits").getD []).mapM (parseEdit description)
  return {
    id, conversationId, kind, head, model, edits
    data := entryPayload data (if model.isEmpty then none else some (.array model))
    byTaskId := jsonIntegerMember entry "byTaskId" }

def safeSqliteInteger (value : Double) : Option Int := if value.isFinite && value.isIntegral && !value.isNegative &&
      !value.exceeds int64Bound && !Double.eq value (Double.ofInt int64Bound) then
    some value.toInt
  else none

/-- `json_int` of `SqliteStorage::Impl::recover`. -/
def jsonInt (object : JsonObject Json) (name : String) : Option Int :=
  (jsonNumberMember object name).bind safeSqliteInteger

/-- `parse_json` of `SqliteStorage.cpp`. -/
def parseJson (text : Bytes) : Expected Json := do
  let value ← readJson text
  fromSupport value

def decodeEdit (raw : Json) : Expected ContextEdit := do
  let edit ← present raw.asObject "Invalid persisted entry edit"
  let target ← present (jsonInt edit "target") "Invalid persisted entry edit"
  let action ← present (jsonStringMember edit "action") "Invalid persisted entry edit"
  let messages ← present (jsonArrayMember edit "messages") "Invalid persisted entry edit"
  return { target, action, messages }

def decodeModel : Option Json → Expected (List Json)
  | none => .ok []
  | some raw => do
      let messages ← present raw.asArray "Invalid persisted entry"
      messages.mapM fun message =>
        present (fromSupport (toSupport message)).toOption "Invalid persisted entry JSON"

def decodeEdits : Option Json → Expected (List ContextEdit)
  | none => .ok []
  | some raw => do
      let values ← present raw.asArray "Invalid persisted entry edits"
      values.mapM decodeEdit

/-- The entry of a recovered row, in `SqliteStorage::Impl::recover`. -/
def decodeEntryRow (row : EntryRow) : Expected EntryRecord := do
  let parsed ← present (parseJson row.record).toOption "Invalid persisted entry JSON"
  let object ← present parsed.asObject "Invalid persisted entry"
  let id ← present (jsonInt object "id") "Invalid persisted entry"
  let conversationId ← present (jsonInt object "conversationId") "Invalid persisted entry"
  let kind ← present (jsonStringMember object "kind") "Invalid persisted entry"
  refuse (id != row.id || conversationId != row.conversationId || row.commitSeq < 1)
    "Invalid persisted entry"
  let model ← decodeModel (jsonMember object "model")
  let edits ← decodeEdits (jsonMember object "edits")
  return {
    id, conversationId, kind, model, edits
    data := entryPayload (jsonMember object "data") (jsonMember object "model")
    head := jsonInt object "head"
    byTaskId := jsonInt object "byTaskId" }

/-! ## What survives -/

/-- An entry that a record can hold. -/
structure EntryRecord.Representable (entry : EntryRecord) : Prop where
  id : Exact entry.id
  conversationId : Exact entry.conversationId
  data : entry.data.Storable
  head : ∀ id, entry.head = some id → Exact id
  model : ∀ message ∈ entry.model, message.Storable
  byTaskId : ∀ id, entry.byTaskId = some id → Exact id
  target : ∀ edit ∈ entry.edits, Exact edit.target
  messages : ∀ edit ∈ entry.edits, ∀ message ∈ edit.messages, message.Storable

/-- Every identity of an entry is nonnegative. -/
structure EntryRecord.Nonnegative (entry : EntryRecord) : Prop where
  id : 0 ≤ entry.id
  conversationId : 0 ≤ entry.conversationId
  head : ∀ id, entry.head = some id → 0 ≤ id
  byTaskId : ∀ id, entry.byTaskId = some id → 0 ≤ id
  target : ∀ edit ∈ entry.edits, 0 ≤ edit.target

/-- Whether a JSON value is an object with a member `model`. -/
def hasModel (data : Json) : Bool := data.asObject.any (JsonObject.contains · "model")

/-- The entries that survive: nonnegative identities, and no messages unless the data itself has a
member `model`. -/
def EntryRecord.Kept (entry : EntryRecord) : Prop :=
  entry.Nonnegative ∧ (entry.model = [] ∨ hasModel entry.data = true)

/-- The payload is read as it was written exactly when the data is not taken for the older
layout. -/
theorem entryPayload_eq_data_iff (data : Json) (model : List Json) :
    entryPayload (some data) (if model.isEmpty then none else some (.array model)) = data ↔
      model = [] ∨ hasModel data = true := by
  cases model with
  | nil => simp [entryPayload]
  | cons message rest =>
    cases hmodel : hasModel data with
    | true =>
      have : (data.asObject.any (JsonObject.contains · "model")) = true := hmodel
      simp [entryPayload, this]
    | false =>
      have hnone : (data.asObject.any (JsonObject.contains · "model")) = false := hmodel
      simp only [List.isEmpty_cons, Bool.false_eq_true, if_false, entryPayload,
        Option.bind_some, hnone, reduceCtorEq, or_self, iff_false]
      intro heq
      -- The nested payload has a member `model`, the data has not.
      rw [← heq] at hmodel
      revert hmodel
      simp [hasModel, Json.asObject, JsonObject.contains, optionalField]

theorem mapM_map_eq_ok_iff {α β : Type} {encode : α → β} {decode : β → Expected α} {l r : List α}
    {P : α → Prop} (hok : ∀ a ∈ l, P a → decode (encode a) = .ok a)
    (hbad : ∀ a ∈ l, ¬ P a → ∀ b, decode (encode a) ≠ .ok b) :
    (l.map encode).mapM decode = .ok r ↔ (∀ a ∈ l, P a) ∧ l = r := by
  constructor
  · intro h
    have hall : ∀ a ∈ l, P a := by
      clear hok
      induction l generalizing r with
      | nil => simp
      | cons a rest ih =>
        simp only [List.map_cons, List.mapM_cons, bind_eq_ok, pure_eq_ok] at h
        obtain ⟨b, hb, later, hlater, -⟩ := h
        intro x hx
        rcases List.mem_cons.1 hx with rfl | hx
        · by_contra hnot
          exact hbad x List.mem_cons_self hnot b hb
        · exact ih (fun a ha => hbad a (List.mem_cons_of_mem _ ha)) hlater x hx
    rw [mapM_map_ok fun a ha => hok a ha (hall a ha)] at h
    exact ⟨hall, Except.ok.inj h⟩
  · rintro ⟨hall, rfl⟩
    exact mapM_map_ok fun a ha => hok a ha (hall a ha)

/-- An integer that is kept only when it is nonnegative. -/
def nonnegative (n : Int) : Option Int := if 0 ≤ n then some n else none

variable {object : JsonObject Json}

theorem jsonIntegerMember_of_optional {name : String}
    {value : Option Int} (hmem : jsonMember object name = value.map number) (h : ∀ n, value = some n → Exact n) :
    jsonIntegerMember object name = value.bind nonnegative := by
  cases value with
  | none => simp [jsonIntegerMember, jsonNumberMember, hmem]
  | some n => exact jsonIntegerMember_of_number hmem (h n rfl)

theorem safeSqliteInteger_ofInt {n : Int} (h : Exact n) : safeSqliteInteger (Double.ofInt n) = nonnegative n := by
  have hexceeds : (Double.ofInt n).exceeds int64Bound = false := Double.exceeds_ofInt h (by decide)
  have hne : Double.eq (Double.ofInt n) (Double.ofInt int64Bound) = false := by
    cases heq : Double.eq (Double.ofInt n) (Double.ofInt int64Bound) with
    | false => rfl
    | true =>
      have htoInt := Double.toInt_eq_of_eq heq
      rw [toInt_number h] at htoInt
      have hbound : (Double.ofInt int64Bound).toInt = 2 ^ 63 := by decide +kernel
      rw [hbound] at htoInt
      subst htoInt
      exact absurd h (by decide)
  rw [safeSqliteInteger, Double.isFinite_ofInt h, Double.isIntegral_ofInt h, hexceeds, hne,
    Double.isNegative_ofInt h, toInt_number h]
  by_cases hn : 0 ≤ n
  · simp [nonnegative, hn]
  · simp [nonnegative, hn, not_le.1 hn]

theorem jsonInt_of_optional {name : String} {value : Option Int}
    (hmem : jsonMember object name = value.map number) (h : ∀ n, value = some n → Exact n) :
    jsonInt object name = value.bind nonnegative := by
  cases value with
  | none => simp [jsonInt, jsonNumberMember, hmem]
  | some n => simp [jsonInt, jsonNumberMember, hmem, safeSqliteInteger_ofInt (h n rfl)]

@[simp] theorem nonnegative_eq_some_iff {n m : Int} : nonnegative n = some m ↔ 0 ≤ n ∧ n = m := by
  unfold nonnegative
  split <;> simp_all

theorem bind_nonnegative_eq_self_iff {value : Option Int} :
    value.bind nonnegative = value ↔ ∀ n, value = some n → 0 ≤ n := by
  cases value with
  | none => simp
  | some n => simp

theorem parseHead_number_eq_ok_iff {head result : Option EntryId} (description : Bytes)
    (h : ∀ id, head = some id → Exact id) :
    parseHead description (head.map number) = .ok result ↔ (∀ id, head = some id → 0 ≤ id) ∧ head = result := by
  cases head with
  | none => simp [parseHead]
  | some id =>
    have hid := nonnegativeInteger_number (h id rfl)
    by_cases hnonneg : 0 ≤ id
    · simp [parseHead, number] at hid ⊢
      simp [hid, hnonneg]
    · simp [parseHead, number] at hid ⊢
      simp [hid, hnonneg]

section Members

variable (convert : Json → Json) (entry : EntryRecord)

@[simp] theorem entryMembers_id : jsonMember (entryMembers convert entry) "id" = some (number entry.id) := by
  simp [entryMembers]

@[simp] theorem entryMembers_conversationId : jsonMember (entryMembers convert entry) "conversationId"
      = some (number entry.conversationId) := by
  simp [entryMembers]

@[simp] theorem entryMembers_kind : jsonStringMember (entryMembers convert entry) "kind" = some entry.kind := by
  simp [entryMembers, jsonStringMember, Json.asString]

@[simp] theorem entryMembers_data : jsonMember (entryMembers convert entry) "data" = some (convert entry.data) := by
  simp [entryMembers]

@[simp] theorem entryMembers_head : jsonMember (entryMembers convert entry) "head" = entry.head.map number := by
  simp [entryMembers]

@[simp] theorem entryMembers_byTaskId :
    jsonMember (entryMembers convert entry) "byTaskId" = entry.byTaskId.map number := by
  simp [entryMembers]

@[simp] theorem entryMembers_model : jsonMember (entryMembers convert entry) "model"
      = if entry.model.isEmpty then none else some (.array (entry.model.map convert)) := by
  simp [entryMembers]

@[simp] theorem entryMembers_edits : jsonMember (entryMembers convert entry) "edits"
      = if entry.edits.isEmpty then none
        else some (.array (entry.edits.map fun edit => .object (editMembers convert edit))) := by
  simp [entryMembers]

theorem arrayMember_getD {name : String} {items : List Json}
    {empty : Bool} (hempty : empty = true → items = [])
    (h : jsonMember object name = if empty then none else some (.array items)) :
    (jsonArrayMember object name).getD [] = items := by
  cases empty with
  | true => simp [jsonArrayMember, h, hempty]
  | false => simp [jsonArrayMember, h, Json.asArray]

end Members

variable {edit : ContextEdit}

theorem parseEdit_editMembers (description : Bytes) (htgt : Exact edit.target)
    (hmsgs : ∀ message ∈ edit.messages, message.Storable) {result : ContextEdit} :
    parseEdit description (.object (editMembers toSupport edit)) = .ok result ↔ 0 ≤ edit.target ∧ edit = result := by
  obtain ⟨target, action, messages⟩ := edit
  have htargetMember : jsonIntegerMember (editMembers toSupport ⟨target, action, messages⟩) "target"
      = nonnegative target :=
    jsonIntegerMember_of_number (by simp [editMembers]) htgt
  have hdec : (messages.map toSupport).mapM (fun message =>
      present (fromSupport message).toOption (ofString "Invalid context edit in " ++ description))
        = .ok messages := by
    refine mapM_map_ok fun message hmem => ?_
    rw [toSupport_eq (hmsgs message hmem).2, fromSupport_eq (hmsgs message hmem)]
    rfl
  have hact : jsonStringMember (editMembers toSupport ⟨target, action, messages⟩) "action"
      = some action := by simp [editMembers, jsonStringMember, Json.asString]
  have hmember : jsonArrayMember (editMembers toSupport ⟨target, action, messages⟩) "messages"
      = some (messages.map toSupport) := by simp [editMembers, jsonArrayMember, Json.asArray]
  simp [parseEdit, Json.asObject, htargetMember, hact, hmember, hdec]

variable {entry result : EntryRecord}

/-- The JSONL reader returns a written entry with its payload as it guesses it. -/
theorem parseEntry_entryValue_eq_ok (h : entry.Representable) (description : Bytes) :
    parseEntry (entryValue entry) description = .ok result ↔
      0 ≤ entry.id ∧ 0 ≤ entry.conversationId ∧ (∀ id, entry.head = some id → 0 ≤ id) ∧
      (∀ edit ∈ entry.edits, 0 ≤ edit.target) ∧ { entry with
        data := entryPayload (some entry.data) (if entry.model.isEmpty then none else some (.array entry.model))
        byTaskId := entry.byTaskId.bind nonnegative } = result := by
  have hid : jsonIntegerMember (entryMembers toSupport entry) "id" = nonnegative entry.id :=
    jsonIntegerMember_of_number (by simp) h.id
  have hconv : jsonIntegerMember (entryMembers toSupport entry) "conversationId" = nonnegative entry.conversationId :=
    jsonIntegerMember_of_number (by simp) h.conversationId
  have hdata : (some (toSupport entry.data)).mapM fromSupport = .ok (some entry.data) := by
    simp [toSupport_eq h.data.2, fromSupport_eq h.data]
  have hmodel : ((jsonArrayMember (entryMembers toSupport entry) "model").getD []).mapM
      (fun message => present (fromSupport message).toOption
        (ofString "Invalid entry write in " ++ description)) = .ok entry.model := by
    rw [arrayMember_getD (by simp +contextual) (entryMembers_model toSupport entry)]
    refine mapM_map_ok fun message hmem => ?_
    rw [toSupport_eq (h.model message hmem).2, fromSupport_eq (h.model message hmem)]
    rfl
  have hedits : ∀ edits, ((jsonArrayMember (entryMembers toSupport entry) "edits").getD []).mapM
      (parseEdit description) = .ok edits ↔ (∀ edit ∈ entry.edits, 0 ≤ edit.target) ∧ entry.edits = edits := by
    intro edits
    rw [arrayMember_getD (by simp +contextual) (entryMembers_edits toSupport entry)]
    refine mapM_map_eq_ok_iff (fun edit hmem hnonneg => ?_) fun edit hmem hnonneg result hres => ?_
    · exact (parseEdit_editMembers description (h.target edit hmem) (h.messages edit hmem)).2 ⟨hnonneg, rfl⟩
    · exact hnonneg ((parseEdit_editMembers description (h.target edit hmem) (h.messages edit hmem)).1 hres).1
  have hby : jsonIntegerMember (entryMembers toSupport entry) "byTaskId" = entry.byTaskId.bind nonnegative :=
    jsonIntegerMember_of_optional (entryMembers_byTaskId toSupport entry) h.byTaskId
  simp only [parseEntry, entryValue, Json.asObject, bind_eq_ok, present_eq_ok, Option.some.injEq,
    exists_eq_left', hid, hconv, nonnegative_eq_some_iff, entryMembers_kind,
    entryMembers_data, hdata, entryMembers_head, parseHead_number_eq_ok_iff description h.head,
    hmodel, hedits, hby, Except.ok.injEq, pure_eq_ok]
  constructor
  · rintro ⟨_, ⟨hid, rfl⟩, _, ⟨hconv, rfl⟩, _, ⟨hhead, rfl⟩, _, ⟨hedits, rfl⟩, rfl⟩
    exact ⟨hid, hconv, hhead, hedits, rfl⟩
  · rintro ⟨hid, hconv, hhead, hedits, rfl⟩
    exact ⟨_, ⟨hid, rfl⟩, _, ⟨hconv, rfl⟩, _, ⟨hhead, rfl⟩, _, ⟨hedits, rfl⟩, rfl⟩

/-! ## The SQLite row -/

variable {convert : Json → Json}

theorem storable_arrayOf {items : List Json}
    (h : ∀ item ∈ items, (convert item).Storable) : (Json.array (items.map convert)).Storable := by
  refine Json.storable_array fun value hvalue => ?_
  obtain ⟨item, hmem, rfl⟩ := List.mem_map.1 hvalue
  exact h item hmem

theorem storable_editMembers
    (htgt : Exact edit.target) (hmsgs : ∀ message ∈ edit.messages, (convert message).Storable) :
    (Json.object (editMembers convert edit)).Storable := by
  unfold editMembers
  exact storable_of_fields _ (by decide)
    (by simp [storable_number htgt, storable_arrayOf hmsgs])

theorem storable_entryMembers {entry : EntryRecord}
    (h : entry.Representable) (hconvert : ∀ value : Json, value.Storable → (convert value).Storable) :
    (Json.object (entryMembers convert entry)).Storable := by
  have hhead : ∀ id, entry.head = some id → (number id).Storable := fun id hid => storable_number (h.head id hid)
  have hby : ∀ id, entry.byTaskId = some id → (number id).Storable :=
    fun id hid => storable_number (h.byTaskId id hid)
  have hmodel : (Json.array (entry.model.map convert)).Storable :=
    storable_arrayOf fun message hmem => hconvert message (h.model message hmem)
  have hedits : (Json.array (entry.edits.map fun edit =>
      Json.object (editMembers convert edit))).Storable := by
    refine Json.storable_array fun value hvalue => ?_
    obtain ⟨edit, hmem, rfl⟩ := List.mem_map.1 hvalue
    exact storable_editMembers (h.target edit hmem)
      fun message hmsg => hconvert message (h.messages edit hmem message hmsg)
  unfold entryMembers
  refine storable_of_fields _ (by decide) ?_
  simp [storable_number h.id, storable_number h.conversationId, hconvert _ h.data, hmodel, hedits]
  exact ⟨hhead, hby⟩

theorem parseJson_asText {value : Json} (h : value.Storable) : parseJson (asText value) = .ok value := by
  rw [parseJson, asText, toSupport_eq h.2, readJson_writeJson h.1 h.2]
  exact fromSupport_eq h

theorem decodeEdit_editMembers (htgt : Exact edit.target) {result : ContextEdit} :
    decodeEdit (.object (editMembers id edit)) = .ok result ↔ 0 ≤ edit.target ∧ edit = result := by
  obtain ⟨target, action, messages⟩ := edit
  have htargetMember : jsonInt (editMembers id ⟨target, action, messages⟩) "target" = nonnegative target :=
    @jsonInt_of_optional _ _ (some target) (by simp [editMembers])
      (by rintro n ⟨⟩; exact htgt)
  have hact : jsonStringMember (editMembers id ⟨target, action, messages⟩) "action"
      = some action := by simp [editMembers, jsonStringMember, Json.asString]
  have hmem : jsonArrayMember (editMembers id ⟨target, action, messages⟩) "messages"
      = some messages := by simp [editMembers, jsonArrayMember, Json.asArray]
  simp [decodeEdit, Json.asObject, htargetMember, hact, hmem]

/-- The SQLite reader returns an inserted entry with its payload as it guesses it. -/
theorem decodeEntryRow_entryRow_eq_ok (h : entry.Representable) {seq : Seq} (hseq : 1 ≤ seq) :
    decodeEntryRow (entryRow seq entry) = .ok result ↔
      0 ≤ entry.id ∧ 0 ≤ entry.conversationId ∧ (∀ edit ∈ entry.edits, 0 ≤ edit.target) ∧ { entry with
        data := entryPayload (some entry.data) (if entry.model.isEmpty then none else some (.array entry.model))
        head := entry.head.bind nonnegative
        byTaskId := entry.byTaskId.bind nonnegative } = result := by
  have hparsed : parseJson (asText (.object (entryMembers id entry))) = .ok (.object (entryMembers id entry)) :=
    parseJson_asText (storable_entryMembers h fun _ hvalue => hvalue)
  have hint : ∀ {name : String} {n : Int}, jsonMember (entryMembers id entry) name = some (number n) →
      Exact n → jsonInt (entryMembers id entry) name = nonnegative n := by
    intro name n hmember hexact
    exact @jsonInt_of_optional _ _ (some n) hmember (by rintro m ⟨⟩; exact hexact)
  have hid := hint (entryMembers_id id entry) h.id
  have hconv := hint (entryMembers_conversationId id entry) h.conversationId
  have hhead : jsonInt (entryMembers id entry) "head" = entry.head.bind nonnegative :=
    jsonInt_of_optional (entryMembers_head id entry) h.head
  have hby : jsonInt (entryMembers id entry) "byTaskId" = entry.byTaskId.bind nonnegative :=
    jsonInt_of_optional (entryMembers_byTaskId id entry) h.byTaskId
  have hmodel : decodeModel (if entry.model.isEmpty then none
      else some (.array entry.model)) = .ok entry.model := by
    cases hempty : entry.model.isEmpty with
    | true => simp [decodeModel, List.isEmpty_iff.1 hempty]
    | false =>
      have hdec : (entry.model.map id).mapM (fun message =>
          present (fromSupport (toSupport message)).toOption "Invalid persisted entry JSON") = .ok entry.model := by
        refine mapM_map_ok fun message hmem => ?_
        rw [id, toSupport_eq (h.model message hmem).2, fromSupport_eq (h.model message hmem)]
        rfl
      simpa [decodeModel, Json.asArray] using hdec
  have hedits : ∀ edits, decodeEdits (if entry.edits.isEmpty then none
      else some (.array (entry.edits.map fun edit => .object (editMembers id edit)))) = .ok edits ↔
        (∀ edit ∈ entry.edits, 0 ≤ edit.target) ∧ entry.edits = edits := by
    intro edits
    cases hempty : entry.edits.isEmpty with
    | true => simp [decodeEdits, List.isEmpty_iff.1 hempty]
    | false =>
      simp only [decodeEdits, Json.asArray, bind_eq_ok, present_eq_ok, Option.some.injEq,
        exists_eq_left', Bool.false_eq_true, if_false]
      refine mapM_map_eq_ok_iff (fun edit hmem hnonneg => ?_) fun edit hmem hnonneg result hres => ?_
      · exact (decodeEdit_editMembers (h.target edit hmem)).2 ⟨hnonneg, rfl⟩
      · exact hnonneg ((decodeEdit_editMembers (h.target edit hmem)).1 hres).1
  simp only [decodeEntryRow, entryRow, hparsed, toOption_ok, bind_eq_ok, present_eq_ok,
    Option.some.injEq, exists_eq_left', Json.asObject, hid, hconv, nonnegative_eq_some_iff,
    entryMembers_kind, entryMembers_model, entryMembers_edits, entryMembers_data, hmodel, hedits,
    hhead, hby, Except.ok.injEq, pure_eq_ok, refuse_eq_ok, List.map_id, id]
  constructor
  · rintro ⟨_, ⟨hid, rfl⟩, _, ⟨hconv, rfl⟩, _, -, _, ⟨hedits, rfl⟩, rfl⟩
    exact ⟨hid, hconv, hedits, rfl⟩
  · rintro ⟨hid, hconv, hedits, rfl⟩
    exact ⟨_, ⟨hid, rfl⟩, _, ⟨hconv, rfl⟩, (), by simp [not_lt.2 hseq], _, ⟨hedits, rfl⟩, rfl⟩

/-- **Both readers return a written entry exactly when it is kept.** -/
theorem entry_codec_iff (entry : EntryRecord) (h : entry.Representable) (description : Bytes)
    (seq : Seq) (hseq : 1 ≤ seq) : (parseEntry (entryValue entry) description = .ok entry ↔ entry.Kept) ∧
      (decodeEntryRow (entryRow seq entry) = .ok entry ↔ entry.Kept) := by
  rw [parseEntry_entryValue_eq_ok h, decodeEntryRow_entryRow_eq_ok h hseq]
  have hpayload := entryPayload_eq_data_iff entry.data entry.model
  constructor
  · constructor
    · rintro ⟨hid, hconversation, hhead, hedits, heq⟩
      have hby := congrArg EntryRecord.byTaskId heq
      exact ⟨⟨hid, hconversation, hhead, bind_nonnegative_eq_self_iff.1 hby, hedits⟩,
        hpayload.1 (congrArg EntryRecord.data heq)⟩
    · rintro ⟨hnonneg, hlayout⟩
      refine ⟨hnonneg.id, hnonneg.conversationId, hnonneg.head, hnonneg.target, ?_⟩
      rw [hpayload.2 hlayout, bind_nonnegative_eq_self_iff.2 hnonneg.byTaskId]
  constructor
  · rintro ⟨hid, hconversation, hedits, heq⟩
    have hhead := congrArg EntryRecord.head heq
    have hby := congrArg EntryRecord.byTaskId heq
    exact ⟨⟨hid, hconversation, bind_nonnegative_eq_self_iff.1 hhead,
      bind_nonnegative_eq_self_iff.1 hby, hedits⟩, hpayload.1 (congrArg EntryRecord.data heq)⟩
  rintro ⟨hnonneg, hlayout⟩
  refine ⟨hnonneg.id, hnonneg.conversationId, hnonneg.target, ?_⟩
  rw [hpayload.2 hlayout, bind_nonnegative_eq_self_iff.2 hnonneg.byTaskId,
    bind_nonnegative_eq_self_iff.2 hnonneg.head]

/-- An entry with a message and a payload that does not repeat it. -/
def greeting : EntryRecord :=
  { id := 2, conversationId := 1, kind := "user", data := .string "hi"
    model := [.string "hi"] }

theorem greeting_representable : greeting.Representable where
  id := by decide
  conversationId := by decide
  data := Json.storable_string _
  head := by simp [greeting]
  model := by simp [greeting]
  byTaskId := by simp [greeting]
  target := by simp [greeting]
  messages := by simp [greeting]

/-- Both readers nest the payload of such an entry once more. -/
theorem greeting_payload_nested : greeting.Representable ∧
      parseEntry (entryValue greeting) "main.jsonl line 1" ≠ .ok greeting ∧
      decodeEntryRow (entryRow 1 greeting) ≠ .ok greeting ∧
      (parseEntry (entryValue greeting) "main.jsonl line 1").toOption.map (·.data)
        = some (.object (field "data" (.string "hi") ++ field "model" (.array [.string "hi"]))) := by
  exact ⟨greeting_representable, by decide +kernel, by decide +kernel, by decide +kernel⟩

/-- Without messages the same payload survives. -/
theorem greeting_without_messages_kept : parseEntry (entryValue { greeting with model := [] }) "main.jsonl line 1"
        = .ok { greeting with model := [] } ∧
      decodeEntryRow (entryRow 1 { greeting with model := [] }) = .ok { greeting with model := [] } := by
  have hrep : EntryRecord.Representable { greeting with model := [] } :=
    { greeting_representable with model := by simp }
  have hkept : EntryRecord.Kept { greeting with model := [] } :=
    ⟨⟨by decide, by decide, by simp [greeting], by simp [greeting], by simp [greeting]⟩, Or.inl rfl⟩
  have hcodec := entry_codec_iff { greeting with model := [] } hrep "main.jsonl line 1" 1 (by decide)
  exact ⟨hcodec.1.2 hkept, hcodec.2.2 hkept⟩

end CodingHarness.Durable
