import CodingHarness.Durable.AddressKeys
import CodingHarness.Durable.StagedWrites
import CodingHarness.Support.JsonNumbers

/-!
# The task graph

`hydrate_task_graph` builds the view of the live tasks from the committed tables: one node for each,
under the decimal text of its identity, with the conversations that it owns. `advance_task_graph`
patches a mounted view with one publication instead: first its task changes, which copy the owned
conversations from the old node, then its conversations, each of which adds an edge to its owner's
node. This module defines both and what one change does to the mounted nodes (`shows_patchTask`,
`shows_patchConversation`); `TaskGraphRuns` compares the two over whole runs.
-/

namespace CodingHarness.Durable

open Library Support Chord
open Function (update_apply update_of_ne)

namespace TaskGraph

/-! ## Nodes -/

def terminalStatus (status : Bytes) : Bool := status == "terminal"

def taskKey (id : TaskId) : Bytes := intText id

def idArray (ids : List Int) : Json := .array (ids.map number)

/-- The phase that a checkpoint names, empty without one. -/
def phase (state : TaskState) : Bytes := (((state.checkpoint.bind Json.asObject).bind fun checkpoint =>
    jsonMember checkpoint "phase").bind Json.asString).getD []

def stateMembers (state : TaskState) : JsonObject Json :=
  field "status" (.string state.status) ++ field "phase" (.string (phase state)) ++
    (if state.status = "waiting" then
      field "on" (idArray state.on) ++
        optionalField "policy" (fun policy => .string (joinPolicyName policy)) state.policy
    else []) ++
    (if state.status = "completing" then
      optionalField "outcome" (fun outcome => .string outcome.status) state.outcome
    else [])

/-- The members of a node that come from the record of its task. -/
def displayed (task : TaskRecord) : JsonObject Json :=
  field "id" (number task.id) ++ field "kind" (.string task.kind) ++
    field "conversationId" (number task.conversationId) ++ optionalField "owner" number task.owner ++
    field "background" (.bool task.background) ++
    field "abortRequested" (.bool task.abortRequested) ++
    field "state" (.object (stateMembers task.state))

def nodeMembers (task : TaskRecord) (owned : List ConversationId) : JsonObject Json :=
  displayed task ++ field "conversations" (idArray owned)

def nodeJson (task : TaskRecord) (owned : List ConversationId) : Json := .object (nodeMembers task owned)

/-! ## Hydration -/

/-- A conversation that hangs below a task. -/
def ownedBy (task : TaskId) (conversation : ConversationRecord) : Bool :=
  conversation.owner.any fun owner => owner.taskId == task

/-- The conversations of a task, in the order of their identities. -/
def ownedIds (conversations : List ConversationRecord) (task : TaskId) : List ConversationId :=
  ((conversations.filter (ownedBy task)).map ConversationRecord.id).insertionSort (· ≤ ·)

def rootOf (tasks : JsonObject Json) : Json := .object (field "tasks" (.object tasks))

def hydrateTaskGraph (storage : StorageState) : Expected Json := do
  let records ← storage.scanTasks storage.tasks.size
  let live := (records.filter fun task => !terminalStatus task.state.status).insertionSort
    fun a b => a.id ≤ b.id
  let conversations ← storage.scanConversations storage.conversationIds.length
  return rootOf (JsonObject.emplaceAll
    (live.map fun task => (taskKey task.id, nodeJson task (ownedIds conversations task.id))) [])

/-! ## Publications -/

def taskChange : CommitChange → Option TaskRecord
  | .task record => some record
  | _ => none

/-- The committed conversation of a change. -/
def conversationChange : CommitChange → Option ConversationRecord
  | .conversation record => some record
  | _ => none

def listedIds (node : Json) : List ConversationId :=
  (((node.asObject.bind fun members => jsonMember members "conversations").bind
    Json.asArray).getD []).filterMap fun item => item.asNumber.map Double.toInt

def nodePath (id : TaskId) : Path := [.key "tasks", .key (taskKey id)]

def taskFieldPath (id : TaskId) (name : String) : Path := nodePath id ++ [.key (ofString name)]

/-- The mounted nodes with the operations made so far. -/
structure Patch where
  tasks : JsonObject Json
  ops : OpBatch := []

namespace Patch

/-- One committed task of `advance_task_graph`. -/
def task (patch : Patch) (record : TaskRecord) : Patch := let key := taskKey record.id
  let existing := JsonObject.find key patch.tasks
  if terminalStatus record.state.status then
    if existing.isSome then
      ⟨JsonObject.erase key patch.tasks, patch.ops ++ [.delete (nodePath record.id)]⟩
    else patch
  else
    let node := nodeJson record ((existing.map listedIds).getD [])
    if existing.any fun old => Json.beq old node then patch
    else
      ⟨JsonObject.insertOrAssign key node patch.tasks, patch.ops ++ [.set (nodePath record.id) node]⟩

/-- One committed conversation of `advance_task_graph`. -/
def conversation (patch : Patch) (record : ConversationRecord) : Patch := match record.owner with
  | none => patch
  | some owner =>
    match JsonObject.find (taskKey owner.taskId) patch.tasks with
    | none => patch
    | some node =>
      let owned := listedIds node
      let value := idArray
        (if owned.contains record.id then owned
          else (owned ++ [record.id]).insertionSort (· ≤ ·))
      let updated := JsonObject.insertOrAssign "conversations" value
        (node.asObject.getD [])
      ⟨JsonObject.insertOrAssign (taskKey owner.taskId) (.object updated) patch.tasks,
        patch.ops ++ [.set (taskFieldPath owner.taskId "conversations") value]⟩

end Patch

/-- `ViewFrame`. -/
structure Frame where
  value : Json
  ops : OpBatch

def mountedTasks (root : JsonObject Json) : JsonObject Json :=
  ((jsonMember root "tasks").bind Json.asObject).getD []

/-- The two loops of `advance_task_graph`, first over the tasks and then over the conversations of a
publication. -/
def patchAll (tasks : JsonObject Json) (records : List TaskRecord) (created : List ConversationRecord) : Patch :=
  created.foldl Patch.conversation (records.foldl Patch.task ⟨tasks, []⟩)

/-- `advance_task_graph`: the frame it delivers, if any. -/
def advanceTaskGraph (value : Json) (publication : CommitPublication) : Option Frame := do
  let root ← value.asObject
  let patch := patchAll (mountedTasks root) (publication.changes.filterMap taskChange)
    (publication.changes.filterMap conversationChange)
  if patch.ops.isEmpty then none
  else some ⟨rootOf patch.tasks, patch.ops⟩

/-! ## Equal nodes -/

/-- Two members that are both missing, or that compare equal. -/
def sameMember : Option Json → Option Json → Bool
  | none, none => true
  | some a, some b => Json.beq a b
  | _, _ => false

variable {as bs : JsonObject Json}

theorem sameMember_of_beq (hnodup : JsonObject.NodupKeys as)
    (h : Json.beq (.object as) (.object bs) = true) (key : Bytes) :
    sameMember (JsonObject.find key as) (JsonObject.find key bs) = true := by
  simp only [Json.beq, Bool.and_eq_true, decide_eq_true_eq] at h
  obtain ⟨hlen, hmembers⟩ := h
  rw [beqMembers_iff] at hmembers
  cases hfind : JsonObject.find key as with
  | some a =>
    obtain ⟨b, hb, hab⟩ := hmembers (key, a) (JsonObject.mem_of_find hfind)
    rw [hb]
    exact hab
  | none =>
    -- The second object has no further key.
    have hsubset : as.map Prod.fst ⊆ bs.map Prod.fst := by
      intro other hother
      obtain ⟨m, hm, rfl⟩ := List.mem_map.1 hother
      obtain ⟨b, hb, -⟩ := hmembers m hm
      exact List.mem_map.2 ⟨_, JsonObject.mem_of_find hb, rfl⟩
    have hkeys := keys_subset_of_length hnodup hlen hsubset
    cases hother : JsonObject.find key bs with
    | none => rfl
    | some b =>
      have hmem := hkeys (List.mem_map.2 ⟨_, JsonObject.mem_of_find hother, rfl⟩)
      exact absurd hmem ((JsonObject.find_eq_none_iff key as).1 hfind)

theorem beq_of_sameMember (has : JsonObject.NodupKeys as) (hbs : JsonObject.NodupKeys bs)
    (h : ∀ key, sameMember (JsonObject.find key as) (JsonObject.find key bs) = true) :
    Json.beq (.object as) (.object bs) = true := by
  have hkeys : ∀ key, key ∈ as.map Prod.fst ↔ key ∈ bs.map Prod.fst := by
    intro key
    have hsame := h key
    rw [← not_iff_not, ← JsonObject.find_eq_none_iff, ← JsonObject.find_eq_none_iff]
    cases hfirst : JsonObject.find key as with
    | none | some a => cases hsnd : JsonObject.find key bs <;> simp_all [sameMember]
  have hperm : (as.map Prod.fst).Perm (bs.map Prod.fst) := (List.perm_ext_iff_of_nodup has hbs).2 hkeys
  simp only [Json.beq, Bool.and_eq_true, decide_eq_true_eq, beqMembers_iff]
  refine ⟨by simpa using hperm.length_eq, fun m hm => ?_⟩
  have hsame := h m.1
  rw [JsonObject.find_of_mem has hm] at hsame
  cases hsnd : JsonObject.find m.1 bs with
  | none => simp [hsnd, sameMember] at hsame
  | some b => exact ⟨b, rfl, by simpa [hsnd, sameMember] using hsame⟩

@[simp] theorem beq_number_iff (m n : Int) : Json.beq (number m) (number n) = true ↔ number m = number n := by
  constructor
  · intro h
    exact congrArg Json.number (Double.ofInt_eq_of_eq h)
  intro h
  rw [h]
  exact Double.eq_ofInt_self n

@[simp] theorem beq_string_iff (a b : Bytes) :
    Json.beq (.string a) (.string b) = true ↔ Json.string a = .string b := by
  simp [Json.beq]

@[simp] theorem beq_bool_iff (a b : Bool) : Json.beq (.bool a) (.bool b) = true ↔ Json.bool a = .bool b := by
  simp [Json.beq]

@[simp] theorem beq_idArray_iff (as bs : List Int) :
    Json.beq (idArray as) (idArray bs) = true ↔ idArray as = idArray bs := by
  simp only [idArray, Json.beq, beqItems_iff, Json.array.injEq]
  induction as generalizing bs with
  | nil => cases bs <;> simp
  | cons a as ih => cases bs <;> simp [ih]

theorem sameMember_map_iff {α : Type} {encode : α → Json}
    (h : ∀ a b, Json.beq (encode a) (encode b) = true ↔ encode a = encode b) (x y : Option α) :
    sameMember (x.map encode) (y.map encode) = true ↔ x.map encode = y.map encode := by
  cases x <;> cases y <;> simp [sameMember, h]

theorem optionalField_congr {α : Type} {name : String} {encode : α → Json} {x y : Option α}
    (h : x.map encode = y.map encode) : optionalField name encode x = optionalField name encode y := by
  cases x <;> cases y <;> simp_all [optionalField]

theorem nodup_stateMembers (state : TaskState) : JsonObject.NodupKeys (stateMembers state) := by
  unfold stateMembers
  exact nodupKeys_of_fields _ (by decide)

theorem nodup_nodeMembers (task : TaskRecord) (owned : List ConversationId) :
    JsonObject.NodupKeys (nodeMembers task owned) := by
  unfold nodeMembers displayed
  exact nodupKeys_of_fields _ (by decide)

theorem stateMembers_eq_of_beq {a b : TaskState}
    (h : Json.beq (.object (stateMembers a)) (.object (stateMembers b)) = true) :
    stateMembers a = stateMembers b := by
  have hmem : ∀ name : String, sameMember (jsonMember (stateMembers a) name)
      (jsonMember (stateMembers b) name) = true :=
    fun name => sameMember_of_beq (nodup_stateMembers a) h _
  have hstat : a.status = b.status := by
    simpa [stateMembers, sameMember] using hmem "status"
  have hphase : phase a = phase b := by
    simpa [stateMembers, sameMember] using hmem "phase"
  have hwaiting : a.status = "waiting" → idArray a.on = idArray b.on ∧
      optionalField "policy" (fun policy => .string (joinPolicyName policy)) a.policy
        = optionalField "policy" (fun policy => .string (joinPolicyName policy)) b.policy := by
    intro hwaiting
    rw [hwaiting] at hstat
    have hon : sameMember (some (idArray a.on)) (some (idArray b.on)) = true := by
      simpa [stateMembers, hwaiting, ← hstat] using hmem "on"
    refine ⟨(beq_idArray_iff _ _).1 hon, optionalField_congr ?_⟩
    refine (sameMember_map_iff (fun _ _ => beq_string_iff _ _) _ _).1 ?_
    simpa [stateMembers, hwaiting, ← hstat] using hmem "policy"
  have hcompleting : a.status = "completing" →
      optionalField "outcome" (fun outcome => .string outcome.status) a.outcome
        = optionalField "outcome" (fun outcome : TaskOutcome => .string outcome.status) b.outcome := by
    intro hcompleting
    rw [hcompleting] at hstat
    refine optionalField_congr ((sameMember_map_iff (fun _ _ => beq_string_iff _ _) _ _).1 ?_)
    simpa [stateMembers, hcompleting, ← hstat] using hmem "outcome"
  unfold stateMembers
  rw [← hstat, ← hphase]
  congr 1
  · congr 1
    split
    · rename_i h
      obtain ⟨hon, hpolicy⟩ := hwaiting h
      rw [hon, hpolicy]
    · rfl
  split
  · rename_i h
    exact hcompleting h
  · rfl

variable {members : JsonObject Json}

theorem beq_object_self (hnodup : JsonObject.NodupKeys members) (h : ∀ m ∈ members, Json.beq m.2 m.2 = true) :
    Json.beq (.object members) (.object members) = true := by
  refine beq_of_sameMember hnodup hnodup fun key => ?_
  cases hfind : JsonObject.find key members with
  | none => rfl
  | some value => exact h (key, value) (JsonObject.mem_of_find hfind)

theorem beq_stateMembers_self (state : TaskState) :
    Json.beq (.object (stateMembers state)) (.object (stateMembers state)) = true := by
  refine beq_object_self (nodup_stateMembers state) ?_
  simp only [stateMembers, List.forall_mem_append, forall_mem_field, beq_string_iff, true_and]
  refine ⟨?_, ?_⟩
  · split
    · rw [List.forall_mem_append, forall_mem_field, forall_mem_optionalField]
      simp
    · simp
  split
  · rw [forall_mem_optionalField]
    simp
  · simp

theorem beq_nodeJson_self (task : TaskRecord) (owned : List ConversationId) :
    Json.beq (nodeJson task owned) (nodeJson task owned) = true := by
  refine beq_object_self (nodup_nodeMembers task owned) ?_
  simp only [nodeMembers, displayed, List.forall_mem_append, forall_mem_field, forall_mem_optionalField]
  simp [beq_stateMembers_self]

variable {x y : List ConversationId}

theorem nodeJson_eq_of_beq {a b : TaskRecord}
    (h : Json.beq (nodeJson a x) (nodeJson b y) = true) : nodeJson a x = nodeJson b y := by
  have hmem : ∀ name : String, sameMember (jsonMember (nodeMembers a x) name)
      (jsonMember (nodeMembers b y) name) = true :=
    fun name => sameMember_of_beq (nodup_nodeMembers a x) h _
  have hid : number a.id = number b.id := by
    simpa [nodeMembers, displayed, sameMember] using hmem "id"
  have hkind : a.kind = b.kind := by
    simpa [nodeMembers, displayed, sameMember] using hmem "kind"
  have hconv : number a.conversationId = number b.conversationId := by
    simpa [nodeMembers, displayed, sameMember] using hmem "conversationId"
  have howner : optionalField "owner" number a.owner = optionalField "owner" number b.owner := by
    refine optionalField_congr ((sameMember_map_iff beq_number_iff _ _).1 ?_)
    simpa [nodeMembers, displayed] using hmem "owner"
  have hback : a.background = b.background := by
    simpa [nodeMembers, displayed, sameMember] using hmem "background"
  have habort : a.abortRequested = b.abortRequested := by
    simpa [nodeMembers, displayed, sameMember] using hmem "abortRequested"
  have hstate : stateMembers a.state = stateMembers b.state := by
    refine stateMembers_eq_of_beq ?_
    simpa [nodeMembers, displayed, sameMember] using hmem "state"
  have howned : idArray x = idArray y := by
    simpa [nodeMembers, displayed, sameMember] using hmem "conversations"
  unfold nodeJson nodeMembers displayed
  rw [hid, hkind, hconv, howner, hback, habort, hstate, howned]

theorem idArray_inj {x y : List Int} (hx : ∀ id ∈ x, Exact id) (hy : ∀ id ∈ y, Exact id) :
    idArray x = idArray y ↔ x = y := by
  refine ⟨fun h => ?_, fun h => congrArg _ h⟩
  simp only [idArray, Json.array.injEq] at h
  induction x generalizing y with
  | nil => cases y <;> simp_all
  | cons a x ih =>
    cases y with
    | nil => simp at h
    | cons b y =>
      simp only [List.map_cons, List.cons.injEq, number, Json.number.injEq] at h
      obtain ⟨hhead, htail⟩ := h
      have hab : a = b := by
        rw [← toInt_number (hx a List.mem_cons_self), hhead, toInt_number (hy b List.mem_cons_self)]
      rw [hab, ih (fun id hid => hx id (List.mem_cons_of_mem _ hid))
        (fun id hid => hy id (List.mem_cons_of_mem _ hid)) htail]

theorem nodeJson_eq_iff {a b : TaskRecord} :
    nodeJson a x = nodeJson b y ↔ displayed a = displayed b ∧ idArray x = idArray y := by
  unfold nodeJson nodeMembers
  constructor
  · intro h
    obtain ⟨hfirst, hlast⟩ := List.append_inj' (Json.object.inj h) rfl
    exact ⟨hfirst, by simpa [field] using hlast⟩
  · rintro ⟨hfirst, hlast⟩
    rw [hfirst, hlast]

theorem listedIds_nodeJson (task : TaskRecord) {owned : List ConversationId}
    (h : ∀ id ∈ owned, Exact id) : listedIds (nodeJson task owned) = owned := by
  have hmem : jsonMember (nodeMembers task owned) "conversations" = some (idArray owned) := by
    simp [nodeMembers, displayed]
  simp only [listedIds, nodeJson, Json.asObject, Option.bind_some, hmem, idArray, Json.asArray,
    Option.getD_some, List.filterMap_map]
  rw [List.filterMap_congr (g := some)]
  · exact List.filterMap_some
  · intro id hid
    simp [number, Json.asNumber, toInt_number (h id hid)]

theorem insertOrAssign_append {key : Bytes} {value : Json} {xs ys : JsonObject Json}
    (h : JsonObject.find key xs = none) :
    JsonObject.insertOrAssign key value (xs ++ ys) = xs ++ JsonObject.insertOrAssign key value ys := by
  induction xs with
  | nil => rfl
  | cons m xs ih =>
    obtain ⟨k, v⟩ := m
    simp only [JsonObject.find] at h
    split at h
    · cases h
    · rename_i hne
      simp [JsonObject.insertOrAssign, hne, ih h]

theorem insertOrAssign_conversations (task : TaskRecord) (owned : List ConversationId) (ids : List Int) :
    JsonObject.insertOrAssign "conversations" (idArray ids) (nodeMembers task owned) = nodeMembers task ids := by
  have habsent : JsonObject.find "conversations" (displayed task) = none := by
    show jsonMember (displayed task) "conversations" = none
    simp [displayed]
  unfold nodeMembers
  rw [insertOrAssign_append habsent]
  simp [field, JsonObject.insertOrAssign]

/-! ## Mounted nodes -/

/-- The node of a task, none for one that has ended. -/
def nodeOf (task : TaskRecord) (owned : List ConversationId) : Option Json :=
  if terminalStatus task.state.status then none else some (nodeJson task owned)

/-- The nodes of a table of tasks with the given edges to conversations. -/
def nodes (tasks : OrdMap TaskId TaskRecord) (edges : TaskId → List ConversationId) (id : TaskId) : Option Json :=
  (tasks.find id).bind fun task => nodeOf task (edges id)

/-- The members are the nodes, each under the key of its task. -/
structure Shows (members : JsonObject Json) (view : TaskId → Option Json) : Prop where
  nodup : JsonObject.NodupKeys members
  keys : ∀ key ∈ members.map Prod.fst, ∃ id, key = taskKey id
  find : ∀ id, JsonObject.find (taskKey id) members = view id

theorem taskKey_inj {a b : TaskId} : taskKey a = taskKey b ↔ a = b := ⟨intText_injective, fun h => congrArg _ h⟩

section Shows

variable {view : TaskId → Option Json}

theorem Shows.insert (h : Shows members view) (id : TaskId) (node : Json) :
    Shows (JsonObject.insertOrAssign (taskKey id) node members) (Function.update view id (some node)) where
  nodup := JsonObject.insertOrAssign_nodup h.nodup
  keys key hkey := by
    obtain ⟨m, hm, rfl⟩ := List.mem_map.1 hkey
    rcases JsonObject.mem_insertOrAssign hm with rfl | hm
    · exact ⟨id, rfl⟩
    · exact h.keys _ (List.mem_map.2 ⟨m, hm, rfl⟩)
  find other := by
    simp only [JsonObject.find_insertOrAssign, update_apply, taskKey_inj, h.find]

theorem Shows.erase (h : Shows members view) (id : TaskId) :
    Shows (JsonObject.erase (taskKey id) members) (Function.update view id none) where
  nodup := JsonObject.erase_nodup h.nodup
  keys key hkey := by
    obtain ⟨m, hm, rfl⟩ := List.mem_map.1 hkey
    exact h.keys _ (List.mem_map.2 ⟨m, (JsonObject.erase_sublist _ _).subset hm, rfl⟩)
  find other := by
    simp only [JsonObject.find_erase h.nodup, update_apply, taskKey_inj, h.find]

theorem Shows.same (h : Shows members view) {id : TaskId} {node : Option Json}
    (hview : view id = node) : Shows members (Function.update view id node) := by
  rw [← hview, Function.update_eq_self]
  exact h

variable {members' : JsonObject Json}

theorem Shows.beq (h : Shows members view) (h' : Shows members' view)
    (hself : ∀ id node, view id = some node → Json.beq node node = true) :
    Json.beq (rootOf members) (rootOf members') = true := by
  have htasks : Json.beq (.object members) (.object members') = true := by
    refine beq_of_sameMember h.nodup h'.nodup fun key => ?_
    by_cases hkey : ∃ id, key = taskKey id
    · obtain ⟨id, rfl⟩ := hkey
      rw [h.find, h'.find]
      cases hnode : view id with
      | none => rfl
      | some node => exact hself id node hnode
    -- No other key is there on either side.
    rw [(JsonObject.find_eq_none_iff key members).2 fun hmem => hkey (h.keys key hmem),
      (JsonObject.find_eq_none_iff key members').2 fun hmem => hkey (h'.keys key hmem)]
    rfl
  simp [rootOf, field, Json.beq, Json.beqMembers, JsonObject.find] at htasks ⊢
  exact htasks

theorem Shows.sameMember_of_beq {view' : TaskId → Option Json} (h : Shows members view) (h' : Shows members' view')
    (hbeq : Json.beq (rootOf members) (rootOf members') = true) (id : TaskId) :
    sameMember (view id) (view' id) = true := by
  have htasks : Json.beq (.object members) (.object members') = true := by
    simp [rootOf, field, Json.beq, Json.beqMembers, JsonObject.find] at hbeq ⊢
    exact hbeq
  rw [← h.find, ← h'.find]
  exact TaskGraph.sameMember_of_beq h.nodup htasks _

end Shows

/-! ## One change -/

/-- The edges after a committed task: a node that is new starts without any. -/
def edgesAfter (tasks : OrdMap TaskId TaskRecord) (edges : TaskId → List ConversationId)
    (record : TaskRecord) : TaskId → List ConversationId :=
  if (nodes tasks edges record.id).isSome && !terminalStatus record.state.status then edges
  else Function.update edges record.id []

/-- The edges of a node after a committed conversation. -/
def addEdge (owned : List ConversationId) (id : ConversationId) : List ConversationId :=
  if owned.contains id then owned else (owned ++ [id]).insertionSort (· ≤ ·)

/-- The edges after a committed conversation. -/
def edgesWith (edges : TaskId → List ConversationId) (record : ConversationRecord) : TaskId → List ConversationId :=
  match record.owner with
  | none => edges
  | some owner => Function.update edges owner.taskId (addEdge (edges owner.taskId) record.id)

variable {record : TaskRecord}

theorem edgesAfter_of_ne {tasks : OrdMap TaskId TaskRecord} {edges : TaskId → List ConversationId}
    {id : TaskId} (h : id ≠ record.id) : edgesAfter tasks edges record id = edges id := by
  unfold edgesAfter
  split
  · rfl
  · exact update_of_ne h _ _

theorem nodes_insert {tasks : OrdMap TaskId TaskRecord} {edges edges' : TaskId → List ConversationId}
    (h : ∀ id, id ≠ record.id → edges' id = edges id) : nodes (tasks.insert record.id record) edges'
      = Function.update (nodes tasks edges) record.id (nodeOf record (edges' record.id)) := by
  funext id
  unfold nodes
  rw [OrdMap.find_insert, update_apply]
  split
  · rename_i heq
    rw [heq]
    rfl
  · rename_i hne
    rw [h id hne]

theorem nodes_eq_some {tasks : OrdMap TaskId TaskRecord} {edges : TaskId → List ConversationId}
    {id : TaskId} {node : Json} (h : nodes tasks edges id = some node) :
    ∃ task, tasks.find id = some task ∧ terminalStatus task.state.status = false ∧
      node = nodeJson task (edges id) := by
  obtain ⟨task, htask, hnode⟩ := Option.bind_eq_some_iff.1 h
  unfold nodeOf at hnode
  split at hnode
  · cases hnode
  · rename_i hlive
    exact ⟨task, htask, by simpa using hlive, (Option.some.inj hnode).symm⟩

variable {patch : Patch}

/-- **A committed task.** -/
theorem Shows.task {tasks : OrdMap TaskId TaskRecord}
    {edges : TaskId → List ConversationId} (h : Shows patch.tasks (nodes tasks edges))
    (hexact : ∀ id, ∀ c ∈ edges id, Exact c) (record : TaskRecord) :
    Shows (patch.task record).tasks (nodes (tasks.insert record.id record) (edgesAfter tasks edges record)) := by
  rw [nodes_insert fun id hne => edgesAfter_of_ne hne]
  unfold Patch.task edgesAfter
  dsimp only
  rw [h.find]
  cases hterm : terminalStatus record.state.status with
  | true =>
    simp only [if_true, nodeOf, hterm]
    cases hnode : nodes tasks edges record.id with
    | none => exact h.same hnode
    | some node => exact h.erase record.id
  | false =>
    simp only [Bool.false_eq_true, if_false, nodeOf, hterm, Bool.not_false, Bool.and_true]
    cases hnode : nodes tasks edges record.id with
    | none => simpa using h.insert record.id (nodeJson record [])
    | some node =>
      obtain ⟨task, -, -, rfl⟩ := nodes_eq_some hnode
      have hlisted := listedIds_nodeJson task (hexact record.id)
      simp only [Option.map_some, Option.getD_some, hlisted, Option.any_some, Option.isSome_some, if_true]
      split
      · -- The short cut is taken for a node that is the same value.
        rename_i hbeq
        rw [← nodeJson_eq_of_beq hbeq]
        exact h.same hnode
      · exact h.insert record.id _

/-- **A committed conversation.** -/
theorem Shows.conversation {tasks : OrdMap TaskId TaskRecord}
    {edges : TaskId → List ConversationId} (h : Shows patch.tasks (nodes tasks edges))
    (hexact : ∀ id, ∀ c ∈ edges id, Exact c) (record : ConversationRecord) :
    Shows (patch.conversation record).tasks (nodes tasks (edgesWith edges record)) := by
  unfold Patch.conversation edgesWith
  cases howner : record.owner with
  | none => exact h
  | some owner =>
    dsimp only
    have hnodes : nodes tasks (Function.update edges owner.taskId (addEdge (edges owner.taskId) record.id))
        = Function.update (nodes tasks edges) owner.taskId ((tasks.find owner.taskId).bind fun task =>
          nodeOf task (addEdge (edges owner.taskId) record.id)) := by
      funext id
      unfold nodes
      rw [update_apply, update_apply]
      split
      · rename_i heq
        rw [heq]
      · rfl
    rw [hnodes, h.find]
    cases hnode : nodes tasks edges owner.taskId with
    | none =>
      refine h.same (hnode.trans ?_)
      -- A task without a node has none whatever its edges are.
      rw [nodes] at hnode
      cases hfind : tasks.find owner.taskId with
      | none => rfl
      | some task =>
        rw [hfind, Option.bind_some] at hnode
        unfold nodeOf at hnode ⊢
        split at hnode
        · rename_i hterm
          simp [hterm]
        · cases hnode
    | some node =>
      obtain ⟨task, hfind, hlive, rfl⟩ := nodes_eq_some hnode
      have hlisted := listedIds_nodeJson task (hexact owner.taskId)
      have hmembers : (nodeJson task (edges owner.taskId)).asObject.getD []
          = nodeMembers task (edges owner.taskId) := rfl
      dsimp only
      rw [hlisted, hmembers, insertOrAssign_conversations, hfind, Option.bind_some, nodeOf, hlive]
      exact h.insert owner.taskId _

/-! ## Operations -/

theorem isReservedSegment_taskKey (id : TaskId) : isReservedSegment (taskKey id) = false := by
  have hne : ∀ text : String, (∃ c ∈ text.toList, c.isDigit = false ∧ c ≠ '-') →
      (taskKey id == ofString text) = false := by
    rintro text ⟨c, hc, hdigit, hminus⟩
    rw [beq_eq_false_iff_ne]
    intro heq
    rw [taskKey, intText, ofString_inj] at heq
    rw [← heq] at hc
    rcases digit_or_minus hc with h | h
    · rw [hdigit] at h
      cases h
    · exact hminus h
  unfold isReservedSegment
  rw [hne "__proto__" ⟨'p', by decide⟩, hne "constructor" ⟨'c', by decide⟩, hne "prototype" ⟨'p', by decide⟩]
  rfl

theorem validateBatch_append (xs ys : OpBatch) :
    validateBatch (xs ++ ys) = (do validateBatch xs; validateBatch ys) := by
  induction xs with
  | nil => rfl
  | cons op rest ih =>
    simp only [List.cons_append, validateBatch, ih]
    cases validateOp op <;> rfl

/-- The operations are valid, and lead from the first nodes to the present ones. -/
structure Tracks (base : JsonObject Json) (patch : Patch) : Prop where
  valid : validateBatch patch.ops = .ok ()
  applies : applyOps (rootOf base) patch.ops = .ok (rootOf patch.tasks)

theorem tracks_start (base : JsonObject Json) : Tracks base ⟨base, []⟩ := ⟨rfl, rfl⟩

variable {base : JsonObject Json}

theorem Tracks.op (h : Tracks base patch) {op : Op} {tasks : JsonObject Json} (hvalid : validateOp op = .ok ())
    (happly : applyOp (rootOf patch.tasks) op = .ok (rootOf tasks)) : Tracks base ⟨tasks, patch.ops ++ [op]⟩ where
  valid := by
    rw [validateBatch_append, h.valid]
    simp [validateBatch, hvalid]
  applies := by
    rw [applyOps_append, h.applies]
    simp [applyOps, happly]

theorem validateSafePath_nodePath (id : TaskId) (rest : Path) :
    validateSafePath (nodePath id ++ rest) = validateSafePath rest := by
  have htasks : isReservedSegment "tasks" = false := by decide
  simp [nodePath, validateSafePath, htasks, isReservedSegment_taskKey]

theorem Tracks.task {base : JsonObject Json} (h : Tracks base patch) (record : TaskRecord) :
    Tracks base (patch.task record) := by
  have hpath : validateSafePath (nodePath record.id) = .ok () := by
    simpa [validateSafePath] using validateSafePath_nodePath record.id []
  unfold Patch.task
  dsimp only
  split
  · split
    · rename_i hsome
      obtain ⟨node, hnode⟩ := Option.isSome_iff_exists.1 hsome
      refine h.op (by simpa [validateOp, nodePath] using hpath) ?_
      simp [applyOp, erasePath, nodePath, erasePathFrom, rootOf, field, JsonObject.find, hnode,
        JsonObject.insertOrAssign]
    · exact h
  split
  · exact h
  · refine h.op (by simpa [validateOp, nodePath] using hpath) ?_
    simp [applyOp, setPath, nodePath, setPathFrom, rootOf, field, JsonObject.find, JsonObject.insertOrAssign]

theorem Tracks.conversation {base : JsonObject Json} (h : Tracks base patch)
    (hobj : ∀ id node, JsonObject.find (taskKey id) patch.tasks = some node →
      ∃ members, node = .object members) (record : ConversationRecord) : Tracks base (patch.conversation record) := by
  unfold Patch.conversation
  split
  · exact h
  rename_i owner howner
  split
  · exact h
  rename_i node hnode
  obtain ⟨members, rfl⟩ := hobj _ _ hnode
  have hpath : validateSafePath (taskFieldPath owner.taskId "conversations") = .ok () := by
    rw [taskFieldPath, validateSafePath_nodePath]
    decide
  refine h.op (by simpa [validateOp, taskFieldPath, nodePath] using hpath) ?_
  simp [applyOp, setPath, taskFieldPath, nodePath, setPathFrom, rootOf, field, JsonObject.find,
    hnode, JsonObject.insertOrAssign, Json.asObject]

/-! ## One publication -/

def insertAll (tasks : OrdMap TaskId TaskRecord) (records : List TaskRecord) : OrdMap TaskId TaskRecord :=
  records.foldl (fun tasks record => tasks.insert record.id record) tasks

/-- **The task loop.** A node keeps its edges as long as it stays; one that is made anew has none. -/
theorem Shows.tasks {tasks : OrdMap TaskId TaskRecord}
    {edges : TaskId → List ConversationId} (h : Shows patch.tasks (nodes tasks edges))
    (hexact : ∀ id, ∀ c ∈ edges id, Exact c) (records : List TaskRecord) : ∃ edges' : TaskId → List ConversationId,
      Shows (records.foldl Patch.task patch).tasks (nodes (insertAll tasks records) edges') ∧
        ∀ id, (edges' id = edges id ∨ edges' id = []) ∧ ((nodes tasks edges id).isSome →
            (∀ record ∈ records, record.id = id → terminalStatus record.state.status = false) →
            edges' id = edges id) := by
  induction records generalizing patch tasks edges with
  | nil => exact ⟨edges, h, fun id => ⟨Or.inl rfl, fun _ _ => rfl⟩⟩
  | cons record rest ih =>
    have hstep := h.task hexact record
    have hkept : ∀ id, edgesAfter tasks edges record id = edges id ∨ edgesAfter tasks edges record id = [] := by
      intro id
      unfold edgesAfter
      split
      · exact Or.inl rfl
      by_cases hid : id = record.id
      · exact Or.inr (by simp [hid])
      · exact Or.inl (update_of_ne hid _ _)
    have hexact' : ∀ id, ∀ c ∈ edgesAfter tasks edges record id, Exact c := by
      intro id c hc
      rcases hkept id with heq | heq
      · exact hexact id c (heq ▸ hc)
      · rw [heq] at hc
        cases hc
    obtain ⟨edges', hshows, hedges⟩ := ih hstep hexact'
    refine ⟨edges', hshows, fun id => ⟨?_, fun hsome hlive => ?_⟩⟩
    · rcases (hedges id).1 with heq | heq
      · rw [heq]
        exact hkept id
      · exact Or.inr heq
    have hrest := (hedges id).2
    have hlater : ∀ other ∈ rest, other.id = id → terminalStatus other.state.status = false :=
      fun other hother => hlive other (List.mem_cons_of_mem _ hother)
    by_cases hid : id = record.id
    · -- The node is rewritten in place.
      subst hid
      have hstays := hlive record List.mem_cons_self rfl
      have hsame : edgesAfter tasks edges record = edges := by simp [edgesAfter, hsome, hstays]
      rw [hsame] at hrest
      refine hrest ?_ hlater
      simp [nodes, nodeOf, hstays]
    have hsame : edgesAfter tasks edges record id = edges id := edgesAfter_of_ne hid
    rw [hsame] at hrest
    refine hrest ?_ hlater
    unfold nodes at hsome ⊢
    rwa [OrdMap.find_insert, if_neg hid, hsame]

theorem insertionSort_eq_of_perm {xs ys : List Int} (h : xs.Perm ys) :
    xs.insertionSort (· ≤ ·) = ys.insertionSort (· ≤ ·) := by
  have hperm : (xs.insertionSort (· ≤ ·)).Perm (ys.insertionSort (· ≤ ·)) :=
    ((List.perm_insertionSort _ _).trans h).trans (List.perm_insertionSort _ _).symm
  exact hperm.eq_of_pairwise (fun a b _ _ hab hba => le_antisymm hab hba)
    (List.pairwise_insertionSort _ _) (List.pairwise_insertionSort _ _)

theorem mem_ownedIds {conversations : List ConversationRecord} {task : TaskId} {id : ConversationId} :
    id ∈ ownedIds conversations task ↔ ∃ record ∈ conversations, ownedBy task record = true ∧ record.id = id := by
  unfold ownedIds
  rw [List.mem_insertionSort, List.mem_map]
  constructor
  · rintro ⟨record, hrec, rfl⟩
    obtain ⟨hmem, howned⟩ := List.mem_filter.1 hrec
    exact ⟨record, hmem, howned, rfl⟩
  · rintro ⟨record, hmem, howned, rfl⟩
    exact ⟨record, List.mem_filter.2 ⟨hmem, howned⟩, rfl⟩

/-- A committed conversation gives its owner the edge that a new scan finds. -/
theorem edgesWith_ownedIds {before : List ConversationRecord} {record : ConversationRecord}
    (hnew : record.id ∉ before.map ConversationRecord.id) :
    edgesWith (ownedIds before) record = ownedIds (before ++ [record]) := by
  funext id
  have hfilter : (before ++ [record]).filter (ownedBy id)
      = before.filter (ownedBy id) ++ if ownedBy id record then [record] else [] := by
    rw [List.filter_append]
    cases h : ownedBy id record <;> simp [h]
  unfold edgesWith
  cases howner : record.owner with
  | none =>
    have hother : ownedBy id record = false := by simp [ownedBy, howner]
    simp [ownedIds, hfilter, hother]
  | some owner =>
    dsimp only
    by_cases hid : id = owner.taskId
    · have howned : ownedBy id record = true := by simp [ownedBy, howner, hid]
      have habsent : record.id ∉ ownedIds before id := by
        intro hmem
        obtain ⟨other, hother, -, heq⟩ := mem_ownedIds.1 hmem
        exact hnew (List.mem_map.2 ⟨other, hother, heq⟩)
      rw [← hid, Function.update_self, addEdge, if_neg (by simpa using habsent), ownedIds, ownedIds,
        hfilter, howned, if_pos rfl, List.map_append]
      exact insertionSort_eq_of_perm ((List.perm_insertionSort _ _).append_right _)
    have hother : ownedBy id record = false := by
      simp [ownedBy, howner, Ne.symm hid]
    rw [update_of_ne hid]
    simp [ownedIds, hfilter, hother]

/-- Identities that a node can list without loss. -/
def ExactIds (conversations : List ConversationRecord) : Prop := ∀ record ∈ conversations, Exact record.id

instance (conversations : List ConversationRecord) : Decidable (ExactIds conversations) :=
  inferInstanceAs (Decidable (∀ record ∈ conversations, Exact record.id))

theorem ExactIds.edges {conversations : List ConversationRecord} (h : ExactIds conversations)
    (task : TaskId) : ∀ c ∈ ownedIds conversations task, Exact c := by
  intro c hc
  obtain ⟨record, hrec, -, rfl⟩ := mem_ownedIds.1 hc
  exact h record hrec

variable {before created : List ConversationRecord}

/-- **The conversation loop.** -/
theorem Shows.conversations {tasks : OrdMap TaskId TaskRecord}
    (h : Shows patch.tasks (nodes tasks (ownedIds before))) (htracks : Tracks base patch)
    (hnodup : ((before ++ created).map ConversationRecord.id).Nodup) (hexact : ExactIds (before ++ created)) :
    Shows (created.foldl Patch.conversation patch).tasks (nodes tasks (ownedIds (before ++ created))) ∧
      Tracks base (created.foldl Patch.conversation patch) := by
  induction created generalizing patch before with
  | nil =>
    rw [List.append_nil]
    exact ⟨h, htracks⟩
  | cons record rest ih =>
    have happ : before ++ record :: rest = (before ++ [record]) ++ rest := by simp
    have hnew : record.id ∉ before.map ConversationRecord.id := by
      intro hmem
      rw [List.map_append, List.map_cons] at hnodup
      exact (List.nodup_append.1 hnodup).2.2 _ hmem _ List.mem_cons_self rfl
    have hedges : ∀ id, ∀ c ∈ ownedIds before id, Exact c :=
      ExactIds.edges fun other hother => hexact other (List.mem_append_left _ hother)
    have hobj : ∀ id node, JsonObject.find (taskKey id) patch.tasks = some node →
        ∃ members, node = .object members := by
      intro id node hnode
      rw [h.find] at hnode
      obtain ⟨task, -, -, rfl⟩ := nodes_eq_some hnode
      exact ⟨_, rfl⟩
    have hstep := h.conversation hedges record
    rw [edgesWith_ownedIds hnew] at hstep
    rw [happ] at hnodup hexact ⊢
    exact ih hstep (htracks.conversation hobj record) hnodup hexact

theorem Tracks.tasks (h : Tracks base patch) (records : List TaskRecord) :
    Tracks base (records.foldl Patch.task patch) := by
  induction records generalizing patch with
  | nil => exact h
  | cons record rest ih => exact ih (h.task record)

/-- A task that owns conversations keeps its node over the writes, or has none after them. -/
def EdgesKept (tasks : OrdMap TaskId TaskRecord) (before : List ConversationRecord)
    (records : List TaskRecord) : Prop :=
  ∀ id, ownedIds before id ≠ [] → (nodes (insertAll tasks records) (ownedIds before) id).isSome →
    (nodes tasks (ownedIds before) id).isSome ∧
      ∀ record ∈ records, record.id = id → terminalStatus record.state.status = false

/-- **One publication.** The patched nodes are those of the tables after it, and the operations lead
there. -/
theorem Shows.patchAll {tasks : OrdMap TaskId TaskRecord} {records : List TaskRecord}
    (h : Shows members (nodes tasks (ownedIds before)))
    (hnodup : ((before ++ created).map ConversationRecord.id).Nodup)
    (hexact : ExactIds (before ++ created)) (hkept : EdgesKept tasks before records) :
    Shows (patchAll members records created).tasks (nodes (insertAll tasks records) (ownedIds (before ++ created))) ∧
      Tracks members (patchAll members records created) := by
  have hedges : ∀ id, ∀ c ∈ ownedIds before id, Exact c :=
    ExactIds.edges fun other hother => hexact other (List.mem_append_left _ hother)
  have hstart : Shows (⟨members, []⟩ : Patch).tasks (nodes tasks (ownedIds before)) := h
  obtain ⟨edges', hshows, hedges'⟩ := hstart.tasks hedges records
  -- After the task loop every node has the edges it had before the publication.
  have hnodes : nodes (insertAll tasks records) edges' = nodes (insertAll tasks records) (ownedIds before) := by
    funext id
    by_cases hsome : (nodes (insertAll tasks records) (ownedIds before) id).isSome
    · have hsame : edges' id = ownedIds before id := by
        by_cases hnone : ownedIds before id = []
        · rcases (hedges' id).1 with heq | heq
          · exact heq
          · rw [heq, hnone]
        · obtain ⟨hprev, hlive⟩ := hkept id hnone hsome
          exact (hedges' id).2 hprev hlive
      unfold nodes
      rw [hsame]
    unfold nodes at hsome ⊢
    cases hfind : (insertAll tasks records).find id with
    | none => rfl
    | some task =>
      rw [hfind] at hsome
      unfold nodeOf at hsome ⊢
      cases hterm : terminalStatus task.state.status with
      | true => simp [hterm]
      | false => simp [hterm] at hsome
  rw [hnodes] at hshows
  exact hshows.conversations ((tracks_start members).tasks records) hnodup hexact

end TaskGraph

end CodingHarness.Durable
