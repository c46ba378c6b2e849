import CodingHarness.Durable.SessionCommit

/-!
# The tasks of a Harness

The commits that write task records: the phase and abort-handler commits of a running task, the passes of
the scheduler, aborts, and the settlements that the scheduler writes itself. Each is one commit of the
Session line, so a run of the Harness is a sequence of them in any order. What an actor read before its
commit (a scan, a resolved definition, the reason of a block) is an argument of its step, since other
commits may have landed in between.

`OwnershipIndex` is the ownership tree that the scheduler walks. A task hangs from the task that owns
it, or else from its conversation, and a conversation from the task that owns it, if any.
-/

namespace CodingHarness.Durable

open Library Support

namespace Tasks

/-! ## Statuses -/

/-- The status of a task that waits for a reservation. -/
def pending : Bytes := "pending"

/-- The status of a task with an invocation. -/
def running : Bytes := "running"

/-- The status of a task that waits for other tasks. -/
def waiting : Bytes := "waiting"

/-- The status of a task whose outcome is held for the work it owns. -/
def completing : Bytes := "completing"

def terminal : Bytes := "terminal"

/-- `task_live`. -/
def live (record : TaskRecord) : Bool := record.state.status != terminal

def failedOutcome (record : TaskRecord) : Bool :=
  (record.state.status == completing || record.state.status == terminal) &&
    record.state.outcome.all fun outcome => outcome.status != ofString "completed"

/-- A live task that was marked, or whose held outcome is not a completion. -/
def cancellationIntent (record : TaskRecord) : Bool :=
  live record && (record.abortRequested || failedOutcome record)

/-! ## The ownership tree -/

/-- The records of a list by their identity. -/
def byId (records : List TaskRecord) : OrdMap TaskId TaskRecord :=
  records.foldl (fun tasks record => tasks.insert record.id record) .empty

/-- `OwnershipIndex`: the maps of children are read off the two tables. -/
structure OwnershipIndex where
  tasks : OrdMap TaskId TaskRecord
  conversations : OrdMap ConversationId ConversationRecord

namespace OwnershipIndex

/-- The index of records; of several with one identity the last counts. -/
def of (tasks : List TaskRecord) (conversations : List ConversationRecord) : OwnershipIndex where
  tasks := byId tasks
  conversations := conversations.foldl (fun found record => found.insert record.id record) .empty

/-- A node of the tree. -/
inductive Node where
  | task (id : TaskId)
  | conversation (id : ConversationId)
  deriving DecidableEq

/-- The tasks that hang from a node: `owned_tasks_` or `conversation_tasks_`. -/
def children (index : OwnershipIndex) : Node → List TaskRecord
  | .task id => index.tasks.values.filter fun record => record.owner == some id
  | .conversation id =>
    index.tasks.values.filter fun record => record.owner.isNone && record.conversationId == id

/-- The conversations that a node owns: `owned_conversations_`. -/
def ownedConversations (index : OwnershipIndex) : Node → List ConversationId
  | .task id =>
    (index.conversations.values.filter fun record =>
      record.owner.any fun owner => owner.taskId == id).map ConversationRecord.id
  | .conversation _ => []

/-- The nodes that one round of `walk_down` pushes. -/
def entered (index : OwnershipIndex) (crossBackground : Bool) (enter : TaskRecord → Bool)
    (node : Node) : List Node :=
  (index.ownedConversations node).map Node.conversation ++ ((index.children node).filter fun record =>
      (crossBackground || !record.background) && enter record).map fun record => .task record.id

/-- `walk_down`: the tasks it visits, in order. The last pushed node is on top. There is no result when
the walk does not end within the given number of rounds. -/
def walkDown (index : OwnershipIndex) (crossBackground : Bool) (enter : TaskRecord → Bool) :
    Nat → List Node → Option (List TaskRecord)
  | _, [] => some []
  | 0, _ :: _ => none
  | fuel + 1, node :: rest => do
      let later ← walkDown index crossBackground enter fuel
        ((index.entered crossBackground enter node).reverse ++ rest)
      return index.children node ++ later

/-- The rounds of a walk that meets no node twice. -/
def rounds (index : OwnershipIndex) : Nat := index.tasks.size + index.conversations.size + 1

/-- `owned_live`: the live work below a task, without the background tasks. -/
def ownedLive (index : OwnershipIndex) (owner : TaskId) : Option (List TaskId) := do
  let visited ← index.walkDown false (fun _ => true) index.rounds [.task owner]
  return (visited.filter fun record => !record.background && live record).map TaskRecord.id

/-- `reachable`: the live work below a conversation. -/
def reachable (index : OwnershipIndex) (conversation : ConversationId) (crossBackground : Bool) :
    Option (List TaskId) := do
  let visited ← index.walkDown crossBackground (fun _ => true) index.rounds
    [.conversation conversation]
  return (visited.filter fun record =>
    (crossBackground || !record.background) && live record).map TaskRecord.id

end OwnershipIndex

/-! ## Transactions -/

/-- A task or a conversation that a commit creates; `fork_conversation` creates like
`create_conversation`. -/
inductive Creation where
  | task (definition : TaskDefinition) (input : Json) (options : TaskOptions)
  | conversation (owner : Option TaskId)

/-- The tables with what a transaction has created, the tasks among it, and the owners to be judged at
assembly. -/
structure Staged where
  tables : StorageState
  created : List TaskRecord := []
  taskOwners : List TaskId := []
  conversationOwners : List TaskId := []

/-- The owner of a new task, as `create_task` checks it. -/
def taskOwner (tables : StorageState) (options : TaskOptions) : Expected (Option TaskRecord) :=
  match options.owner with
  | none => .ok none
  | some owner => do
      let record ← present (tables.tasks.find owner)
        (ofString "Task owner " ++ intText owner ++ ofString " does not exist")
      refuse options.background "A child task cannot be background"
      refuse (options.conversationId.any fun id => id != record.conversationId)
        (ofString "A child task lives in its owner's conversation " ++ intText record.conversationId)
      return some record

/-- The record of a new task, which lives where its owner does. -/
def newTask (id : TaskId) (definition : TaskDefinition) (input : Json) (options : TaskOptions)
    (owner : Option TaskRecord) : TaskRecord where
  id := id
  conversationId := (owner.map TaskRecord.conversationId).getD (options.conversationId.getD 1)
  kind := definition.kind
  version := definition.version
  input := input
  owner := options.owner
  background := options.background
  abandonOnRestart := options.abandonOnRestart
  state := { status := pending, checkpoint := some (options.checkpoint.getD (definition.initial input)) }

/-- `create_task` and `create_conversation`. -/
def create (staged : Staged) : Creation → Expected Staged
  | .task definition input options => do
      let owner ← taskOwner staged.tables options
      let id := staged.tables.nextId
      let record := newTask id definition input options owner
      return {
        tables := { staged.tables with
          tasks := staged.tables.tasks.insert id record
          nextId := id + 1 }
        created := staged.created ++ [record]
        taskOwners := staged.taskOwners ++ options.owner.toList
        conversationOwners := staged.conversationOwners }
  | .conversation none =>
    let id := staged.tables.nextId
    .ok { staged with
      tables := { staged.tables with
        conversations := staged.tables.conversations.insert id { id := id }
        conversationIds := staged.tables.conversationIds ++ [id]
        nextId := id + 1 } }
  | .conversation (some owner) => do
      let record ← present (staged.tables.tasks.find owner)
        (ofString "Conversation owner task " ++ intText owner ++ ofString " does not exist")
      let id := staged.tables.nextId
      return { staged with
        tables := { staged.tables with
          conversations := staged.tables.conversations.insert id
            { id := id, owner := some ⟨record.conversationId, owner⟩ }
          conversationIds := staged.tables.conversationIds ++ [id]
          nextId := id + 1 }
        conversationOwners := staged.conversationOwners ++ [owner] }

/-- The creations of a transaction in order. -/
def createAll : Staged → List Creation → Expected Staged
  | staged, [] => .ok staged
  | staged, creation :: rest => do
      let next ← create staged creation
      createAll next rest

/-- The limit of the scans that the source makes with 1024. -/
def scanLimit : Nat := 1024

/-- `overlay_tasks`: the committed tasks of one scan under the staged ones. -/
def overlayTasks (committed : StorageState) (staged : Staged) : OrdMap TaskId TaskRecord :=
  staged.created.foldl (fun tasks record => tasks.insert record.id record)
    (byId (committed.tasks.values.take scanLimit))

/-- The records replace the ones with their identities. -/
def setTasks (tables : StorageState) (records : List TaskRecord) : StorageState :=
  { tables with tasks := records.foldl (fun tasks record => tasks.insert record.id record) tables.tasks }

/-- The assembly refuses to replace a committed terminal task. -/
def checkReplaced (committed : StorageState) : List TaskRecord → Expected Unit
  | [] => .ok ()
  | record :: rest => do
      refuse ((committed.tasks.find record.id).any fun stored => !live stored)
        (ofString "Task " ++ intText record.id ++ ofString " is already terminal")
      checkReplaced committed rest

/-- The owners of what was created, judged on their final candidates. -/
def checkOwners (tables : StorageState) (what : String) : List TaskId → Expected Unit
  | [] => .ok ()
  | owner :: rest => do
      match tables.tasks.find owner with
      | none => checkOwners tables what rest
      | some record => do
          Transaction.requireLiveOwner what owner record
          checkOwners tables what rest

/-- What the callback of a commit leaves behind: what it created, and the tasks that it wrote. -/
structure Callback where
  staged : Staged
  writes : List TaskRecord

/-- The assembly of a commit: replacements first, then the owners on the tables with the writes. -/
def assemble (committed : StorageState) (callback : Callback) : Expected StorageState := do
  checkReplaced committed callback.writes
  let tables := setTasks callback.staged.tables callback.writes
  checkOwners tables "Task owner" callback.staged.taskOwners
  checkOwners tables "Conversation owner task" callback.staged.conversationOwners
  return tables

def write (committed : StorageState) (records : List TaskRecord) : Expected Callback :=
  .ok ⟨{ tables := committed }, records⟩

/-! ## The commits of a running task -/

/-- The state that a phase asks for. -/
structure NextTaskState where
  status : Bytes
  checkpoint : Option Json := none
  on : List TaskId := []
  policy : Option JoinPolicy := none
  outcome : Option TaskOutcome := none

def rejected {α : Type} (message : Bytes) : Expected α := .error (validationError message)

/-- `has_owned_live_in`: the index has no conversations. -/
def hasOwnedLiveIn (committed : StorageState) (staged : Staged) (id : TaskId) : Option Bool := do
  let found ← OwnershipIndex.ownedLive ⟨overlayTasks committed staged, .empty⟩ id
  return !found.isEmpty

/-- The search of `validate_wait` for a way back to the waiter; the last pushed task is on top. -/
def waitCycle (members : OrdMap TaskId TaskRecord) (waiter : TaskId) : Nat → List TaskId → List TaskId → Bool
  | _, [], _ => false
  | 0, _ :: _, _ => false
  | fuel + 1, id :: rest, visited =>
    match members.find id with
    | none => waitCycle members waiter fuel rest visited
    | some record =>
      if visited.contains record.id then waitCycle members waiter fuel rest visited
      else if record.owner = some waiter then true
      else
        let waits := if record.state.status == waiting && !record.abortRequested then record.state.on else []
        waitCycle members waiter fuel (waits.reverse ++ record.owner.toList ++ rest)
          (record.id :: visited)

/-- The rounds of the search: every task is entered once and pushes its owner and its members. -/
def waitRounds (members : OrdMap TaskId TaskRecord) : Nat :=
  1 + (members.values.map fun record => 1 + record.state.on.length).sum

/-- `validate_wait` for one member: a terminal or owned one passes at once. -/
def validateMember (members : OrdMap TaskId TaskRecord) (waiter : TaskId) (policy : JoinPolicy)
    (id : TaskId) : Expected Unit := do
  let member ← present (members.find id) (ofString "Task " ++ intText id ++ ofString " does not exist")
  if policy = .failFast ∧ member.owner ≠ some waiter then
    rejected (ofString "Task " ++ intText waiter ++ ofString " can wait failFast only on tasks it owns; "
      ++ intText id ++ ofString " is not one")
  else if member.state.status = terminal ∨ member.owner = some waiter then return ()
  else if waitCycle members waiter (waitRounds members) [id] [waiter] then
    rejected (ofString "Task " ++ intText waiter ++ ofString " cannot wait on " ++ intText id
      ++ ofString ": " ++ intText waiter ++ ofString " -> " ++ intText id
      ++ ofString " is a wait cycle")
  else return ()

/-- `validate_wait`: the first member that fails decides. -/
def validateWait (members : OrdMap TaskId TaskRecord) (waiter : TaskId) (policy : JoinPolicy) :
    List TaskId → Expected Unit
  | [] => .ok ()
  | id :: rest => do
      validateMember members waiter policy id
      validateWait members waiter policy rest

/-- The record of a task that ends: `completing` while it owns live work. -/
def ended (current : TaskRecord) (held : Bool) (outcome : Option TaskOutcome) (now : Int) : TaskRecord :=
  { current with
    state := { current.state with
      status := if held then completing else terminal
      outcome := outcome
      on := []
      policy := none }
    endedAt := if held then current.endedAt else some now
    memos := .empty }

/-- The record that `commit_with` writes for the next state. -/
def nextRecord (committed : StorageState) (staged : Staged) (current : TaskRecord)
    (abortInvocation : Bool) (next : NextTaskState) (now : Int) : Expected TaskRecord :=
  if next.status = terminal then do
    -- No answer stands for a walk that does not end, which leaves the commit open.
    let held ← present (hasOwnedLiveIn committed staged current.id) "The walk does not end"
    return ended current held next.outcome now
  else if next.status = waiting then
    match next.policy with
    | none => rejected "A waiting task needs a join policy"
    | some policy =>
      if abortInvocation then
        rejected (ofString "Abort handler of task " ++ intText current.id ++ ofString " cannot wait")
      else do
        validateWait (overlayTasks committed staged) current.id policy next.on
        return { current with
          state :=
            { status := waiting
              checkpoint := next.checkpoint
              on := next.on
              policy := some policy
              outcome := none } }
  else if next.status = running then
    .ok { current with state := { current.state with status := running, checkpoint := next.checkpoint } }
  else .ok current

/-- The checks of `commit_with` and `memo` on the running task. -/
def runningTask (committed : StorageState) (id : TaskId) (allowAbort : Bool) : Expected TaskRecord := do
  let current ← present (committed.tasks.find id) "Task not found"
  if current.state.status ≠ running then
    rejected (ofString "Task " ++ intText id ++ ofString " is " ++ current.state.status)
  else if current.abortRequested && !allowAbort then
    rejected "Task has a durable abort mark"
  else return current

/-- `commit_with`: the callback creates, and then the next state of the task is written. -/
def commitWith (committed : StorageState) (id : TaskId) (allowAbort abortInvocation : Bool)
    (creations : List Creation) (next : Option NextTaskState) (now : Int) : Expected Callback := do
  let current ← runningTask committed id allowAbort
  let staged ← createAll { tables := committed } creations
  match next with
  | none => return ⟨staged, []⟩
  | some next => do
      let record ← nextRecord committed staged current abortInvocation next now
      return ⟨staged, [record]⟩

/-- `memo`, and the memo write of a code run: a memo that exists is kept by the first and replaced by
the second. -/
def memo (committed : StorageState) (id : TaskId) (allowAbort keep : Bool) (key : Bytes)
    (candidate : Json) : Expected Callback := do
  let current ← runningTask committed id allowAbort
  if keep && current.memos.contains key then write committed []
  else write committed [{ current with memos := current.memos.insert key candidate }]

/-! ## The commits of the scheduler -/

/-- `open_tasks`: a running task that survived is pending again. -/
def openTasks (committed : StorageState) : Expected Callback :=
  write committed ((committed.tasks.values.filter fun record => record.state.status == running).map
    fun record => { record with state := { record.state with status := pending } })

/-- The abort mark; only a restart carries a reason. -/
def marked (restart : Bool) (record : TaskRecord) : TaskRecord := { record with
    abortRequested := true
    abortReason := if restart then some "restart" else none }

/-- The commit of `mark_abandoned_on_restart`. -/
def markAbandoned (committed : StorageState) (ids : List TaskId) : Expected Callback :=
  write committed ((committed.tasks.values.filter fun record =>
    ids.contains record.id && live record && !record.abortRequested).map (marked true))

/-- The terminal record that the scheduler writes itself. -/
def settled (record : TaskRecord) (outcome : TaskOutcome) (now : Int) : TaskRecord := { record with
    state := { record.state with status := terminal, outcome := some outcome }
    endedAt := some now
    memos := .empty }

/-- `settle_orphaned` and `settle_faulted`, apart from the tool slot that they finish. -/
def settle (committed : StorageState) (id : TaskId) (outcome : TaskOutcome) (now : Int) : Expected Callback :=
  match committed.tasks.find id with
  | none => write committed []
  | some record =>
    if live record then write committed [settled record outcome now] else write committed []

/-- The outcome of `settle_faulted`. -/
def faulted (message : Bytes) : TaskOutcome := { status := "faulted", error := some { message := message } }

/-- The outcome of `settle_orphaned`. -/
def orphaned (reason : Bytes) : TaskOutcome := { status := "orphaned", reason := some reason }

/-- The commit of `abort_task`; the reason was found before it. -/
def abortTask (committed : StorageState) (id : TaskId) (orphanReason : Option Bytes) (now : Int) :
    Expected Callback := do
  let record ← present (committed.tasks.find id) "Task not found"
  if live record then
    match orphanReason with
    | some reason => write committed [settled record (orphaned reason) now]
    | none => write committed [marked false record]
  else write committed []

/-- The marks that `reconcile` writes, out of those it derived from its scan. -/
def markAll (committed : StorageState) (marks : List (TaskId × Bool)) : Expected Callback :=
  write committed ((committed.tasks.values.take scanLimit).filterMap fun record =>
    match marks.find? fun mark => mark.1 == record.id with
    | none => none
    | some (_, restart) =>
      if !live record || (record.abortRequested && (record.abortReason.isNone || restart)) then none
      else some (marked restart record))

/-- The marks of `abort_conversation_pass`. -/
def abortConversation (committed : StorageState) (conversation : ConversationId)
    (background : Bool) : Expected Callback := do
  let tasks := committed.tasks.values.take scanLimit
  let conversations ← committed.scanConversations scanLimit
  let reached ← present ((OwnershipIndex.of tasks conversations).reachable conversation background)
    "The walk does not end"
  write committed (reached.filterMap fun id =>
    match tasks.find? fun record => record.id == id with
    | none => none
    | some record =>
      if !live record || (record.abortRequested && record.abortReason.isNone) then none
      else some (marked false record))

/-- The tasks that a pass of the scheduler sees. -/
structure World where
  tasks : List TaskRecord
  index : OwnershipIndex

/-- `load_world`: the first 1024 tasks and conversations of the tables. -/
def loadWorld (seen : StorageState) : Expected World := do
  let tasks := seen.tasks.values.take scanLimit
  let conversations ← seen.scanConversations scanLimit
  return ⟨tasks, OwnershipIndex.of tasks conversations⟩

/-- The tasks that a round of `finalize_completing` finds ready in the tables it read. -/
def readyToFinalize (seen : StorageState) : Expected (List TaskId) := do
  let world ← loadWorld seen
  return ((world.tasks.filter fun record => record.state.status == completing).filter fun record =>
    world.index.ownedLive record.id == some []).map TaskRecord.id

/-- The commit of `finalize_completing`, with the tables that its round had read. -/
def finalize (committed seen : StorageState) (now : Int) : Expected Callback := do
  let ready ← readyToFinalize seen
  write committed (((committed.tasks.values.take scanLimit).filter fun record =>
    ready.contains record.id && record.state.status == completing).map fun record =>
      { record with
        state := { record.state with status := terminal }
        endedAt := some (record.endedAt.getD now) })

/-- The resume of `schedule_step`. -/
def resume (committed : StorageState) (id : TaskId) : Expected Callback := match committed.tasks.find id with
  | none => write committed []
  | some record =>
    if record.state.status = waiting then
      write committed [{ record with
        state := { record.state with status := pending, on := [], policy := none } }]
    else write committed []

/-- What `resolve_task` found for a record: it may have been migrated. -/
structure Resolved where
  version : Int
  input : Json
  checkpoint : Option Json

def resolvedRecord (record : TaskRecord) (resolved : Resolved) : TaskRecord := { record with
    version := resolved.version
    input := resolved.input
    state := { record.state with checkpoint := resolved.checkpoint } }

/-- The reservation of `schedule_step`. -/
def reserve (committed : StorageState) (id : TaskId) (resolved : Resolved) (now : Int) : Expected Callback :=
  match committed.tasks.find id with
  | none => write committed []
  | some record =>
    if !live record || (record.state.status != pending && !record.abortRequested) then write committed []
    else
      let next := resolvedRecord record resolved
      write committed [{ next with
        state := { next.state with status := running }
        startedAt := some (record.startedAt.getD now) }]

/-- The migration of `run_task_execution` before an abort handler. -/
def migrate (committed : StorageState) (id : TaskId) (resolved : Resolved) : Expected Callback :=
  match committed.tasks.find id with
  | none => write committed []
  | some record => write committed [resolvedRecord record resolved]

/-- The return of a task to another definition in `run_task_execution`. -/
def returnTask (committed : StorageState) (id : TaskId) : Expected Callback := match committed.tasks.find id with
  | none => write committed []
  | some record =>
    if record.state.status = running then
      write committed [{ record with state := { record.state with status := pending } }]
    else write committed []

/-! ## Runs -/

/-- A commit that writes tasks. A step that mints stands for every other identity of the Session,
those of failed transactions included. -/
inductive Step where
  | commitWith (id : TaskId) (allowAbort abortInvocation : Bool) (creations : List Creation)
      (next : Option NextTaskState) (now : Int)
  | memo (id : TaskId) (allowAbort keep : Bool) (key : Bytes) (candidate : Json)
  | create (creations : List Creation)
  | mint
  | openTasks
  | markAbandoned (ids : List TaskId)
  | settleOrphaned (id : TaskId) (reason : Bytes) (now : Int)
  | settleFaulted (id : TaskId) (message : Bytes) (now : Int)
  | abortTask (id : TaskId) (orphanReason : Option Bytes) (now : Int)
  | markAll (marks : List (TaskId × Bool))
  | abortConversation (conversation : ConversationId) (background : Bool)
  | finalize (seen : StorageState) (now : Int)
  | resume (id : TaskId)
  | reserve (id : TaskId) (resolved : Resolved) (now : Int)
  | migrate (id : TaskId) (resolved : Resolved)
  | returnTask (id : TaskId)

def callback (s : StorageState) : Step → Expected Callback
  | .commitWith id allowAbort abortInvocation creations next now =>
    commitWith s id allowAbort abortInvocation creations next now
  | .memo id allowAbort keep key candidate => memo s id allowAbort keep key candidate
  | .create creations => do
      let staged ← createAll { tables := s } creations
      return ⟨staged, []⟩
  | .mint => .ok ⟨{ tables := s.reserveId.1 }, []⟩
  | .openTasks => openTasks s
  | .markAbandoned ids => markAbandoned s ids
  | .settleOrphaned id reason now => settle s id (orphaned reason) now
  | .settleFaulted id message now => settle s id (faulted message) now
  | .abortTask id orphanReason now => abortTask s id orphanReason now
  | .markAll marks => markAll s marks
  | .abortConversation conversation background => abortConversation s conversation background
  | .finalize seen now => finalize s seen now
  | .resume id => resume s id
  | .reserve id resolved now => reserve s id resolved now
  | .migrate id resolved => migrate s id resolved
  | .returnTask id => returnTask s id

/-- A commit: a failed one changes nothing. -/
def commit (s : StorageState) (step : Step) : StorageState := match callback s step >>= assemble s with
  | .ok t => t
  | .error _ => s

/-- The tables of a new Session: the root conversation. -/
def initial : StorageState := { conversations := OrdMap.empty.insert 1 { id := 1 }, conversationIds := [1] }

def run (s : StorageState) (steps : List Step) : StorageState := steps.foldl commit s

/-- Every commit of a run meets a condition on the tables it starts from. -/
def RunMeets (G : StorageState → Step → Prop) : StorageState → List Step → Prop
  | _, [] => True
  | s, step :: rest => G s step ∧ RunMeets G (commit s step) rest

instance decidableRunMeets (G : StorageState → Step → Prop) [∀ s step, Decidable (G s step)] :
    (s : StorageState) → (steps : List Step) → Decidable (RunMeets G s steps)
  | _, [] => isTrue trivial
  | s, step :: rest =>
    have := decidableRunMeets G (commit s step) rest
    inferInstanceAs (Decidable (G s step ∧ RunMeets G (commit s step) rest))

end Tasks

end CodingHarness.Durable
