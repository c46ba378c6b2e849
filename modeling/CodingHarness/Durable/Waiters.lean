import CodingHarness.Durable.TaskWrites

/-!
# Waits for tasks and for idleness

`wait_for_task` and `wait_for_idle` register a waiter in a map under the lock of the scheduler. A waiter is
taken out of its map by a terminal publication, by a pass that finds its scope idle, or by the close
notification, and the taker then completes it outside the lock. Who completes a waiter is decided by one
atomic exchange, since the stop callback of the wait may be faster.

Every critical section, read, exchange and completion is a step of its own, so a run is any interleaving
of the calls, the takers, the stop callbacks and the commits. A thread is what an actor still has to do.
-/

namespace CodingHarness.Durable

open Library Support

namespace Waiters

abbrev WaitId := Nat

/-- What a wait is for: a task, or the idleness of a conversation or of all of them. -/
inductive Target where
  | task (id : TaskId)
  | idle (scope : Option ConversationId)
  deriving DecidableEq

/-- What a completion is called with. -/
inductive Result where
  | record (record : TaskRecord)
  | idle
  | cancelled
  | rejected (error : Error)

/-- Who has the completion of a wait: the call, before there is a waiter, or the waiter, or the actor that
won the exchange on it. A call that completes its wait itself is such an actor. -/
inductive Phase where
  | inCall
  | registered
  | claimed
  deriving DecidableEq

/-- A wait, with the stop request of its token, its stop callback and what its completion was called
with. -/
structure Wait where
  target : Target
  phase : Phase
  stopped : Bool := false
  hooked : Bool := false
  results : List Result := []

/-- What an actor still has to do. -/
inductive Thread where
  /-- `wait_for_idle` after its check of `wait_error`. -/
  | idleStop (w : WaitId)
  | idleTasks (w : WaitId)
  | idleConversations (w : WaitId) (tasks : List TaskRecord)
  | idleRegister (w : WaitId)
  | idleHook (w : WaitId)
  /-- `wait_for_task` after its registration. -/
  | taskHook (w : WaitId)
  /-- `settle_idle`. -/
  | settleTasks
  | settleConversations (tasks : List TaskRecord)
  | settleTake (index : Tasks.OwnershipIndex)
  /-- The completion of waiters that were taken. -/
  | drain (waiters : List WaitId) (result : Result)
  | calling (w : WaitId) (result : Result) (rest : List WaitId)

/-- What the actors share. -/
structure Shared where
  tables : StorageState := Tasks.initial
  waits : OrdMap WaitId Wait := .empty
  taskWaiters : List (TaskId × WaitId) := []
  idleWaiters : List (Option ConversationId × WaitId) := []
  waitError : Option Error := none

namespace Shared

def begins (s : Shared) (w : WaitId) (wait : Wait) : Shared := { s with waits := s.waits.insert w wait }

def update (s : Shared) (w : WaitId) (f : Wait → Wait) : Shared := match s.waits.find w with
  | none => s
  | some wait => { s with waits := s.waits.insert w (f wait) }

def enter (s : Shared) (w : WaitId) (phase : Phase) : Shared := s.update w fun wait => { wait with phase := phase }

/-- The exchange on a waiter is won once. -/
def open_ (s : Shared) (w : WaitId) : Bool := (s.waits.find w).any fun wait => wait.phase == .registered

def complete (s : Shared) (w : WaitId) (result : Result) : Shared :=
  s.update w fun wait => { wait with results := wait.results ++ [result] }

def hook (s : Shared) (w : WaitId) : Shared := s.update w fun wait => { wait with hooked := true }

end Shared

/-! ## Idleness -/

/-- `idle`. There is no answer when the walk does not end. -/
def idle (index : Tasks.OwnershipIndex) (conversation : ConversationId) : Option Bool := do
  let visited ← index.walkDown false (fun _ => true) index.rounds [.conversation conversation]
  return !visited.any fun record => !record.background && Tasks.live record

/-- `all_idle` over the conversations without an owner. -/
def allIdle (index : Tasks.OwnershipIndex) : List ConversationRecord → Option Bool
  | [] => some true
  | conversation :: rest =>
    if conversation.owner.isSome then allIdle index rest
    else do
      let one ← idle index conversation.id
      if one then allIdle index rest else return false

def idleScope (index : Tasks.OwnershipIndex) : Option ConversationId → Option Bool
  | some conversation => idle index conversation
  | none => allIdle index index.conversations.values

/-- The waiters whose scope is idle, and those that stay. -/
def takeIdle (index : Tasks.OwnershipIndex) : List (Option ConversationId × WaitId) →
      Option (List WaitId × List (Option ConversationId × WaitId))
  | [] => some ([], [])
  | (scope, w) :: rest => do
      let one ← idleScope index scope
      let (taken, kept) ← takeIdle index rest
      return if one then (w :: taken, kept) else (taken, (scope, w) :: kept)

/-! ## The calls -/

def Wait.scope (wait : Wait) : Option ConversationId := match wait.target with
  | .task _ => none
  | .idle scope => scope

/-- The critical section of `wait_for_task`. -/
def waitForTask (s : Shared) (w : WaitId) (id : TaskId) (stopped : Bool) : Shared × Thread :=
  let begun (phase : Phase) : Shared := s.begins w { target := .task id, phase := phase, stopped := stopped }
  match s.waitError with
  | some error => (begun .claimed, .calling w (.rejected error) [])
  | none =>
    match s.tables.task id with
    | .error error => (begun .claimed, .calling w (.rejected error) [])
    | .ok none =>
      (begun .claimed, .calling w (.rejected (validationError
        (ofString "Task " ++ intText id ++ ofString " does not exist"))) [])
    | .ok (some record) =>
      if !Tasks.live record then (begun .claimed, .calling w (.record record) [])
      else if stopped then (begun .claimed, .calling w .cancelled [])
      else ({ begun .registered with taskWaiters := s.taskWaiters ++ [(id, w)] }, .taskHook w)

/-- The first critical section of `wait_for_idle`. -/
def waitForIdle (s : Shared) (w : WaitId) (scope : Option ConversationId) (stopped : Bool) : Shared × Thread :=
  let begun (phase : Phase) : Shared := s.begins w { target := .idle scope, phase := phase, stopped := stopped }
  match s.waitError with
  | some error => (begun .claimed, .calling w (.rejected error) [])
  | none => (begun .inCall, .idleStop w)

/-! ## The threads -/

/-- The next step of a thread, and what is left of it. -/
def perform (s : Shared) : Thread → Shared × Option Thread
  | .idleStop w =>
    if (s.waits.find w).any Wait.stopped then (s.enter w .claimed, some (.calling w .cancelled []))
    else (s, some (.idleTasks w))
  | .idleTasks w =>
    match s.tables.scanTasks Tasks.scanLimit with
    | .error error => (s.enter w .claimed, some (.calling w (.rejected error) []))
    | .ok tasks => (s, some (.idleConversations w tasks))
  | .idleConversations w tasks =>
    match s.tables.scanConversations Tasks.scanLimit with
    | .error error => (s.enter w .claimed, some (.calling w (.rejected error) []))
    | .ok conversations =>
      match idleScope (.of tasks conversations) ((s.waits.find w).bind Wait.scope) with
      | none => (s, some (.idleConversations w tasks))
      | some true => (s.enter w .claimed, some (.calling w .idle []))
      | some false => (s, some (.idleRegister w))
  | .idleRegister w =>
    ({ s.enter w .registered with
        idleWaiters := s.idleWaiters ++ [((s.waits.find w).bind Wait.scope, w)] },
      some (.idleHook w))
  | .idleHook w => (s.hook w, some .settleTasks)
  | .taskHook w => (s.hook w, none)
  | .settleTasks =>
    match s.tables.scanTasks Tasks.scanLimit with
    | .error _ => (s, none)
    | .ok tasks => (s, some (.settleConversations tasks))
  | .settleConversations tasks =>
    match s.tables.scanConversations Tasks.scanLimit with
    | .error _ => (s, none)
    | .ok conversations => (s, some (.settleTake (.of tasks conversations)))
  | .settleTake index =>
    match takeIdle index s.idleWaiters with
    | none => (s, some (.settleTake index))
    | some (taken, kept) => ({ s with idleWaiters := kept }, some (.drain taken .idle))
  | .drain [] _ => (s, none)
  | .drain (w :: rest) result =>
    if s.open_ w then (s.enter w .claimed, some (.calling w result rest))
    else (s, some (.drain rest result))
  | .calling w result rest => (s.complete w result, some (.drain rest result))

/-! ## Runs -/

/-- The actors and what they share. -/
structure State where
  shared : Shared := {}
  threads : List Thread := []

/-- A step. -/
inductive Step where
  | commit (step : Tasks.Step)
  | closeStorage
  | waitForTask (w : WaitId) (id : TaskId) (stopped : Bool)
  | waitForIdle (w : WaitId) (scope : Option ConversationId) (stopped : Bool)
  | requestStop (w : WaitId)
  | cancel (w : WaitId)
  | notify (id : TaskId)
  | settle
  | close (error : Error)
  | run (i : Nat)

/-- The critical section of `notify_waiters`. The record of a terminal task does not change any more, so
the published one is the stored one. -/
def notify (s : Shared) (id : TaskId) : Shared × Option Thread := match s.tables.tasks.find id with
  | none => (s, none)
  | some record =>
    if Tasks.live record then (s, none)
    else
      ({ s with taskWaiters := s.taskWaiters.filter fun waiter => waiter.1 != id },
        some (.drain ((s.taskWaiters.filter fun waiter => waiter.1 == id).map Prod.snd) (.record record)))

/-- The critical section of the close notification. -/
def close (s : Shared) (error : Error) : Shared × Thread :=
  ({ s with waitError := some error, taskWaiters := [], idleWaiters := [] },
    .drain (s.taskWaiters.map Prod.snd ++ s.idleWaiters.map Prod.snd) (.rejected error))

/-- One step: a call of a wait that exists, and a callback that is not installed or not due, are none. -/
def step (s : State) : Step → State
  | .commit change =>
    if s.shared.tables.closed then s
    else { s with shared := { s.shared with tables := Tasks.commit s.shared.tables change } }
  | .closeStorage => { s with shared := { s.shared with tables := s.shared.tables.close } }
  | .waitForTask w id stopped =>
    if s.shared.waits.contains w then s
    else
      let (shared, thread) := waitForTask s.shared w id stopped
      ⟨shared, s.threads ++ [thread]⟩
  | .waitForIdle w scope stopped =>
    if s.shared.waits.contains w then s
    else
      let (shared, thread) := waitForIdle s.shared w scope stopped
      ⟨shared, s.threads ++ [thread]⟩
  | .requestStop w =>
    { s with shared := s.shared.update w fun wait => { wait with stopped := true } }
  | .cancel w =>
    if ((s.shared.waits.find w).any fun wait => wait.stopped && wait.hooked) && s.shared.open_ w then
      ⟨s.shared.enter w .claimed, s.threads ++ [.calling w .cancelled []]⟩
    else s
  | .notify id =>
    let (shared, thread) := notify s.shared id
    ⟨shared, s.threads ++ thread.toList⟩
  | .settle => { s with threads := s.threads ++ [.settleTasks] }
  | .close error =>
    let (shared, thread) := close s.shared error
    ⟨shared, s.threads ++ [thread]⟩
  | .run i =>
    match s.threads[i]? with
    | none => s
    | some thread =>
      let (shared, next) := perform s.shared thread
      ⟨shared, s.threads.take i ++ next.toList ++ s.threads.drop (i + 1)⟩

def runSteps (s : State) (steps : List Step) : State := steps.foldl step s

end Waiters

end CodingHarness.Durable
