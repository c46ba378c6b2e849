import CodingHarness.Mcp.Protocol
import CodingHarness.Mcp.Framing

/-!
# The stdio client

`StdioClientImpl` runs on one executor: its pump is a coroutine that gives control back at the reads
and writes of the child's pipes, and calls of the owner, timers and completed operations run in
between. A state holds the fields of the client and the place at which the pump waits; an `Action` is
one call, one completed operation, or one stretch of the pump.

`pumping_` and `idle_reading_` are read off the place of the pump. The log, newest event first, is the
history that the properties speak about; the client does not read it, with one exception: the
coroutine of `connect_impl` learns the outcome of the first request from it.
-/

namespace CodingHarness.Mcp

open Library Support

/-! ## States -/

/-- `QueuedFrame`: a request with its progress observer, or a notification. -/
structure QueuedFrame where
  frame : Frame
  onProgress : Bool
  deriving DecidableEq

def QueuedFrame.id (item : QueuedFrame) : Nat := item.frame.id

def QueuedFrame.isNotification (item : QueuedFrame) : Bool := !item.frame.isRequest

/-- What `async_read_some` completes with. -/
inductive ReadResult where
  | data (chunk : Bytes)
  | endOfFile
  | aborted
  | failed
  deriving DecidableEq

/-- Why `read_line` returned no line: `closed_`, `last_read_timed_out_` or `last_read_woken_`. -/
inductive LineEnd where
  | closed
  | timedOut
  | woken
  deriving DecidableEq

/-- Where the reading side of the pump waits. A completed read keeps its result until the pump runs
again; `timedOut` is the flag of its timer. -/
inductive Stage where
  | start
  | reading (timedOut : Bool) (completion : Option ReadResult)
  | handling (id : Json)
  | replying (message : Json)
  | cancelling (failure : Failure)
  | draining
  deriving DecidableEq

/-- Whose read it is: the idle read, the response to the `initialize` of a reconnect that a popped
frame waits for, or the response to a written request. -/
inductive Reader where
  | idle
  | connect (item : QueuedFrame) (id : Nat)
  | serve (item : QueuedFrame)
  deriving DecidableEq

/-- The request id whose response is awaited; 0 for the idle read. -/
def Reader.id : Reader → Nat
  | .idle => 0
  | .connect _ id => id
  | .serve item => item.id

/-- Where the pump waits. -/
inductive Phase where
  | stopped
  | top
  | greeting (item : QueuedFrame) (id : Nat)
  | writing (item : QueuedFrame)
  | reader (who : Reader) (stage : Stage)
  deriving DecidableEq

/-- The coroutine of `connect_impl`: the owner has the client only after it. -/
inductive Owner where
  | connecting
  | refused
  | handed
  deriving DecidableEq

/-- What happened. `sent` is a queued frame that was written, `wrote` any other frame; `accepted` names
the requests that wait when an initialize result is accepted. -/
inductive Event where
  | spawned
  | queued (frame : Frame)
  | sent (frame : Frame)
  | wrote (frame : Frame)
  | accepted (waiting : List Nat)
  | read (awaited : Nat) (message : Json)
  | asked (id : Nat)
  | settled (id : Nat) (outcome : Outcome)
  deriving DecidableEq

/-- `StdioClientImpl`. -/
structure Client where
  withRoots : Bool
  requestHandlers : List Bytes
  queue : List QueuedFrame := []
  cancelled : List Nat := []
  readBuffer : Bytes := []
  discardingOversizeFrame : Bool := false
  nextId : Nat := 1
  currentId : Nat := 0
  awaitingId : Nat := 0
  stderrEof : Bool := false
  closed : Bool := false
  closing : Bool := false
  serverInstructions : Option Bytes := none
  serverCapabilities : JsonObject Json := []
  phase : Phase := .stopped
  owner : Owner := .connecting
  log : List Event := []
  deriving DecidableEq

namespace Client

/-! ## The queue -/

/-- `start_pump`: wake the idle read; start a pump that is not running. -/
def startPump (s : Client) : Client := match s.phase with
  | .reader .idle (.reading timedOut none) =>
    { s with phase := .reader .idle (.reading timedOut (some .aborted)) }
  | .stopped => if !s.queue.isEmpty || !s.closed then { s with phase := .top } else s
  | _ => s

theorem startPump_eq (s : Client) : ∃ phase, s.startPump = { s with phase := phase } := by
  unfold startPump
  repeat' split
  all_goals exact ⟨_, rfl⟩

/-- A frame waits for the writer behind the others. -/
def enqueueFrame (s : Client) (item : QueuedFrame) : Client :=
  { s with queue := s.queue ++ [item], log := .queued item.frame :: s.log }.startPump

/-- `notify`: a closed client drops it. -/
def notify (s : Client) (method : Bytes) (params : Option Json) : Client :=
  if s.closed then s else s.enqueueFrame ⟨.notification method params, false⟩

theorem notify_cases (s : Client) (method : Bytes) (params : Option Json) :
    (s.closed = true ∧ s.notify method params = s) ∨ (s.closed = false ∧ ∃ phase, s.notify method params = { s with
        queue := s.queue ++ [⟨.notification method params, false⟩]
        log := .queued (.notification method params) :: s.log, phase := phase }) := by
  unfold notify
  split
  · rename_i hclosed
    exact .inl ⟨hclosed, rfl⟩
  · rename_i hclosed
    exact .inr ⟨Bool.eq_false_iff.2 hclosed, startPump_eq _⟩

/-- `request`; a call that fails at once changes nothing. -/
def request (s : Client) (method : Bytes) (params : Option Json) (onProgress stopped : Bool) : Client :=
  if s.closing || stopped then s
  else
    let params := if onProgress then some (withProgressToken params s.nextId) else params
    { s with nextId := s.nextId + 1 }.enqueueFrame ⟨.request s.nextId method params, onProgress⟩

/-- `complete_frame`, after which the pump takes the next frame. -/
def completeFrame (s : Client) (item : QueuedFrame) (outcome : Outcome) : Client :=
  if item.isNotification then { s with phase := .top }
  else { s with
    phase := .top, cancelled := s.cancelled.filter (· ≠ item.id)
    log := .settled item.id outcome :: s.log }

/-- The pump on a popped frame while the connection is up. -/
def serveFrame (s : Client) (item : QueuedFrame) : Client :=
  if !item.isNotification && s.cancelled.contains item.id then s.completeFrame item (.error .cancelled)
  else { s with
    phase := .writing item, currentId := if item.isNotification then s.currentId else item.id }

/-- `reconnect_transport` up to the write of its `initialize`. -/
def reconnectTransport (s : Client) (item : QueuedFrame) (spawned : Bool) : Client := if spawned then { s with
    readBuffer := [], discardingOversizeFrame := false, closed := false, nextId := s.nextId + 1
    phase := .greeting item s.nextId, log := .spawned :: s.log }
  else { s with readBuffer := [], discardingOversizeFrame := false, closed := true }.completeFrame item
    (.error (.reconnecting (.transport "spawn failed")))

/-- The requests among the frames that are not cancelled. -/
def waiting (s : Client) (items : List QueuedFrame) : List Nat :=
  (items.filter fun item => !item.isNotification && !s.cancelled.contains item.id).map (·.id)

/-! ## Reading -/

/-- The fields that `read_line` scans. -/
def lineReader (s : Client) : LineReader where
  readBuffer := s.readBuffer
  discardingOversizeFrame := s.discardingOversizeFrame

/-- The client with what `read_line` left of its input. -/
def withReader (s : Client) (reader : LineReader) : Client :=
  { s with readBuffer := reader.readBuffer, discardingOversizeFrame := reader.discardingOversizeFrame }

/-- The reader goes on after a message that is not the awaited one. -/
def again (s : Client) (who : Reader) : Client := { s with phase := match who with
    | .idle => .top
    | _ => .reader who .start }

/-- `await_response` has returned. -/
def finish (s : Client) : Reader → Outcome → Client
  | .idle, _ => { s with phase := .top }
  | .serve item, outcome => { s with awaitingId := 0, currentId := 0 }.completeFrame item outcome
  | .connect item _, .error failure =>
    { s with closed := true }.completeFrame item (.error (.reconnecting failure))
  | .connect item _, .ok result =>
    match validateInitializeResult result with
    | .error failure => { s with closed := true }.completeFrame item (.error (.reconnecting failure))
    | .ok _ =>
      ({ s with
        serverInstructions := initializeInstructions result
        serverCapabilities := initializeCapabilities result
        log := .accepted (s.waiting (item :: s.queue)) :: s.log
        }.notify "notifications/initialized" none).serveFrame item

/-- `dispatch_incoming`: a server request goes to its handler, a notification to the listener;
`none` for any other message. -/
def dispatchIncoming (s : Client) (who : Reader) (message : Json) : Option Client := do
  let object ← message.asObject
  let method ← jsonStringMember object "method"
  let serve (id : Json) : Client :=
    if s.requestHandlers.contains method then { s with phase := .reader who (.handling id) }
    else { s with phase := .reader who (.replying
      (errorResponse id (-32601) (ofString "Method not found: " ++ method))) }
  match jsonMember object "id" with
  | some (.number value) => some (serve (.number value))
  | some (.string text) => some (serve (.string text))
  | some _ => none
  | none => if jsonStringMember object "jsonrpc" = some (ofString "2.0") then some (s.again who) else none

/-- The progress observer of the awaited request takes a message. -/
def observes (who : Reader) (message : Json) : Bool := match who with
  | .serve item => item.onProgress && (progressTokenOf message).any (narrow · = item.id)
  | _ => false

/-- A line for a reader: a handler, a progress observer or the pending request takes it. -/
def received (s : Client) (who : Reader) (line : Bytes) : Client := match readJson line with
  | .error _ => s.again who
  | .ok message =>
    let s := { s with log := .read who.id message :: s.log }
    if observes who message then s.again who
    else match s.dispatchIncoming who message with
      | some t => t
      | none =>
        if who = .idle then s.again who
        else match responseForId message who.id with
          | .error failure => s.finish who (.error failure)
          | .ok none => s.again who
          | .ok (some result) => s.finish who (.ok result)

/-- `read_line` up to its next asynchronous read. -/
def readLine (s : Client) (who : Reader) : Client := match s.lineReader.scan with
  | (some line, reader) => (s.withReader reader).received who line
  | (none, reader) => { s.withReader reader with phase := .reader who (.reading false none) }

theorem dispatchIncoming_cases {s t : Client} {who : Reader} {message : Json}
    (h : s.dispatchIncoming who message = some t) : (∃ id, t = { s with phase := .reader who (.handling id) }) ∨
      (∃ reply, t = { s with phase := .reader who (.replying reply) }) ∨ t = s.again who := by
  simp only [dispatchIncoming, Option.bind_eq_bind, Option.bind_eq_some_iff] at h
  obtain ⟨object, -, method, -, h⟩ := h
  split at h
  · cases h
    split
    · exact .inl ⟨_, rfl⟩
    · exact .inr (.inl ⟨_, rfl⟩)
  · cases h
    split
    · exact .inl ⟨_, rfl⟩
    · exact .inr (.inl ⟨_, rfl⟩)
  · cases h
  · split at h
    · cases h
      exact .inr (.inr rfl)
    · cases h

/-- What `read_line` and the handling of its line can do to the client. -/
inductive Reads (who : Reader) (s : Client) : Client → Prop where
  | waits (buffer : Bytes) (discarding : Bool) :
      Reads who s { s with
        readBuffer := buffer, discardingOversizeFrame := discarding
        phase := .reader who (.reading false none) }
  | malformed (buffer : Bytes) : Reads who s ({ s with readBuffer := buffer }.again who)
  | skips (buffer : Bytes) (message : Json) :
      Reads who s ({ s with readBuffer := buffer, log := .read who.id message :: s.log }.again who)
  | handles (buffer : Bytes) (message id : Json) :
      Reads who s { s with
        readBuffer := buffer, log := .read who.id message :: s.log
        phase := .reader who (.handling id) }
  | replies (buffer : Bytes) (message reply : Json) :
      Reads who s { s with
        readBuffer := buffer, log := .read who.id message :: s.log
        phase := .reader who (.replying reply) }
  | answers (buffer : Bytes) (message : Json) (outcome : Outcome)
      (hanswer : ∀ result, outcome = .ok result → responseForId message who.id = .ok (some result)) :
      Reads who s ({ s with readBuffer := buffer, log := .read who.id message :: s.log }.finish who outcome)

theorem readLine_reads (s : Client) (who : Reader) : Reads who s (s.readLine who) := by
  unfold readLine
  split
  · rename_i line reader hscan
    obtain ⟨rest, rfl⟩ := LineReader.scan_found hscan
    change Reads who s (Client.received { s with readBuffer := rest } who line)
    unfold received
    split
    · exact .malformed rest
    rename_i message _
    dsimp only
    split
    · exact .skips rest message
    split
    · rename_i hdispatch
      obtain ⟨id, rfl⟩ | ⟨reply, rfl⟩ | rfl := dispatchIncoming_cases hdispatch
      · exact .handles rest message id
      · exact .replies rest message reply
      · exact .skips rest message
    split
    · exact .skips rest message
    split
    · exact .answers rest message _ nofun
    · exact .skips rest message
    · rename_i hresponse
      refine .answers rest message _ ?_
      rintro _ ⟨⟩
      exact hresponse
  · exact .waits _ _

/-- `read_line` returned no line. -/
def lineEnded (s : Client) (who : Reader) (reason : LineEnd) : Client :=
  if who = .idle then { s with phase := .top }
  else if s.cancelled.contains who.id then { s with phase := .reader who (.cancelling .cancelled) }
  else match reason with
    | .woken => { s with phase := .reader who .start }
    | .timedOut => { s with phase := .reader who (.cancelling .timeout) }
    | .closed =>
      if s.stderrEof then s.finish who (.error .closed) else { s with phase := .reader who .draining }

/-- A finished read: the end of the file closes the client, an aborted read ends the wait. -/
def readDone (s : Client) (who : Reader) (timedOut : Bool) : ReadResult → Client
  | .endOfFile | .failed => { s with closed := true }.lineEnded who .closed
  | .aborted => s.lineEnded who (if timedOut then .timedOut else .woken)
  | .data chunk => (s.withReader (s.lineReader.receive chunk)).readLine who

/-! ## The pump -/

/-- One stretch of the pump, up to its next wait. `spawned` is the outcome of a launch. -/
def pump (s : Client) (spawned : Bool) : Client := match s.phase with
  | .top =>
    match s.queue with
    | [] => if s.closed then { s with phase := .stopped } else s.readLine .idle
    | item :: rest =>
      let s := { s with queue := rest }
      if s.closing then s.completeFrame item (.error .closed)
      else if s.closed then s.reconnectTransport item spawned
      else s.serveFrame item
  | .reader who .start =>
    if s.cancelled.contains who.id then { s with phase := .reader who (.cancelling .cancelled) }
    else s.readLine who
  | .reader who (.reading timedOut (some result)) => s.readDone who timedOut result
  | _ => s

/-- A write completes; one that fails closes the client, a cancellation apart. -/
def written (s : Client) (ok : Bool) : Client := let failure := Failure.transport "stdin write failed"
  match s.phase with
  | .greeting item id =>
    if ok then { s with
      phase := .reader (.connect item id) .start
      log := .wrote (initializeFrame s.withRoots id) :: s.log }
    else { s with closed := true }.completeFrame item (.error (.reconnecting failure))
  | .writing item =>
    if !ok then { s with closed := true, currentId := 0 }.completeFrame item (.error failure)
    else if item.isNotification then { s with phase := .top, log := .sent item.frame :: s.log }
    else { s with
      phase := .reader (.serve item) .start, awaitingId := item.id
      log := .sent item.frame :: s.log }
  | .reader who (.replying message) =>
    if ok then { s with log := .wrote (.response message) :: s.log }.again who
    else { s with closed := true }.again who
  | .reader who (.cancelling failure) =>
    if ok then { s with log := .wrote (cancellationFrame who.id) :: s.log }.finish who (.error failure)
    else s.finish who (.error failure)
  | _ => s

/-- A handler of the owner answers a server request. -/
def handled (s : Client) (outcome : Except Bytes Json) : Client := match s.phase, outcome with
  | .reader who (.handling id), .ok result =>
    { s with phase := .reader who (.replying (resultResponse id result)) }
  | .reader who (.handling id), .error message =>
    { s with phase := .reader who (.replying (errorResponse id (-32603) message)) }
  | _, _ => s

/-- `drain_stderr` reaches the end. -/
def stderrEnded (s : Client) : Client := let s := { s with stderrEof := true }
  match s.phase with
  | .reader who .draining => s.finish who (.error .closed)
  | _ => s

/-- The outstanding read completes; a cancelled pipe completes it as aborted. -/
def completeRead (s : Client) (result : ReadResult) : Client := match s.phase with
  | .reader who (.reading timedOut none) => { s with phase := .reader who (.reading timedOut (some result)) }
  | _ => s

@[simp] theorem completeRead_log (s : Client) (result : ReadResult) : (s.completeRead result).log = s.log := by
  unfold completeRead
  split <;> rfl

/-- The timer of a reader fires: an outstanding read ends as aborted. -/
def deadline (s : Client) : Client := match s.phase with
  | .reader .idle _ => s
  | .reader who (.reading _ completion) =>
    { s with phase := .reader who (.reading true (some (completion.getD .aborted))) }
  | _ => s

/-! ## Calls -/

/-- The request is in flight or queued. -/
def requestPending (s : Client) (id : Nat) : Bool :=
  s.currentId == id || s.queue.any fun item => !item.isNotification && item.id == id

/-- `cancel_request`, posted for an id that `request` gave out. -/
def cancelRequest (s : Client) (id : Nat) : Client := if id = 0 ∨ s.nextId ≤ id then s
  else
    let s := { s with log := .asked id :: s.log }
    if s.closed || !s.requestPending id then s
    else
      let s := { s with cancelled := id :: s.cancelled }
      if s.awaitingId = id then s.completeRead .aborted else s

/-- `close`: the pump stops after its outstanding read. -/
def close (s : Client) : Client := { s with closing := true, closed := true }.completeRead .aborted

/-- The outcome of the first request, which `connect_impl` waits for. -/
def firstOutcome (s : Client) : Option Outcome := s.log.findSome? fun
    | .settled id outcome => if id = 1 then some outcome else none
    | _ => none

/-- `connect_impl` after its request has settled. -/
def resumeConnect (s : Client) (stopped : Bool) : Client := if s.owner ≠ .connecting then s
  else match s.firstOutcome with
    | none => s
    | some (.error _) => { s with owner := .refused }.close
    | some (.ok result) =>
      if stopped then { s with owner := .refused }.close
      else match validateInitializeResult result with
        | .error _ => { s with owner := .refused }
        | .ok _ =>
          { s with
            serverInstructions := initializeInstructions result
            serverCapabilities := initializeCapabilities result
            owner := .handed, log := .accepted (s.waiting s.queue) :: s.log
            }.notify "notifications/initialized" none

/-- A client whose first process is spawned and whose `initialize` is queued. -/
def connect (withRoots : Bool) : Client where
  withRoots := withRoots
  requestHandlers := (if withRoots then ["ping", "roots/list"] else ["ping"]).map ofString
  queue := [⟨initializeFrame withRoots 1, false⟩]
  nextId := 2
  phase := .top
  log := [.queued (initializeFrame withRoots 1), .spawned]

/-! ## Steps -/

end Client

/-- One thing that happens to a client. -/
inductive Action where
  | request (method : Bytes) (params : Option Json) (onProgress stopped : Bool)
  | notify (method : Bytes) (params : Option Json)
  | cancelRequest (id : Nat)
  | setNotificationListener
  | setRequestHandler (method : Bytes)
  | close
  | resumeConnect (stopped : Bool)
  | pump (spawned : Bool)
  | completeRead (result : ReadResult)
  | deadline
  | written (ok : Bool)
  | handled (outcome : Except Bytes Json)
  | stderrEnded

namespace Client

/-- The calls that need a client which was handed out. -/
def owned (s : Client) (t : Client) : Client := if s.owner = .handed then t else s

def step (s : Client) : Action → Client
  | .request method params onProgress stopped => s.owned (s.request method params onProgress stopped)
  | .notify method params => s.owned (s.notify method params)
  | .cancelRequest id => s.cancelRequest id
  | .setNotificationListener => s.owned s.startPump
  | .setRequestHandler method => s.owned { s with requestHandlers := method :: s.requestHandlers }
  | .close => s.close
  | .resumeConnect stopped => s.resumeConnect stopped
  | .pump spawned => s.pump spawned
  | .completeRead result => s.completeRead result
  | .deadline => s.deadline
  | .written ok => s.written ok
  | .handled outcome => s.handled outcome
  | .stderrEnded => s.stderrEnded

def run (s : Client) (actions : List Action) : Client := actions.foldl step s

theorem run_concat (s : Client) (actions : List Action) (action : Action) :
    s.run (actions ++ [action]) = (s.run actions).step action := by
  simp [run]

end Client

end CodingHarness.Mcp
