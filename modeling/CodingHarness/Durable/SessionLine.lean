import CodingHarness.Library.Moves

/-!
# The Session line

`pump_line`, the jobs it runs and the close of a Session, as a machine. Job callbacks, completions,
observers, close listeners and the Storage are code outside the line that may call back into the
Session at any time, so a state holds the stack of calls in progress. `proceed` lets the Session's own
code on top of the stack go on; every other move is one of the outside, which has control when the
stack is empty or when the call on top is its own. The mutation line is held across every call, so
there is one stack.

`admitted`, `started`, `completed`, `rejected` and `storageCloses` record the jobs that joined the
line, whose callbacks ran, whose completions were called and which of these were rejected from the
queue, in order, and the calls of `Storage::close`; the program does not keep them.
-/

namespace CodingHarness.Durable

open Library

/-! ## States -/

/-- The two alternatives of `PendingLineJob`. -/
inductive JobKind where
  | commit
  | read
  deriving DecidableEq

/-- `PendingLineJob`, by its place in admission order. -/
structure LineJob where
  id : Nat
  kind : JobKind
  deriving DecidableEq

/-- Where `pump_line` is: at the head of its loop, after a job has been started, behind the loop, or
behind the rejection that follows it. -/
inductive PumpPhase where
  | head
  | tail
  | exit
  | done
  deriving DecidableEq

/-- A call in progress. -/
inductive LineFrame where
  | pump (phase : PumpPhase)
  /-- `reject_pending_line`. -/
  | reject
  /-- The completion of a rejected job. -/
  | rejecting (job : LineJob)
  /-- The callback of the job whose turn it is. -/
  | callback (job : LineJob)
  /-- `Storage::commit` and the start of its result. -/
  | storage
  /-- The observers and close listeners that `CommitState::settle` calls. -/
  | settling (job : LineJob)
  /-- The completion of the job whose turn it is. -/
  | completing (job : LineJob)
  /-- A call of `finish_close_if_ready` that follows the call above. -/
  | finish
  | storageClose
  /-- A completion of `close`, with the number of those still to call. -/
  | closer (left : Nat)
  | closeListeners
  /-- `close_cleanup` behind `notify_close`. -/
  | closing
  deriving DecidableEq

/-- `Session::Impl`, as far as the line uses it; `awaiting` is the commit that Storage has not
settled. -/
structure SessionLine where
  pending : List LineJob := []
  closed : Bool := false
  closeNotified : Bool := false
  storageClosed : Bool := false
  failed : Bool := false
  lineActive : Bool := false
  pumping : Bool := false
  closeFinishing : Bool := false
  pumpRequested : Bool := false
  closeCompletions : Nat := 0
  awaiting : Option LineJob := none
  stack : List LineFrame := []
  admitted : Nat := 0
  started : List Nat := []
  completed : List Nat := []
  rejected : List Nat := []
  storageCloses : Nat := 0
  deriving DecidableEq

namespace SessionLine

variable (w : SessionLine)

/-! ## The Session's code -/

/-- `pump_line` up to its loop. -/
def pumpLine : SessionLine := if w.pumping then { w with pumpRequested := true }
  else { w with pumping := true, stack := .pump .head :: w.stack }

/-- `enqueue_line` for the next job. -/
def enqueueLine (kind : JobKind) : SessionLine := { w with
    pending := w.pending ++ [⟨w.admitted, kind⟩]
    admitted := w.admitted + 1 : SessionLine }.pumpLine

/-- The call of a completion of the line. -/
def complete (job : LineJob) : SessionLine :=
  { w with completed := w.completed ++ [job.id], stack := .completing job :: w.stack }

/-- The completions of `close` that wait, one after another. -/
def callClosers : SessionLine := match w.closeCompletions with
  | 0 => w
  | left + 1 => { w with closeCompletions := 0, stack := .closer left :: w.stack }

/-- `finish_close_if_ready`, with `close_storage`. -/
def finishCloseIfReady : SessionLine :=
  if !w.closed || w.closeFinishing || w.pumping || w.lineActive || !w.pending.isEmpty then w
  else if w.storageClosed then { w with closeFinishing := true : SessionLine }.callClosers
  else
    { w with
      closeFinishing := true
      storageClosed := true
      storageCloses := w.storageCloses + 1
      stack := .storageClose :: w.stack }

/-- `CommitState::settle` up to the code it calls: `fail` when Storage did not commit or the adoption
failed, with the close listeners once, and the observers otherwise. -/
def settle (job : LineJob) (committed : Bool) : SessionLine :=
  let settled : SessionLine := { w with awaiting := none }
  if committed then { settled with stack := .settling job :: w.stack }
  else if w.failed then settled.complete job
  else if w.closeNotified then { settled with failed := true, closed := true : SessionLine }.complete job
  else
    { settled with
      failed := true
      closed := true
      closeNotified := true
      stack := .settling job :: w.stack }

/-- `close_cleanup` up to `notify_close`. -/
def closeCleanup : SessionLine := if w.closeNotified then { w with closed := true, stack := .closing :: w.stack }
  else
    { w with closed := true, closeNotified := true, stack := .closeListeners :: .closing :: w.stack }

/-- One round of the Session's code on top of the stack. -/
def proceed : Option SessionLine := match w.stack with
  | .pump .head :: rest =>
    match w.pending with
    | [] => some { w with pumpRequested := false, stack := .pump .exit :: rest }
    | job :: later =>
      if w.lineActive then some { w with pumpRequested := false, stack := .pump .exit :: rest }
      else if w.failed then
        some { w with pumpRequested := false, stack := .reject :: .pump .exit :: rest }
      else
        some { w with
          pumpRequested := false
          lineActive := true
          pending := later
          started := w.started ++ [job.id]
          stack := .callback job :: .pump .tail :: rest }
  | .pump .tail :: rest =>
    if w.pumpRequested && !w.lineActive then some { w with stack := .pump .head :: rest }
    else some { w with stack := .pump .exit :: rest }
  | .pump .exit :: rest =>
    if w.failed then some { w with pumping := false, stack := .reject :: .pump .done :: rest }
    else some { w with pumping := false, stack := .pump .done :: rest }
  | .pump .done :: rest => some { w with stack := rest : SessionLine }.finishCloseIfReady
  | .reject :: rest =>
    match w.pending with
    | [] => some { w with stack := rest }
    | job :: later =>
      some { w with
        pending := later
        completed := w.completed ++ [job.id]
        rejected := w.rejected ++ [job.id]
        stack := .rejecting job :: .reject :: rest }
  | .finish :: rest => some { w with stack := rest : SessionLine }.finishCloseIfReady
  | .closing :: rest => some { w with stack := .finish :: rest : SessionLine }.pumpLine
  | _ => none

/-- The call of outside code on top of the stack returns; a commit's callback with a batch to store or
without (`stored`). -/
def returned (stored : Bool) : Option SessionLine := match w.stack with
  | .callback job :: rest =>
    if job.kind = .commit ∧ stored = true then
      some { w with awaiting := some job, stack := .storage :: rest }
    else some ({ w with stack := rest : SessionLine }.complete job)
  | .settling job :: rest => some ({ w with stack := rest : SessionLine }.complete job)
  | .completing job :: rest =>
    let ended : SessionLine := { w with lineActive := false, pumpRequested := true, stack := rest }
    match job.kind with
    | .read => some ended
    | .commit =>
      if w.pumping then some ended.finishCloseIfReady
      else some { ended with stack := .finish :: rest : SessionLine }.pumpLine
  | .storageClose :: rest => some { w with stack := rest : SessionLine }.callClosers
  | .closer (left + 1) :: rest => some { w with stack := .closer left :: rest }
  | .closer 0 :: rest | .storage :: rest | .rejecting _ :: rest | .closeListeners :: rest =>
    some { w with stack := rest }
  | _ => none

/-! ## Moves -/

/-- The Session's code on top of the stack goes on, or the outside makes a call. -/
inductive LineMove where
  | proceed
  | accept (kind : JobKind)
  | settle (committed : Bool)
  | close
  | awaitClose
  | return (stored : Bool)

def outsideTurn : List LineFrame → Bool
  | [] => true
  | .pump _ :: _ | .reject :: _ | .finish :: _ | .closing :: _ => false
  | _ => true

/-- One move. A refused admission is rejected at once and does not join the line; the completion that
`close` returns waits unless Storage is closed. -/
def step : LineMove → Option SessionLine
  | .proceed => w.proceed
  | .accept kind =>
    if outsideTurn w.stack then
      if w.failed || w.closed then some w else some (w.enqueueLine kind)
    else none
  | .settle committed =>
    if outsideTurn w.stack then w.awaiting.map fun job => w.settle job committed else none
  | .close => if outsideTurn w.stack then some w.closeCleanup else none
  | .awaitClose =>
    if outsideTurn w.stack && w.closed then
      if w.storageClosed then some w
      else some { w with closeCompletions := w.closeCompletions + 1 }
    else none
  | .return stored => w.returned stored

/-! ## What a move does -/

/-- A call whose return leaves nothing to do. -/
def LineFrame.Plain : LineFrame → Prop
  | .storage | .rejecting _ | .closeListeners | .closer _ | .storageClose => True
  | .pump .done | .finish => True
  | _ => False

/-- The branches of a move. -/
inductive LineChange : SessionLine → SessionLine → Prop where
  | idle {w : SessionLine} {rest : List LineFrame} (hstack : w.stack = .pump .head :: rest)
      (hidle : w.lineActive = true ∨ w.pending = []) :
      LineChange w { w with pumpRequested := false, stack := .pump .exit :: rest }
  | refuse {w : SessionLine} {rest : List LineFrame} (hstack : w.stack = .pump .head :: rest)
      (hactive : w.lineActive = false) (hfailed : w.failed = true) :
      LineChange w { w with pumpRequested := false, stack := .reject :: .pump .exit :: rest }
  | start {w : SessionLine} {rest : List LineFrame} {job : LineJob} {later : List LineJob}
      (hstack : w.stack = .pump .head :: rest) (hactive : w.lineActive = false)
      (hfailed : w.failed = false) (hpending : w.pending = job :: later) :
      LineChange w
        { w with
          pumpRequested := false
          lineActive := true
          pending := later
          started := w.started ++ [job.id]
          stack := .callback job :: .pump .tail :: rest }
  | again {w : SessionLine} {rest : List LineFrame} (hstack : w.stack = .pump .tail :: rest) :
      LineChange w { w with stack := .pump .head :: rest }
  | stop {w : SessionLine} {rest : List LineFrame} (hstack : w.stack = .pump .tail :: rest)
      (hstop : w.pumpRequested = false ∨ w.lineActive = true) :
      LineChange w { w with stack := .pump .exit :: rest }
  | leave {w : SessionLine} {rest : List LineFrame} (hstack : w.stack = .pump .exit :: rest)
      (hfailed : w.failed = false) :
      LineChange w { w with pumping := false, stack := .pump .done :: rest }
  | leaveFailed {w : SessionLine} {rest : List LineFrame} (hstack : w.stack = .pump .exit :: rest)
      (hfailed : w.failed = true) :
      LineChange w { w with pumping := false, stack := .reject :: .pump .done :: rest }
  | drained {w : SessionLine} {rest : List LineFrame} (hstack : w.stack = .reject :: rest)
      (hpending : w.pending = []) : LineChange w { w with stack := rest }
  | reject {w : SessionLine} {rest : List LineFrame} {job : LineJob} {later : List LineJob}
      (hstack : w.stack = .reject :: rest) (hpending : w.pending = job :: later) :
      LineChange w
        { w with
          pending := later
          completed := w.completed ++ [job.id]
          rejected := w.rejected ++ [job.id]
          stack := .rejecting job :: .reject :: rest }
  | pop {w : SessionLine} {rest : List LineFrame} {frame : LineFrame}
      (hstack : w.stack = frame :: rest) (hplain : LineFrame.Plain frame) :
      LineChange w { w with stack := rest }
  | shut {w : SessionLine} {rest : List LineFrame} {frame : LineFrame}
      (hstack : w.stack = frame :: rest) (hplain : LineFrame.Plain frame) :
      LineChange w { w with stack := rest : SessionLine }.finishCloseIfReady
  | closers {w : SessionLine} {rest : List LineFrame} {frame : LineFrame} {left waiting : Nat}
      (hstack : w.stack = frame :: rest) (hplain : LineFrame.Plain frame) :
      LineChange w { w with closeCompletions := waiting, stack := .closer left :: rest }
  | closing {w : SessionLine} {rest : List LineFrame} (hstack : w.stack = .closing :: rest) :
      LineChange w { w with stack := .finish :: rest : SessionLine }.pumpLine
  | store {w : SessionLine} {rest : List LineFrame} {job : LineJob}
      (hstack : w.stack = .callback job :: rest) (hkind : job.kind = .commit) :
      LineChange w { w with awaiting := some job, stack := .storage :: rest }
  | answer {w : SessionLine} {rest : List LineFrame} {job : LineJob}
      (hstack : w.stack = .callback job :: rest ∨ w.stack = .settling job :: rest) :
      LineChange w ({ w with stack := rest : SessionLine }.complete job)
  | overRead {w : SessionLine} {rest : List LineFrame} {job : LineJob}
      (hstack : w.stack = .completing job :: rest) (hkind : job.kind = .read) :
      LineChange w { w with lineActive := false, pumpRequested := true, stack := rest }
  | overPumped {w : SessionLine} {rest : List LineFrame} {job : LineJob}
      (hstack : w.stack = .completing job :: rest) (hpumping : w.pumping = true) :
      LineChange w { w with lineActive := false, pumpRequested := true, stack := rest }
  | overIdle {w : SessionLine} {rest : List LineFrame} {job : LineJob}
      (hstack : w.stack = .completing job :: rest) (hpumping : w.pumping = false) :
      LineChange w
        { w with
          lineActive := false
          pumpRequested := true
          stack := .finish :: rest : SessionLine }.pumpLine
  | ignore {w : SessionLine} : LineChange w w
  | accept {w : SessionLine} (hturn : outsideTurn w.stack = true) (hfailed : w.failed = false)
      (hclosed : w.closed = false) (kind : JobKind) : LineChange w (w.enqueueLine kind)
  | settle {w : SessionLine} {job : LineJob} (hturn : outsideTurn w.stack = true)
      (hawaiting : w.awaiting = some job) (committed : Bool) : LineChange w (w.settle job committed)
  | close {w : SessionLine} (hturn : outsideTurn w.stack = true) : LineChange w w.closeCleanup
  | awaitClose {w : SessionLine} : LineChange w { w with closeCompletions := w.closeCompletions + 1 }

variable {w} {w' : SessionLine}

theorem finishCloseIfReady_of_pumping (h : w.pumping = true) : w.finishCloseIfReady = w := by
  rw [finishCloseIfReady, h]
  simp

/-- `finish_close_if_ready` does nothing, or closes Storage and calls what waits for it. -/
theorem finishCloseIfReady_cases (w : SessionLine) : w.finishCloseIfReady = w ∨
      (w.closed = true ∧ w.closeFinishing = false ∧ w.pumping = false ∧ w.lineActive = false ∧ w.pending = [] ∧
        ((w.storageClosed = true ∧ ∃ (waiting : Nat) (more : Option Nat), w.finishCloseIfReady = { w with
                  closeFinishing := true
                  closeCompletions := waiting
                  stack := (more.map LineFrame.closer).toList ++ w.stack }) ∨
          (w.storageClosed = false ∧ w.finishCloseIfReady = { w with
                  closeFinishing := true
                  storageClosed := true
                  storageCloses := w.storageCloses + 1
                  stack := .storageClose :: w.stack }))) := by
  unfold finishCloseIfReady
  split
  · exact Or.inl rfl
  rename_i hready
  simp only [Bool.not_eq_true, Bool.or_eq_false_iff, Bool.not_eq_eq_eq_not, Bool.not_false,
    List.isEmpty_iff] at hready
  obtain ⟨⟨⟨⟨hclosed, hfinishing⟩, hpumping⟩, hactive⟩, hpend⟩ := hready
  refine Or.inr ⟨hclosed, hfinishing, hpumping, hactive, hpend, ?_⟩
  split
  · rename_i hstor
    refine Or.inl ⟨hstor, ?_⟩
    unfold callClosers
    split
    · exact ⟨_, none, rfl⟩
    · rename_i left _
      exact ⟨0, some left, rfl⟩
  rename_i hstor
  rw [Bool.not_eq_true] at hstor
  exact Or.inr ⟨hstor, rfl⟩

theorem proceed_change (h : w.proceed = some w') : LineChange w w' := by
  unfold proceed at h
  split at h
  · rename_i rest hstack
    split at h
    · rename_i hpend
      cases h
      exact .idle hstack (Or.inr hpend)
    rename_i job later hpend
    split at h
    · rename_i hactive
      cases h
      exact .idle hstack (Or.inl hactive)
    rename_i hactive
    rw [Bool.not_eq_true] at hactive
    split at h
    · rename_i hfailed
      cases h
      exact .refuse hstack hactive hfailed
    rename_i hfailed
    rw [Bool.not_eq_true] at hfailed
    cases h
    exact .start hstack hactive hfailed hpend
  · rename_i rest hstack
    split at h
    · cases h
      exact .again hstack
    rename_i hstop
    cases h
    refine .stop hstack ?_
    cases hrequested : w.pumpRequested with
    | false => exact Or.inl rfl
    | true => exact Or.inr (by simpa [hrequested] using hstop)
  · rename_i rest hstack
    split at h
    · rename_i hfailed
      cases h
      exact .leaveFailed hstack hfailed
    rename_i hfailed
    rw [Bool.not_eq_true] at hfailed
    cases h
    exact .leave hstack hfailed
  · rename_i rest hstack
    cases h
    exact .shut hstack trivial
  · rename_i rest hstack
    split at h
    · rename_i hpend
      cases h
      exact .drained hstack hpend
    rename_i job later hpend
    cases h
    exact .reject hstack hpend
  · rename_i rest hstack
    cases h
    exact .shut hstack trivial
  · rename_i rest hstack
    cases h
    exact .closing hstack
  · cases h

theorem returned_change {stored : Bool} (h : w.returned stored = some w') : LineChange w w' := by
  unfold returned at h
  split at h
  · rename_i job rest hstack
    split at h
    · rename_i hstored
      cases h
      exact .store hstack hstored.1
    · cases h
      exact .answer (Or.inl hstack)
  · rename_i job rest hstack
    cases h
    exact .answer (Or.inr hstack)
  · rename_i job rest hstack
    dsimp only at h
    split at h
    · rename_i hkind
      cases h
      exact .overRead hstack hkind
    split at h
    · rename_i hpumping
      rw [finishCloseIfReady_of_pumping (by exact hpumping)] at h
      cases h
      exact .overPumped hstack hpumping
    rename_i hpumping
    rw [Bool.not_eq_true] at hpumping
    cases h
    exact .overIdle hstack hpumping
  · rename_i rest hstack
    cases h
    unfold callClosers
    split
    · exact .pop hstack trivial
    · exact .closers hstack trivial
  · rename_i left rest hstack
    cases h
    exact .closers hstack trivial
  all_goals first
    | (rename_i hstack
       cases h
       exact .pop hstack trivial)
    | cases h

theorem step_change {move : LineMove} (h : w.step move = some w') : LineChange w w' := by
  cases move with
  | proceed => exact proceed_change h
  | «return» stored => exact returned_change h
  | accept kind =>
    obtain ⟨hturn, h⟩ := Option.ite_none_right_eq_some.1 h
    split at h
    · cases h
      exact .ignore
    rename_i hopen
    rw [Bool.not_eq_true, Bool.or_eq_false_iff] at hopen
    cases h
    exact .accept hturn hopen.1 hopen.2 kind
  | settle committed =>
    obtain ⟨hturn, h⟩ := Option.ite_none_right_eq_some.1 h
    obtain ⟨job, hawait, rfl⟩ := Option.map_eq_some_iff.1 h
    exact .settle hturn hawait committed
  | close =>
    obtain ⟨hturn, h⟩ := Option.ite_none_right_eq_some.1 h
    cases h
    exact .close hturn
  | awaitClose =>
    obtain ⟨-, h⟩ := Option.ite_none_right_eq_some.1 h
    split at h
    · cases h
      exact .ignore
    · cases h
      exact .awaitClose

end SessionLine

end CodingHarness.Durable
