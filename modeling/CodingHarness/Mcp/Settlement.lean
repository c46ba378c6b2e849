import CodingHarness.Mcp.StdioClient

/-!
# Requests settle once and with their own answer

The pump serves one frame at a time, so the numbers of the settled requests, of the request in service
and of the queued requests increase in this order (`Ledger`), and so do the places of the frames it
writes. A response is awaited only after its request was sent on the same connection (`Reading`).

The response is matched after its numeric id is narrowed to `int`: a frame with id 2.5 answers request
2. `settles_run` is the property for every run in which no such frame is read.
-/

namespace CodingHarness.Mcp

open Library Support

/-! ## Histories -/

/-- The part of a log since the current process was spawned. -/
def connection (log : List Event) : List Event := log.takeWhile (· ≠ .spawned)

def settledIds (log : List Event) : List Nat := log.filterMap fun
    | .settled id _ => some id
    | _ => none

def sentFrames (log : List Event) : List Frame := log.filterMap fun
    | .sent frame => some frame
    | _ => none

def queuedFrames (log : List Event) : List Frame := log.filterMap fun
    | .queued frame => some frame
    | _ => none

/-- The numeric id of the message is the id of the request. -/
def ExactId (message : Json) (id : Nat) : Prop :=
  ((responseId message).any fun value => value.isFinite && value.isIntegral && value.toInt == (id : Int)) = true

instance (message : Json) (id : Nat) : Decidable (ExactId message id) := inferInstanceAs (Decidable (_ = _))

/-- A frame that answers the request with the result was read on the current connection, after the
request was sent there. -/
def Answer (older : List Event) (id : Nat) (result message : Json) : Prop :=
  ∃ between before, connection older = between ++ .read id message :: before ∧
    responseForId message id = .ok (some result) ∧
    ∃ method params, .sent (.request id method params) ∈ before

/-- What a client promises about its requests. The lists are newest first. -/
structure Settles (s : Client) : Prop where
  once : (settledIds s.log).Nodup
  inOrder : (sentFrames s.log).Sublist (queuedFrames s.log)
  answered : ∀ newer id result older, s.log = newer ++ .settled id (.ok result) :: older →
    ∃ message, Answer older id result message ∧ ExactId message id
  stopped : s.phase = .stopped → s.queue = []

/-! ## The ledger -/

/-- The numbers of the requests among the frames. -/
def requestIds (items : List QueuedFrame) : List Nat :=
  items.filterMap fun item => if item.isNotification then none else some item.id

/-- The frames of the client, oldest first: settled ones in the log, `held` ones with the pump, of
which the `unsent` ones are not written yet, and the queue. The idle read has the number 0. -/
structure Ledger (queue held unsent : List QueuedFrame) (nextId : Nat) (log : List Event) : Prop where
  numbers : (0 :: (settledIds log).reverse ++ (requestIds held ++ (requestIds queue ++ [nextId]))).Pairwise (· < ·)
  order : ((sentFrames log).reverse ++ (unsent ++ queue).map (·.frame)).Sublist (queuedFrames log).reverse

namespace Ledger

variable {queue held unsent rest : List QueuedFrame} {item : QueuedFrame} {nextId : Nat}
  {log : List Event}

theorem settle (h : Ledger queue [item] unsent nextId log) (hreq : item.isNotification = false)
    (outcome : Outcome) : Ledger queue [] [] nextId (.settled item.id outcome :: log) := by
  constructor
  · have hnumbers := h.numbers
    simp only [requestIds, List.filterMap_cons, hreq, Bool.false_eq_true, if_false, List.filterMap_nil] at hnumbers
    simpa [settledIds, requestIds] using hnumbers
  refine List.Sublist.trans ?_ h.order
  simp only [List.nil_append, List.map_append]
  exact (List.Sublist.refl _).append (List.sublist_append_right _ _)

theorem drop (h : Ledger queue held unsent nextId log) : Ledger queue [] [] nextId log := by
  constructor
  · exact h.numbers.sublist ((List.Sublist.refl _).append ((List.nil_sublist _).append (List.Sublist.refl _)))
  refine List.Sublist.trans ?_ h.order
  simp only [List.nil_append, List.map_append]
  exact (List.Sublist.refl _).append (List.sublist_append_right _ _)

theorem sent (h : Ledger queue held [item] nextId log) : Ledger queue held [] nextId (.sent item.frame :: log) := by
  refine ⟨h.numbers, ?_⟩
  simpa [sentFrames, queuedFrames] using h.order

theorem pop (h : Ledger (item :: rest) [] [] nextId log) : Ledger rest [item] [item] nextId log := by
  constructor
  · have hsplit : requestIds (item :: rest) = requestIds [item] ++ requestIds rest :=
      List.filterMap_append (l := [item])
    have hnumbers := h.numbers
    rw [hsplit] at hnumbers
    simpa [requestIds, List.append_assoc] using hnumbers
  · simpa using h.order

section

variable (h : Ledger queue held unsent nextId log)
include h

theorem push_order (item : QueuedFrame) :
    ((sentFrames (.queued item.frame :: log)).reverse ++ (unsent ++ (queue ++ [item])).map (·.frame)).Sublist
      (queuedFrames (.queued item.frame :: log)).reverse := by
  have horder := h.order.append (List.Sublist.refl [item.frame])
  simpa [sentFrames, queuedFrames] using horder

theorem push_notification (hitem : item.isNotification = true) :
    Ledger (queue ++ [item]) held unsent nextId (.queued item.frame :: log) := by
  refine ⟨?_, h.push_order item⟩
  simpa [requestIds, hitem, settledIds] using h.numbers

theorem number : Ledger queue held unsent (nextId + 1) log := by
  refine ⟨?_, h.order⟩
  have hnumbers := h.numbers
  simp only [← List.append_assoc] at hnumbers ⊢
  rw [List.pairwise_append] at hnumbers ⊢
  refine ⟨hnumbers.1, List.pairwise_singleton _ _, fun a ha b hb => ?_⟩
  have := hnumbers.2.2 a ha nextId (List.mem_singleton_self _)
  rw [List.mem_singleton.1 hb]
  omega

theorem push_request (hitem : item.isNotification = false)
    (hid : item.id = nextId) : Ledger (queue ++ [item]) held unsent (nextId + 1) (.queued item.frame :: log) := by
  refine ⟨?_, h.push_order item⟩
  have hnumbers := h.numbers
  have hbelow : ∀ a ∈ 0 :: (settledIds log).reverse ++ (requestIds held ++ (requestIds queue ++ [nextId])),
      a < nextId + 1 := by
    have hlast := hnumbers
    simp only [← List.append_assoc] at hlast ⊢
    rw [List.pairwise_append] at hlast
    intro a ha
    rcases List.mem_append.1 ha with ha | ha
    · have := hlast.2.2 a ha nextId (List.mem_singleton_self _)
      omega
    · rw [List.mem_singleton.1 ha]
      omega
  have hmore := List.pairwise_append.2 ⟨hnumbers, List.pairwise_singleton (· < ·) (nextId + 1),
    fun a ha b hb => by rw [List.mem_singleton.1 hb]; exact hbelow a ha⟩
  simpa [requestIds, hitem, hid, settledIds, List.append_assoc] using hmore

theorem distinct : ∀ item ∈ held, ∀ other ∈ queue,
    other.isNotification = false → item.isNotification = false → other.id ≠ item.id := by
  intro item hitem other hother hnote hreq
  have hmem : item.id ∈ requestIds held := List.mem_filterMap.2 ⟨item, hitem, by simp [hreq]⟩
  have hotherMem : other.id ∈ requestIds queue ++ [nextId] :=
    List.mem_append_left _ (List.mem_filterMap.2 ⟨other, hother, by simp [hnote]⟩)
  have hlive := (List.pairwise_append.1 h.numbers).2.1
  exact Nat.ne_of_gt ((List.pairwise_append.1 hlive).2.2 _ hmem _ hotherMem)

end

end Ledger

/-! ## The invariant -/

def Reader.held : Reader → List QueuedFrame
  | .idle => []
  | .connect item _ => [item]
  | .serve item => [item]

def Reader.unsent : Reader → List QueuedFrame
  | .connect item _ => [item]
  | _ => []

def Phase.held : Phase → List QueuedFrame
  | .greeting item _ => [item]
  | .writing item => [item]
  | .reader who _ => who.held
  | _ => []

def Phase.unsent : Phase → List QueuedFrame
  | .greeting item _ => [item]
  | .writing item => [item]
  | .reader who _ => who.unsent
  | _ => []

/-- Every result in the log has its answer. -/
def Answered : List Event → Prop
  | [] => True
  | .settled id (.ok result) :: older => (∃ message, Answer older id result message) ∧ Answered older
  | _ :: older => Answered older

/-- The request whose response is read is on its way. -/
def Served (who : Reader) (log : List Event) : Prop :=
  ∀ item, who = .serve item → item.isNotification = false ∧ .sent item.frame ∈ connection log

/-- What holds while the pump reads for someone. -/
structure Reading (queue : List QueuedFrame) (nextId : Nat) (log : List Event) (who : Reader) : Prop where
  ledger : Ledger queue who.held who.unsent nextId log
  answered : Answered log
  served : Served who log

/-- The invariant of a client. -/
structure Sound (s : Client) : Prop where
  ledger : Ledger s.queue s.phase.held s.phase.unsent s.nextId s.log
  answered : Answered s.log
  served : ∀ who stage, s.phase = .reader who stage → Served who s.log
  stopped : s.phase = .stopped → s.queue = []

variable {s : Client} {who : Reader} {item : QueuedFrame}

theorem Sound.reading (h : Sound s) {stage : Stage} (hphase : s.phase = .reader who stage) :
    Reading s.queue s.nextId s.log who :=
  ⟨by simpa [hphase, Phase.held, Phase.unsent] using h.ledger, h.answered, h.served who stage hphase⟩

theorem Sound.distinct (h : Sound s) : ∀ item ∈ s.phase.held, ∀ other ∈ s.queue,
    other.isNotification = false → item.isNotification = false → other.id ≠ item.id := h.ledger.distinct

theorem Sound.popped (h : Sound s) {rest : List QueuedFrame} (hphase : s.phase = .top)
    (hqueue : s.queue = item :: rest) : Ledger rest [item] [item] s.nextId s.log := by
  have hledger := h.ledger
  rw [hphase, hqueue] at hledger
  exact hledger.pop

theorem Reading.sound (h : Reading s.queue s.nextId s.log who) {stage : Stage}
    (hphase : s.phase = .reader who stage) : Sound s where
  ledger := by simpa [hphase, Phase.held, Phase.unsent] using h.ledger
  answered := h.answered
  served := by
    intro other stage' hother
    cases hphase.symm.trans hother
    exact h.served
  stopped := by simp [hphase]

theorem sound_top (hledger : Ledger s.queue [] [] s.nextId s.log) (hans : Answered s.log)
    (hphase : s.phase = .top) : Sound s where
  ledger := by simpa [hphase, Phase.held, Phase.unsent] using hledger
  answered := hans
  served := by simp [hphase]
  stopped := by simp [hphase]

theorem served_cons {log : List Event} {event : Event} (h : Served who log) (hevent : event ≠ .spawned) :
    Served who (event :: log) := fun item hitem => by
  obtain ⟨hreq, hsent⟩ := h item hitem
  refine ⟨hreq, ?_⟩
  simp only [connection, List.takeWhile_cons, hevent, ne_eq, not_false_eq_true, decide_true, if_true]
  exact List.mem_cons_of_mem _ hsent

theorem sound_completeFrame {unsent : List QueuedFrame} {outcome : Outcome}
    (hledger : Ledger s.queue [item] unsent s.nextId s.log) (hans : Answered s.log)
    (hanswer : ∀ result, outcome = .ok result → ∃ message, Answer s.log item.id result message) :
    Sound (s.completeFrame item outcome) := by
  unfold Client.completeFrame
  split
  · exact sound_top hledger.drop hans rfl
  rename_i hreq
  refine sound_top (hledger.settle (Bool.eq_false_iff.2 hreq) outcome) ?_ rfl
  cases outcome with
  | error failure => exact hans
  | ok result => exact ⟨hanswer result rfl, hans⟩

theorem sound_failed {unsent : List QueuedFrame} (failure : Failure)
    (hledger : Ledger s.queue [item] unsent s.nextId s.log) (hans : Answered s.log) :
    Sound (s.completeFrame item (.error failure)) :=
  sound_completeFrame hledger hans nofun

theorem sound_serveFrame (hledger : Ledger s.queue [item] [item] s.nextId s.log)
    (hans : Answered s.log) : Sound (s.serveFrame item) := by
  unfold Client.serveFrame
  split
  · exact sound_failed .cancelled hledger hans
  · exact ⟨hledger, hans, nofun, nofun⟩

/-! ## The pump -/

section

variable (h : Reading s.queue s.nextId s.log who)
include h

theorem Reading.read (awaited : Nat) (message : Json) :
    Reading s.queue s.nextId (.read awaited message :: s.log) who :=
  ⟨⟨h.ledger.numbers, h.ledger.order⟩, h.answered, served_cons h.served nofun⟩

theorem Reading.wrote (frame : Frame) :
    Reading s.queue s.nextId (.wrote frame :: s.log) who :=
  ⟨⟨h.ledger.numbers, h.ledger.order⟩, h.answered, served_cons h.served nofun⟩

theorem Reading.again : Sound (s.again who) := by
  cases who with
  | idle => exact sound_top h.ledger h.answered rfl
  | connect item id | serve item => exact Reading.sound h rfl

end

theorem notify_ledger {held unsent : List QueuedFrame} (hledger : Ledger s.queue held unsent s.nextId s.log)
    (hans : Answered s.log) (method : Bytes) (params : Option Json) :
    Ledger (s.notify method params).queue held unsent (s.notify method params).nextId
      (s.notify method params).log ∧ Answered (s.notify method params).log := by
  obtain ⟨-, hsame⟩ | ⟨-, phase, hqueued⟩ := s.notify_cases method params
  · rw [hsame]
    exact ⟨hledger, hans⟩
  rw [hqueued]
  have hitem : QueuedFrame.isNotification ⟨.notification method params, false⟩ = true := rfl
  exact ⟨hledger.push_notification hitem, hans⟩

theorem Reading.finish (h : Reading s.queue s.nextId s.log who) {outcome : Outcome}
    (hanswer : ∀ item result, who = .serve item → outcome = .ok result →
      ∃ message, Answer s.log item.id result message) : Sound (s.finish who outcome) := by
  cases who with
  | idle => exact sound_top h.ledger h.answered rfl
  | serve item => exact sound_completeFrame h.ledger h.answered fun result => hanswer item result rfl
  | connect item id =>
    cases outcome with
    | error failure => exact sound_failed _ h.ledger h.answered
    | ok result =>
      rw [Client.finish]
      split
      · exact sound_failed _ h.ledger h.answered
      obtain ⟨hledger, hans⟩ := notify_ledger (s := { s with
        serverInstructions := initializeInstructions result
        serverCapabilities := initializeCapabilities result
        log := .accepted (s.waiting (item :: s.queue)) :: s.log }) ⟨h.ledger.numbers, h.ledger.order⟩ h.answered
        "notifications/initialized" none
      exact sound_serveFrame hledger hans

/-- An answer that was just read is on the current connection, behind its request. -/
theorem answer_of_read (h : Served (.serve item) s.log) {message result : Json}
    (hresponse : responseForId message item.id = .ok (some result)) :
    Answer (.read item.id message :: s.log) item.id result message := by
  obtain ⟨hreq, hsent⟩ := h item rfl
  obtain ⟨frame, onProgress⟩ := item
  cases frame with
  | request id method params => exact ⟨[], connection s.log, rfl, hresponse, method, params, hsent⟩
  | notification method params | response message => cases hreq

section

variable (h : Reading s.queue s.nextId s.log who)
include h

theorem Reading.reads {t : Client} (hreads : s.Reads who t) : Sound t := by
  cases hreads with
  | waits buffer discarding => exact Reading.sound h rfl
  | malformed buffer =>
    refine Reading.again ?_
    exact h
  | skips buffer message => exact Reading.again (h.read _ _)
  | handles buffer message id | replies buffer message reply => exact Reading.sound (h.read _ _) rfl
  | answers buffer message outcome hanswer =>
    refine Reading.finish (h.read _ _) ?_
    rintro item result rfl rfl
    exact ⟨message, answer_of_read h.served (hanswer result rfl)⟩

theorem Reading.readLine : Sound (s.readLine who) :=
  h.reads (s.readLine_reads who)

theorem Reading.lineEnded (reason : LineEnd) :
    Sound (s.lineEnded who reason) := by
  unfold Client.lineEnded
  split
  · rename_i hidle
    subst hidle
    exact sound_top h.ledger h.answered rfl
  split
  · exact Reading.sound h rfl
  split
  · exact Reading.sound h rfl
  · exact Reading.sound h rfl
  · split
    · exact h.finish nofun
    · exact Reading.sound h rfl

theorem Reading.readDone (timedOut : Bool) (result : ReadResult) :
    Sound (s.readDone who timedOut result) := by
  unfold Client.readDone
  split
  · refine Reading.lineEnded ?_ _
    exact h
  · refine Reading.lineEnded ?_ _
    exact h
  · exact h.lineEnded _
  · refine Reading.readLine ?_
    exact h

end

theorem Sound.pump (h : Sound s) (spawned : Bool) : Sound (s.pump spawned) := by
  unfold Client.pump
  split
  · rename_i hphase
    have hledger := h.ledger
    rw [hphase] at hledger
    split
    · rename_i hqueue
      split
      · exact ⟨hledger, h.answered, nofun, fun _ => hqueue⟩
      · exact Reading.readLine ⟨hledger, h.answered, nofun⟩
    rename_i item rest hqueue
    have hpopped := h.popped hphase hqueue
    dsimp only
    split
    · exact sound_failed .closed hpopped h.answered
    split
    · unfold Client.reconnectTransport
      split
      · have hnum := hpopped.number
        exact ⟨⟨hnum.numbers, hnum.order⟩, h.answered, nofun, nofun⟩
      · exact sound_failed _ hpopped h.answered
    · exact sound_serveFrame hpopped h.answered
  · rename_i hphase
    have hreading := h.reading hphase
    split
    · exact Reading.sound hreading rfl
    · exact hreading.readLine
  · rename_i hphase
    exact (h.reading hphase).readDone _ _
  · exact h

theorem Sound.written (h : Sound s) (ok : Bool) : Sound (s.written ok) := by
  unfold Client.written
  dsimp only
  split
  · rename_i item id hphase
    have hledger : Ledger s.queue [item] [item] s.nextId s.log := by
      simpa [hphase, Phase.held, Phase.unsent] using h.ledger
    split
    · exact ⟨⟨hledger.numbers, hledger.order⟩, h.answered, by rintro _ _ ⟨⟩; nofun, nofun⟩
    · exact sound_failed _ hledger h.answered
  · rename_i item hphase
    have hledger : Ledger s.queue [item] [item] s.nextId s.log := by
      simpa [hphase, Phase.held, Phase.unsent] using h.ledger
    split
    · exact sound_failed _ hledger h.answered
    split
    · exact sound_top hledger.sent.drop h.answered rfl
    rename_i hreq
    refine ⟨hledger.sent, h.answered, ?_, nofun⟩
    rintro _ _ ⟨⟩ _ ⟨⟩
    exact ⟨Bool.eq_false_iff.2 hreq, List.mem_cons_self⟩
  · rename_i hphase
    have hreading := h.reading hphase
    split
    · exact Reading.again (hreading.wrote _)
    · exact Reading.again hreading
  · rename_i hphase
    have hreading := h.reading hphase
    split
    · exact Reading.finish (hreading.wrote _) nofun
    · exact hreading.finish nofun
  · exact h

/-! ## Calls and completed operations -/

theorem Sound.stage (h : Sound s) {before after : Stage} (hphase : s.phase = .reader who before) :
    Sound { s with phase := .reader who after } := Reading.sound (h.reading hphase) rfl

theorem Sound.handled (h : Sound s) (outcome : Except Bytes Json) : Sound (s.handled outcome) := by
  unfold Client.handled
  split
  · rename_i hphase
    exact h.stage hphase
  · rename_i hphase
    exact h.stage hphase
  · exact h

theorem Sound.stderrEnded (h : Sound s) : Sound s.stderrEnded := by
  unfold Client.stderrEnded
  dsimp only
  split
  · rename_i hphase
    refine Reading.finish ?_ nofun
    exact h.reading hphase
  · exact ⟨h.ledger, h.answered, h.served, h.stopped⟩

theorem Sound.completeRead (h : Sound s) (result : ReadResult) : Sound (s.completeRead result) := by
  unfold Client.completeRead
  split
  · rename_i hphase
    exact h.stage hphase
  · exact h

theorem Sound.deadline (h : Sound s) : Sound s.deadline := by
  unfold Client.deadline
  split
  · exact h
  · rename_i hphase
    exact h.stage hphase
  · exact h

theorem Sound.startPump (h : Sound s) : Sound s.startPump := by
  unfold Client.startPump
  split
  · rename_i hphase
    exact h.stage hphase
  · rename_i hphase
    split
    · refine sound_top ?_ h.answered rfl
      simpa [hphase, Phase.held, Phase.unsent] using h.ledger
    · exact h
  · exact h

theorem Sound.enqueueFrame (h : Sound s) {nextId : Nat}
    (hledger : Ledger (s.queue ++ [item]) s.phase.held s.phase.unsent nextId (.queued item.frame :: s.log)) :
    Sound ({ s with nextId := nextId }.enqueueFrame item) := by
  unfold Client.enqueueFrame Client.startPump
  dsimp only
  split
  · rename_i hphase
    rw [hphase] at hledger
    exact ⟨hledger, h.answered, by rintro _ _ ⟨⟩; nofun, nofun⟩
  · rename_i hphase
    rw [hphase] at hledger
    split
    · exact sound_top hledger h.answered rfl
    · rename_i hrunning
      simp at hrunning
  · rename_i hphase
    refine ⟨hledger, h.answered, fun who stage hwho => ?_, fun hstopped => absurd hstopped hphase⟩
    exact served_cons (h.served who stage hwho) nofun

theorem Sound.notify (h : Sound s) (method : Bytes) (params : Option Json) : Sound (s.notify method params) := by
  unfold Client.notify
  split
  · exact h
  · have hitem : QueuedFrame.isNotification ⟨.notification method params, false⟩ = true := rfl
    exact h.enqueueFrame (h.ledger.push_notification hitem)

theorem Sound.request (h : Sound s) (method : Bytes) (params : Option Json) (onProgress stopped : Bool) :
    Sound (s.request method params onProgress stopped) := by
  unfold Client.request
  dsimp only
  split
  · exact h
  · exact h.enqueueFrame (h.ledger.push_request rfl rfl)

theorem Sound.asked (h : Sound s) (id : Nat) (cancelled : List Nat) :
    Sound { s with log := .asked id :: s.log, cancelled := cancelled } :=
  ⟨⟨h.ledger.numbers, h.ledger.order⟩, h.answered,
    fun who stage hwho => served_cons (h.served who stage hwho) nofun, h.stopped⟩

theorem Sound.cancelRequest (h : Sound s) (id : Nat) : Sound (s.cancelRequest id) := by
  unfold Client.cancelRequest
  dsimp only
  split
  · exact h
  split
  · exact h.asked id _
  split
  · exact (h.asked id _).completeRead _
  · exact h.asked id _

theorem Sound.close (h : Sound s) : Sound s.close := by
  refine Sound.completeRead ?_ _
  exact ⟨h.ledger, h.answered, h.served, h.stopped⟩

theorem Sound.resumeConnect (h : Sound s) (stopped : Bool) : Sound (s.resumeConnect stopped) := by
  have howner : ∀ owner, Sound { s with owner := owner } := fun _ =>
    ⟨h.ledger, h.answered, h.served, h.stopped⟩
  unfold Client.resumeConnect
  split
  · exact h
  split
  · exact h
  · exact (howner _).close
  · split
    · exact (howner _).close
    · split
      · exact howner _
      · refine Sound.notify ?_ _ _
        exact ⟨⟨h.ledger.numbers, h.ledger.order⟩, h.answered,
          fun who stage hwho => served_cons (h.served who stage hwho) nofun, h.stopped⟩

/-! ## Runs -/

theorem sound_connect (withRoots : Bool) : Sound (Client.connect withRoots) where
  ledger := ⟨by simp [Client.connect, settledIds, requestIds, Phase.held, QueuedFrame.isNotification,
      Frame.isRequest, initializeFrame, QueuedFrame.id, Frame.id],
    by simp [Client.connect, sentFrames, queuedFrames, Phase.unsent]⟩
  answered := trivial
  served := nofun
  stopped := nofun

theorem Sound.owned (h : Sound s) {t : Client} (ht : Sound t) : Sound (s.owned t) := by
  unfold Client.owned
  split
  · exact ht
  · exact h

theorem Sound.step (h : Sound s) (action : Action) : Sound (s.step action) := by
  cases action with
  | request method params onProgress stopped => exact h.owned (h.request method params onProgress stopped)
  | notify method params => exact h.owned (h.notify method params)
  | cancelRequest id => exact h.cancelRequest id
  | setNotificationListener => exact h.owned h.startPump
  | setRequestHandler method => exact h.owned ⟨h.ledger, h.answered, h.served, h.stopped⟩
  | close => exact h.close
  | resumeConnect stopped => exact h.resumeConnect stopped
  | pump spawned => exact h.pump spawned
  | completeRead result => exact h.completeRead result
  | deadline => exact h.deadline
  | written ok => exact h.written ok
  | handled outcome => exact h.handled outcome
  | stderrEnded => exact h.stderrEnded

theorem Sound.run (h : Sound s) (actions : List Action) : Sound (s.run actions) := by
  induction actions generalizing s with
  | nil => exact h
  | cons action actions ih => exact ih (h.step action)

/-! ## The promise -/

/-- A frame read for a request, not by the idle read, that has the id of the request after narrowing has a
whole id. -/
def Event.WholeId : Event → Prop
  | .read awaited message => awaited = 0 ∨
    (responseId message).all (fun value => value.isIntegral || narrow value != (awaited : Int)) = true
  | _ => True

instance : DecidablePred Event.WholeId
  | .read _ _ => inferInstanceAs (Decidable (_ ∨ _))
  | .spawned | .queued _ | .sent _ | .wrote _ | .accepted _ | .asked _ | .settled _ _ => .isTrue trivial

/-- No frame with a fractional id was taken for an answer. -/
def WholeIds (log : List Event) : Prop := ∀ event ∈ log, event.WholeId

instance (log : List Event) : Decidable (WholeIds log) := inferInstanceAs (Decidable (∀ _ ∈ _, _))

theorem exactId_of_narrow {message : Json} {value : Double} {id : Nat} (hvalue : responseId message = some value)
    (hnarrow : narrow value = id) (hintegral : value.isIntegral = true) : ExactId message id := by
  unfold narrow at hnarrow
  split at hnarrow
  · rename_i hrange
    simp [ExactId, hvalue, hrange.1, hintegral, hnarrow]
  · omega

theorem Answered.of_append {newer older : List Event} {id : Nat} {result : Json}
    (h : Answered (newer ++ .settled id (.ok result) :: older)) : ∃ message, Answer older id result message := by
  induction newer with
  | nil => exact h.1
  | cons event newer ih =>
    refine ih ?_
    cases event with
    | settled other outcome =>
      cases outcome with
      | error failure => exact h
      | ok value => exact h.2
    | _ => exact h

theorem Sound.settles (h : Sound s) (hwhole : WholeIds s.log) : Settles s where
  once := by
    have hsettled := (List.pairwise_append.1 h.ledger.numbers).1
    exact List.nodup_reverse.1 (hsettled.tail.imp Nat.ne_of_lt)
  inOrder := by
    have hsent := (List.sublist_append_left _ _).trans h.ledger.order
    exact List.reverse_sublist.1 hsent
  answered := by
    intro newer id result older hlog
    have hans := h.answered
    rw [hlog] at hans
    obtain ⟨message, hanswer⟩ := hans.of_append
    refine ⟨message, hanswer, ?_⟩
    obtain ⟨between, before, hconn, hresponse, -⟩ := hanswer
    obtain ⟨value, hvalue, hnarrow⟩ := narrow_of_responseForId hresponse
    have hread : .read id message ∈ connection older := by
      rw [hconn]
      exact List.mem_append_right _ List.mem_cons_self
    have hmem : .read id message ∈ s.log := by
      rw [hlog]
      exact List.mem_append_right _ (List.mem_cons_of_mem _ (List.takeWhile_subset _ hread))
    have hsettled : id ∈ settledIds s.log :=
      List.mem_filterMap.2 ⟨_, hlog ▸ List.mem_append_right _ List.mem_cons_self, rfl⟩
    have hpositive : 0 < id :=
      (List.pairwise_cons.1 (List.pairwise_append.1 h.ledger.numbers).1).1 id (List.mem_reverse.2 hsettled)
    rcases hwhole _ hmem with hidle | hintegral
    · omega
    simp only [hvalue, Option.all_some, hnarrow, bne_self_eq_false, Bool.or_false] at hintegral
    exact exactId_of_narrow hvalue hnarrow hintegral
  stopped := h.stopped

/-- In every run in which no frame with a fractional id is taken for the answer of a request, requests
settle once, frames are written in the order they were queued, a request gets a result only from a frame
with its own id that was read on the current connection after it was written, and nothing waits while the
pump does not run. -/
theorem settles_run (withRoots : Bool) (actions : List Action)
    (h : WholeIds ((Client.connect withRoots).run actions).log) : Settles ((Client.connect withRoots).run actions) :=
  ((sound_connect withRoots).run actions).settles h

/-- The answer of a server to the `initialize` request with the id. -/
def initializeReply (id : Nat) : Bytes := ofString ("\x7b\"jsonrpc\":\"2.0\",\"id\":" ++ toString id ++
    ",\"result\":\x7b\"protocolVersion\":\"2025-11-25\",\"capabilities\":\x7b\x7d," ++
    "\"serverInfo\":\x7b\"name\":\"s\",\"version\":\"1\"\x7d\x7d\x7d\n")

def handshake : List Action :=
  [.pump true, .written true, .pump true, .completeRead (.data (initializeReply 1)), .pump true,
    .resumeConnect false, .pump true, .written true]

/-- A call after the handshake, with the id of the frame that the server answers it with. -/
def answeredCall (id : String) : List Action :=
  handshake ++ [.request "tools/call" none false false, .pump true, .written true, .pump true,
    .completeRead (.data (ofString ("\x7b\"jsonrpc\":\"2.0\",\"id\":" ++ id ++ ",\"result\":\x7b\x7d\x7d\n"))),
    .pump true]

theorem settles_run_answered : (.settled 2 (.ok (.object []))) ∈ ((Client.connect false).run (answeredCall "2")).log ∧
      Settles ((Client.connect false).run (answeredCall "2")) := by
  have hlog : (.settled 2 (.ok (.object []))) ∈ ((Client.connect false).run (answeredCall "2")).log ∧
      WholeIds ((Client.connect false).run (answeredCall "2")).log := by decide +kernel
  exact ⟨hlog.1, settles_run false (answeredCall "2") hlog.2⟩

def Event.answersExactly (id : Nat) : Event → Bool
  | .read _ message => decide (ExactId message id)
  | _ => false

/-- A frame with id 2.5 answers request 2. -/
theorem fractional_id_answers : ¬ ∀ withRoots actions, Settles ((Client.connect withRoots).run actions) := by
  intro h
  obtain ⟨hhead, hnone⟩ : ((Client.connect false).run (answeredCall "2.5")).log.head?
        = some (.settled 2 (.ok (.object []))) ∧
      ∀ event ∈ ((Client.connect false).run (answeredCall "2.5")).log, event.answersExactly 2 = false := by
    decide +kernel
  obtain ⟨older, hlog⟩ := List.head?_eq_some_iff.1 hhead
  obtain ⟨message, ⟨between, before, hconnection, -⟩, hexact⟩ :=
    (h false (answeredCall "2.5")).answered [] 2 (.object []) older hlog
  have hread : .read 2 message ∈ connection older := by
    rw [hconnection]
    exact List.mem_append_right _ List.mem_cons_self
  have hmem : .read 2 message ∈ ((Client.connect false).run (answeredCall "2.5")).log := by
    rw [hlog]
    exact List.mem_cons_of_mem _ (List.takeWhile_subset _ hread)
  have hfalse := hnone _ hmem
  simp [Event.answersExactly, hexact] at hfalse

/-- Requests settle in the order of their ids. The one that is served and then the queued ones go on from there,
below the next id, and their frames are written in this order. -/
structure InOrder (s : Client) : Prop where
  ids : ((settledIds s.log).reverse ++ (requestIds s.phase.held ++ (requestIds s.queue ++ [s.nextId]))).Pairwise (· < ·)
  frames : ((sentFrames s.log).reverse ++ s.queue.map (·.frame)).Sublist (queuedFrames s.log).reverse

/-- **Requests are served in order** in every run. -/
theorem inOrder_run (withRoots : Bool) (actions : List Action) : InOrder ((Client.connect withRoots).run actions) where
  ids := ((sound_connect withRoots).run actions).ledger.numbers.tail
  frames := by
    refine .trans ?_ ((sound_connect withRoots).run actions).ledger.order
    rw [List.map_append]
    exact (List.Sublist.refl _).append (List.sublist_append_right _ _)

end CodingHarness.Mcp
