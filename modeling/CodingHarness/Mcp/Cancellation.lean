import CodingHarness.Mcp.Handshake

/-!
# Cancelled requests

`cancel_request` records an id in `cancelled_` and wakes an outstanding response read. It does nothing
while the client is closed, and it does not see a request that waits for a reconnect, which is neither
queued nor current. A wake-up does not reach a read that has already completed, and a request whose
timeout is being reported fails with the timeout.

`heeds_run` is the property for every run in which no cancellation meets one of these states.
-/

namespace CodingHarness.Mcp

open Library Support
open List (mem_cons_of_mem mem_cons_self)

/-! ## What a cancellation promises -/

/-- The cancelled error, or a failure of the connection. -/
def Failure.abandons : Failure → Bool
  | .cancelled | .closed | .transport _ | .reconnecting _ => true
  | _ => false

/-- The request failed, by its cancellation or with the connection. -/
def Abandoned (outcome : Outcome) : Prop := ∃ failure : Failure, outcome = .error failure ∧ failure.abandons = true

/-- A request that was cancelled before it settled is abandoned. -/
def Obeyed : List Event → Prop
  | [] => True
  | .settled id outcome :: older => (.asked id ∈ older → Abandoned outcome) ∧ Obeyed older
  | _ :: older => Obeyed older

/-- The invariant of runs that meet the condition. -/
structure Heeds (s : Client) : Prop where
  obeyed : Obeyed s.log
  awake : ∀ item timedOut, s.phase = .reader (.serve item) (.reading timedOut none) → .asked item.id ∉ s.log

/-- The stages in which the pump will still see that its request is cancelled. -/
def Stage.safe : Stage → Bool
  | .start | .handling _ | .replying _ => true
  | .reading _ (some (.data _)) | .reading _ none => false
  | .reading _ (some _) => true
  | .cancelling failure => decide (failure = .cancelled)
  | .draining => false

/-- The stages in which a cancellation of the awaited request is seen. -/
def Stage.hears : Stage → Bool
  | .reading _ none => true
  | stage => stage.safe

def Phase.hears (id : Nat) : Phase → Bool
  | .reader (.serve item) stage => item.id != id || stage.hears
  | _ => true

/-- The request has not settled. -/
def Live (s : Client) (id : Nat) : Prop :=
  ∃ item ∈ s.phase.held ++ s.queue, item.isNotification = false ∧ item.id = id

/-- A cancellation of a live request is heard: the connection is up, the request is queued, being
written or awaited, and its response read has not completed with data or timed out. -/
def Heard (s : Client) (id : Nat) : Prop :=
  Live s id → s.closed = false ∧ s.requestPending id = true ∧ s.phase.hears id = true

instance (s : Client) (id : Nat) : Decidable (Heard s id) := inferInstanceAs (Decidable ((∃ _ ∈ _, _) → _ ∧ _ ∧ _))

/-! ## The invariant -/

/-- The cancellations of the requests among the frames are recorded. -/
def Recorded (cancelled : List Nat) (log : List Event) (items : List QueuedFrame) : Prop :=
  ∀ item ∈ items, item.isNotification = false → .asked item.id ∈ log → item.id ∈ cancelled

/-- The invariant of the steps. -/
structure Heeding (s : Client) : Prop where
  obeyed : Obeyed s.log
  recorded : Recorded s.cancelled s.log (s.phase.held ++ s.queue)
  issued : ∀ id, .asked id ∈ s.log → id < s.nextId
  stage : ∀ item stage, s.phase = .reader (.serve item) stage →
    s.awaitingId = item.id ∧ (.asked item.id ∈ s.log → stage.safe = true)

/-- What holds while the pump reads for someone. -/
structure Hearing (nextId awaitingId : Nat) (cancelled : List Nat) (queue : List QueuedFrame)
    (log : List Event) (who : Reader) : Prop where
  obeyed : Obeyed log
  recorded : Recorded cancelled log (who.held ++ queue)
  issued : ∀ id, .asked id ∈ log → id < nextId
  awaiting : ∀ item, who = .serve item → awaitingId = item.id ∧ item.isNotification = false
  distinct : ∀ item ∈ who.held, ∀ other ∈ queue, other.isNotification = false →
    item.isNotification = false → other.id ≠ item.id

variable {s : Client} {who : Reader} {item : QueuedFrame}

theorem Heeding.hearing (h : Heeding s) (hsound : Sound s) {stage : Stage} (hphase : s.phase = .reader who stage) :
    Hearing s.nextId s.awaitingId s.cancelled s.queue s.log who where
  obeyed := h.obeyed
  recorded := by simpa [hphase, Phase.held] using h.recorded
  issued := h.issued
  awaiting := by
    rintro item rfl
    exact ⟨(h.stage item stage hphase).1, (hsound.served _ _ hphase item rfl).1⟩
  distinct := by
    intro item hitem
    exact hsound.distinct item (by rw [hphase]; exact hitem)

/-- The awaited request of the reader was cancelled. -/
def Asked (who : Reader) (log : List Event) : Prop := ∃ item, who = .serve item ∧ .asked item.id ∈ log

section

variable (h : Hearing s.nextId s.awaitingId s.cancelled s.queue s.log who)
include h

theorem Hearing.stage {stage : Stage}
    (hphase : s.phase = .reader who stage) (hsafe : Asked who s.log → stage.safe = true) : Heeding s where
  obeyed := h.obeyed
  recorded := by simpa [hphase, Phase.held] using h.recorded
  issued := h.issued
  stage := by
    intro item stage' hitem
    cases hphase.symm.trans hitem
    exact ⟨(h.awaiting item rfl).1, fun hasked => hsafe ⟨item, rfl, hasked⟩⟩

theorem Hearing.cancelled
    (hasked : Asked who s.log) : who.id ∈ s.cancelled := by
  obtain ⟨item, rfl, hmem⟩ := hasked
  exact h.recorded item mem_cons_self (h.awaiting item rfl).2 hmem

end

theorem heeding_top (hobeyed : Obeyed s.log) (hrecorded : Recorded s.cancelled s.log s.queue)
    (hissued : ∀ id, .asked id ∈ s.log → id < s.nextId) (hphase : s.phase = .top) : Heeding s where
  obeyed := hobeyed
  recorded := by simpa [hphase, Phase.held] using hrecorded
  issued := hissued
  stage := by simp [hphase]

theorem heeding_completeFrame (outcome : Outcome) (hobeyed : Obeyed s.log)
    (hrecorded : Recorded s.cancelled s.log s.queue) (hissued : ∀ id, .asked id ∈ s.log → id < s.nextId)
    (hdist : ∀ other ∈ s.queue, other.isNotification = false → item.isNotification = false → other.id ≠ item.id)
    (hout : item.isNotification = false → .asked item.id ∈ s.log → Abandoned outcome) :
    Heeding (s.completeFrame item outcome) := by
  unfold Client.completeFrame
  split
  · exact heeding_top hobeyed hrecorded hissued rfl
  rename_i hreq
  rw [Bool.not_eq_true] at hreq
  refine heeding_top ⟨hout hreq, hobeyed⟩ ?_ ?_ rfl
  · intro other hother hnote hasked
    have hprev : .asked other.id ∈ s.log := by simpa using hasked
    simp [hrecorded other hother hnote hprev, hdist other hother hnote hreq]
  · intro id hasked
    exact hissued id (by simpa using hasked)

theorem heeding_serveFrame (hobeyed : Obeyed s.log)
    (hrecorded : Recorded s.cancelled s.log (item :: s.queue)) (hissued : ∀ id, .asked id ∈ s.log → id < s.nextId)
    (hdist : ∀ other ∈ s.queue, other.isNotification = false → item.isNotification = false → other.id ≠ item.id) :
    Heeding (s.serveFrame item) := by
  unfold Client.serveFrame
  split
  · exact heeding_completeFrame _ hobeyed (fun other hother => hrecorded other (mem_cons_of_mem _ hother))
      hissued hdist fun _ _ => ⟨.cancelled, rfl, rfl⟩
  · exact ⟨hobeyed, hrecorded, hissued, nofun⟩

/-! ## The reader -/

theorem Hearing.again (h : Hearing s.nextId s.awaitingId s.cancelled s.queue s.log who) : Heeding (s.again who) := by
  cases who with
  | idle => exact heeding_top h.obeyed h.recorded h.issued rfl
  | connect item id | serve item => exact Hearing.stage h rfl fun _ => rfl

section Fields

variable {nextId awaitingId : Nat} {cancelled : List Nat} {queue : List QueuedFrame} {log : List Event}

theorem Hearing.cons (h : Hearing nextId awaitingId cancelled queue log who) (event : Event)
    (hobeyed : Obeyed (event :: log)) (hasked : ∀ id, event ≠ .asked id) :
    Hearing nextId awaitingId cancelled queue (event :: log) who where
  obeyed := hobeyed
  recorded := fun item hitem hreq hmem =>
    h.recorded item hitem hreq ((List.mem_cons.1 hmem).resolve_left fun heq => hasked _ heq.symm)
  issued := fun id hmem => h.issued id ((List.mem_cons.1 hmem).resolve_left fun heq => hasked _ heq.symm)
  awaiting := h.awaiting
  distinct := h.distinct

theorem Hearing.rest (h : Hearing nextId awaitingId cancelled queue log who) : Recorded cancelled log queue :=
  fun item hitem => h.recorded item (List.mem_append_right _ hitem)

theorem Hearing.push (h : Hearing nextId awaitingId cancelled queue log who) (item : QueuedFrame)
    (hnote : item.isNotification = true) :
    Hearing nextId awaitingId cancelled (queue ++ [item]) (.queued item.frame :: log) who := by
  have hcons := h.cons (.queued item.frame) h.obeyed nofun
  refine ⟨hcons.obeyed, fun other hother hreq hmem => ?_, hcons.issued, hcons.awaiting,
    fun held hheld other hother hreq => ?_⟩
  · rw [← List.append_assoc] at hother
    rcases List.mem_append.1 hother with hother | hother
    · exact hcons.recorded other hother hreq hmem
    · rw [List.mem_singleton.1 hother, hnote] at hreq
      cases hreq
  rcases List.mem_append.1 hother with hother | hother
  · exact h.distinct held hheld other hother hreq
  · rw [List.mem_singleton.1 hother, hnote] at hreq
    cases hreq

end Fields

section

variable (h : Hearing s.nextId s.awaitingId s.cancelled s.queue s.log who)
include h

theorem Hearing.finish (outcome : Outcome)
    (hout : Asked who s.log → Abandoned outcome) : Heeding (s.finish who outcome) := by
  cases who with
  | idle => exact heeding_top h.obeyed h.recorded h.issued rfl
  | serve item =>
    exact heeding_completeFrame _ h.obeyed h.rest h.issued
      (fun other => h.distinct item mem_cons_self other) fun _ hasked => hout ⟨item, rfl, hasked⟩
  | connect item id =>
    have hdist := fun other => h.distinct item mem_cons_self other
    have hfailed (t : Client) (failure : Failure) (hlog : t.log = s.log) (hqueue : t.queue = s.queue)
        (hcanc : t.cancelled = s.cancelled) (hnext : t.nextId = s.nextId) :
        Heeding (t.completeFrame item (.error (.reconnecting failure))) := by
      refine heeding_completeFrame _ (by rw [hlog]; exact h.obeyed) ?_ ?_ ?_ fun _ _ => ⟨_, rfl, rfl⟩
      · rw [hlog, hqueue, hcanc]
        exact h.rest
      · rw [hlog, hnext]
        exact h.issued
      · rw [hqueue]
        exact hdist
    cases outcome with
    | error failure => exact hfailed _ failure rfl rfl rfl rfl
    | ok result =>
      rw [Client.finish]
      split
      · exact hfailed _ _ rfl rfl rfl rfl
      have hacc := h.cons (.accepted (s.waiting (item :: s.queue))) h.obeyed (by simp)
      rcases Client.notify_cases { s with
          serverInstructions := initializeInstructions result
          serverCapabilities := initializeCapabilities result
          log := .accepted (s.waiting (item :: s.queue)) :: s.log }
          "notifications/initialized" none with ⟨-, hsame⟩ | ⟨-, phase, hqueued⟩
      · rw [hsame]
        exact heeding_serveFrame hacc.obeyed hacc.recorded hacc.issued hdist
      rw [hqueued]
      have hmore := hacc.push ⟨initializedFrame, false⟩ rfl
      exact heeding_serveFrame hmore.obeyed hmore.recorded hmore.issued
        fun other => hmore.distinct item mem_cons_self other

theorem Hearing.reads
    (hasked : ¬ Asked who s.log) {t : Client} (hreads : s.Reads who t) : Heeding t := by
  have hread (message : Json) : ¬ Asked who (.read who.id message :: s.log) := by
    rintro ⟨item, hwho, hmem⟩
    exact hasked ⟨item, hwho, by simpa using hmem⟩
  cases hreads with
  | waits buffer discarding => exact Hearing.stage h rfl fun h => absurd h hasked
  | malformed buffer =>
    refine Hearing.again ?_
    exact h
  | skips buffer message => exact Hearing.again (h.cons (.read who.id message) h.obeyed nofun)
  | handles buffer message id => exact Hearing.stage (h.cons (.read who.id message) h.obeyed nofun) rfl fun _ => rfl
  | replies buffer message reply =>
    exact Hearing.stage (h.cons (.read who.id message) h.obeyed nofun) rfl fun _ => rfl
  | answers buffer message outcome hanswer =>
    exact Hearing.finish (h.cons (.read who.id message) h.obeyed nofun) outcome fun h => absurd h (hread message)

theorem Hearing.lineEnded (reason : LineEnd) :
    Heeding (s.lineEnded who reason) := by
  unfold Client.lineEnded
  split
  · rename_i hidle
    subst hidle
    exact heeding_top h.obeyed h.recorded h.issued rfl
  split
  · exact Hearing.stage h rfl fun _ => rfl
  rename_i hcanc
  rw [List.contains_iff_mem] at hcanc
  split
  · exact Hearing.stage h rfl fun _ => rfl
  · exact Hearing.stage h rfl fun hasked => absurd (h.cancelled hasked) hcanc
  · split
    · exact h.finish _ fun _ => ⟨.closed, rfl, rfl⟩
    · exact Hearing.stage h rfl fun hasked => absurd (h.cancelled hasked) hcanc

theorem Hearing.readDone (timedOut : Bool)
    (result : ReadResult) (hasked : ∀ chunk, result = .data chunk → ¬ Asked who s.log) :
    Heeding (s.readDone who timedOut result) := by
  unfold Client.readDone
  split
  · refine Hearing.lineEnded ?_ _
    exact h
  · refine Hearing.lineEnded ?_ _
    exact h
  · exact h.lineEnded _
  · rename_i chunk
    have hnot := hasked chunk rfl
    refine Hearing.reads ?_ ?_ (Client.readLine_reads _ who)
    · exact h
    · exact hnot

end

/-! ## The pump -/

theorem heeding_pump (h : Heeding s) (hsound : Sound s) (spawned : Bool) : Heeding (s.pump spawned) := by
  unfold Client.pump
  split
  · rename_i hphase
    have hrecorded : Recorded s.cancelled s.log s.queue := by simpa [hphase, Phase.held] using h.recorded
    split
    · rename_i hqueue
      split
      · exact ⟨h.obeyed, hrecorded, h.issued, (by simp)⟩
      have hidle : Hearing s.nextId s.awaitingId s.cancelled s.queue s.log .idle :=
        ⟨h.obeyed, hrecorded, h.issued, (by simp), (by rintro _ ⟨⟩)⟩
      refine hidle.reads ?_ (s.readLine_reads .idle)
      rintro ⟨_, ⟨⟩, _⟩
    rename_i item rest hqueue
    have hpopped := hsound.popped hphase hqueue
    rw [hqueue] at hrecorded
    have hdist := hpopped.distinct item mem_cons_self
    have hrest : Recorded s.cancelled s.log rest := fun other hother =>
      hrecorded other (mem_cons_of_mem _ hother)
    dsimp only
    split
    · exact heeding_completeFrame _ h.obeyed hrest h.issued hdist fun _ _ => ⟨.closed, rfl, rfl⟩
    split
    · unfold Client.reconnectTransport
      split
      · refine ⟨h.obeyed, fun other hother hreq hasked => ?_, fun id hasked => ?_, (by simp)⟩
        · exact hrecorded other hother hreq (by simpa using hasked)
        · exact Nat.lt_succ_of_lt (h.issued id (by simpa using hasked))
      · exact heeding_completeFrame _ h.obeyed hrest h.issued hdist fun _ _ => ⟨_, rfl, rfl⟩
    · exact heeding_serveFrame h.obeyed hrecorded h.issued hdist
  · rename_i who hphase
    have hhearing := h.hearing hsound hphase
    split
    · exact Hearing.stage hhearing rfl fun _ => rfl
    rename_i hcanc
    rw [List.contains_iff_mem] at hcanc
    exact hhearing.reads (fun hasked => hcanc (hhearing.cancelled hasked)) (s.readLine_reads who)
  · rename_i who timedOut result hphase
    refine (h.hearing hsound hphase).readDone timedOut result ?_
    rintro chunk rfl ⟨item, rfl, hasked⟩
    cases (h.stage item _ hphase).2 hasked
  · exact h

theorem heeding_written (h : Heeding s) (hsound : Sound s) (ok : Bool) : Heeding (s.written ok) := by
  unfold Client.written
  dsimp only
  split
  · rename_i item id hphase
    have hrecorded : Recorded s.cancelled s.log (item :: s.queue) := by
      simpa [hphase, Phase.held] using h.recorded
    split
    · refine ⟨h.obeyed, fun other hother hreq hasked => ?_, fun id hasked => ?_, (by simp)⟩
      · exact hrecorded other hother hreq (by simpa using hasked)
      · exact h.issued id (by simpa using hasked)
    · exact heeding_completeFrame _ h.obeyed (fun other hother => hrecorded other (mem_cons_of_mem _ hother))
        h.issued (hsound.distinct item (by rw [hphase]; exact mem_cons_self)) fun _ _ => ⟨_, rfl, rfl⟩
  · rename_i item hphase
    have hrecorded : Recorded s.cancelled s.log (item :: s.queue) := by
      simpa [hphase, Phase.held] using h.recorded
    have hrest : Recorded s.cancelled s.log s.queue := fun other hother =>
      hrecorded other (mem_cons_of_mem _ hother)
    split
    · exact heeding_completeFrame _ h.obeyed hrest h.issued
        (hsound.distinct item (by rw [hphase]; exact mem_cons_self)) fun _ _ => ⟨_, rfl, rfl⟩
    split
    · refine heeding_top h.obeyed (fun other hother hreq hasked => ?_) (fun id hasked => ?_) rfl
      · exact hrest other hother hreq (by simpa using hasked)
      · exact h.issued id (by simpa using hasked)
    refine ⟨h.obeyed, fun other hother hreq hasked => ?_, fun id hasked => ?_, ?_⟩
    · exact hrecorded other hother hreq (by simpa using hasked)
    · exact h.issued id (by simpa using hasked)
    · rintro _ _ ⟨⟩
      exact ⟨rfl, fun _ => rfl⟩
  · rename_i who message hphase
    have hhearing := h.hearing hsound hphase
    split
    · exact Hearing.again (hhearing.cons (.wrote (.response message)) hhearing.obeyed (by simp))
    · refine Hearing.again ?_
      exact hhearing
  · rename_i who failure hphase
    have hhearing := h.hearing hsound hphase
    have habandoned {log : List Event} (hlog : ∀ id, .asked id ∈ log → .asked id ∈ s.log)
        (hasked : Asked who log) : Abandoned (.error failure) := by
      obtain ⟨item, rfl, hmem⟩ := hasked
      have hsafe := (h.stage item _ hphase).2 (hlog _ hmem)
      obtain rfl : failure = .cancelled := by simpa [Stage.safe] using hsafe
      exact ⟨.cancelled, rfl, rfl⟩
    split
    · exact Hearing.finish (hhearing.cons (.wrote (cancellationFrame who.id)) hhearing.obeyed (by simp)) _
        (habandoned fun id hmem => by simpa using hmem)
    · exact hhearing.finish _ (habandoned fun _ => id)
  · exact h

/-! ## Calls and completed operations -/

theorem Heeding.restage (h : Heeding s) (hsound : Sound s) {before after : Stage}
    (hphase : s.phase = .reader who before) (hsafe : before.safe = true → after.safe = true) :
    Heeding { s with phase := .reader who after } := by
  refine Hearing.stage (h.hearing hsound hphase) rfl ?_
  rintro ⟨item, rfl, hasked⟩
  exact hsafe ((h.stage item before hphase).2 hasked)

theorem heeding_handled (h : Heeding s) (hsound : Sound s) (outcome : Except Bytes Json) :
    Heeding (s.handled outcome) := by
  unfold Client.handled
  split
  · rename_i hphase
    exact h.restage hsound hphase fun _ => rfl
  · rename_i hphase
    exact h.restage hsound hphase fun _ => rfl
  · exact h

theorem heeding_stderrEnded (h : Heeding s) (hsound : Sound s) : Heeding s.stderrEnded := by
  unfold Client.stderrEnded
  dsimp only
  split
  · rename_i hphase
    refine Hearing.finish ?_ _ fun _ => ⟨.closed, rfl, rfl⟩
    exact h.hearing hsound hphase
  · exact ⟨h.obeyed, h.recorded, h.issued, h.stage⟩

theorem heeding_completeRead (h : Heeding s) (hsound : Sound s) (result : ReadResult) :
    Heeding (s.completeRead result) := by
  unfold Client.completeRead
  split
  · rename_i hphase
    exact h.restage hsound hphase nofun
  · exact h

theorem heeding_deadline (h : Heeding s) (hsound : Sound s) : Heeding s.deadline := by
  unfold Client.deadline
  split
  · exact h
  · rename_i completion _ hphase
    refine h.restage hsound hphase fun hsafe => ?_
    cases completion with
    | none => cases hsafe
    | some result => cases result <;> first | rfl | cases hsafe
  · exact h

theorem heeding_startPump (h : Heeding s) : Heeding s.startPump := by
  unfold Client.startPump
  split
  · rename_i hphase
    have hrecorded := h.recorded
    rw [hphase] at hrecorded
    exact ⟨h.obeyed, hrecorded, h.issued, nofun⟩
  · rename_i hphase
    split
    · have hrecorded := h.recorded
      rw [hphase] at hrecorded
      exact heeding_top h.obeyed hrecorded h.issued rfl
    · exact h
  · exact h

theorem Heeding.note (h : Heeding s) (event : Event) (hobeyed : Obeyed (event :: s.log))
    (hasked : ∀ id, event ≠ .asked id) : Heeding { s with log := event :: s.log } := by
  have hmem {id : Nat} (h : .asked id ∈ event :: s.log) : .asked id ∈ s.log :=
    (List.mem_cons.1 h).resolve_left fun heq => hasked id heq.symm
  exact ⟨hobeyed, fun item hitem hreq hcanc => h.recorded item hitem hreq (hmem hcanc),
    fun id hid => h.issued id (hmem hid),
    fun item stage hphase => ⟨(h.stage item stage hphase).1, fun hid => (h.stage item stage hphase).2 (hmem hid)⟩⟩

theorem heeding_enqueueFrame (h : Heeding s) (item : QueuedFrame) {nextId : Nat} (hnext : s.nextId ≤ nextId)
    (hitem : item.isNotification = false → item.id = s.nextId) :
    Heeding ({ s with nextId := nextId }.enqueueFrame item) := by
  have hnote := h.note (.queued item.frame) h.obeyed nofun
  refine heeding_startPump ⟨hnote.obeyed, fun other hother hreq hasked => ?_,
    fun id hid => Nat.lt_of_lt_of_le (hnote.issued id hid) hnext, hnote.stage⟩
  rw [← List.append_assoc] at hother
  rcases List.mem_append.1 hother with hother | hother
  · exact hnote.recorded other hother hreq hasked
  obtain rfl := List.mem_singleton.1 hother
  rw [hitem hreq] at hasked
  exact absurd (hnote.issued _ hasked) (Nat.lt_irrefl _)

theorem heeding_notify (h : Heeding s) (method : Bytes) (params : Option Json) :
    Heeding (s.notify method params) := by
  unfold Client.notify
  split
  · exact h
  · exact heeding_enqueueFrame h _ (Nat.le_refl _) nofun

theorem heeding_request (h : Heeding s) (method : Bytes) (params : Option Json) (onProgress stopped : Bool) :
    Heeding (s.request method params onProgress stopped) := by
  unfold Client.request
  dsimp only
  split
  · exact h
  · exact heeding_enqueueFrame h _ (Nat.le_succ _) fun _ => rfl

theorem heeding_close (h : Heeding s) (hsound : Sound s) : Heeding s.close := by
  have hshut : Heeding { s with closing := true, closed := true } := ⟨h.obeyed, h.recorded, h.issued, h.stage⟩
  exact heeding_completeRead hshut ⟨hsound.ledger, hsound.answered, hsound.served, hsound.stopped⟩ _

theorem heeding_resumeConnect (h : Heeding s) (hsound : Sound s) (stopped : Bool) :
    Heeding (s.resumeConnect stopped) := by
  have howner (owner : Owner) : Heeding { s with owner := owner } := ⟨h.obeyed, h.recorded, h.issued, h.stage⟩
  have hclosed (owner : Owner) : Heeding { s with owner := owner }.close :=
    heeding_close (howner owner) ⟨hsound.ledger, hsound.answered, hsound.served, hsound.stopped⟩
  unfold Client.resumeConnect
  split
  · exact h
  split
  · exact h
  · exact hclosed .refused
  · split
    · exact hclosed .refused
    · split
      · exact howner .refused
      · refine heeding_notify ?_ _ _
        have hnote := h.note (.accepted (s.waiting s.queue)) h.obeyed nofun
        exact ⟨hnote.obeyed, hnote.recorded, hnote.issued, hnote.stage⟩

theorem heeding_cancelRequest (h : Heeding s) (hsound : Sound s) {id : Nat} (hheard : Heard s id) :
    Heeding (s.cancelRequest id) := by
  have hold {other : Nat} (hasked : .asked other ∈ .asked id :: s.log) (hother : other ≠ id) : .asked other ∈ s.log :=
    (List.mem_cons.1 hasked).resolve_left fun heq => hother (Event.asked.inj heq)
  unfold Client.cancelRequest
  dsimp only
  split
  · exact h
  rename_i hid
  have hissued : ∀ other, .asked other ∈ .asked id :: s.log → other < s.nextId := by
    intro other hasked
    by_cases hother : other = id
    · omega
    · exact h.issued other (hold hasked hother)
  split
  · rename_i hlost
    -- The request has settled: nothing in the state is about it.
    have hdead : ¬ Live s id := by
      intro hlive
      obtain ⟨hclosed, hpend, -⟩ := hheard hlive
      simp only [hclosed, Bool.false_or, Bool.not_eq_true'] at hlost
      exact absurd hpend (Bool.eq_false_iff.1 hlost)
    refine ⟨h.obeyed, fun item hitem hreq hasked => ?_, hissued, fun item stage hphase => ?_⟩
    · exact h.recorded item hitem hreq (hold hasked fun heq => hdead ⟨item, hitem, hreq, heq⟩)
    refine ⟨(h.stage item stage hphase).1, fun hasked => (h.stage item stage hphase).2 (hold hasked fun heq => ?_)⟩
    refine hdead ⟨item, ?_, (hsound.served _ _ hphase item rfl).1, heq⟩
    rw [hphase]
    exact mem_cons_self
  have hrecorded : Recorded (id :: s.cancelled) (.asked id :: s.log) (s.phase.held ++ s.queue) := by
    intro item hitem hreq hasked
    by_cases heq : item.id = id
    · exact heq ▸ mem_cons_self
    · exact mem_cons_of_mem _ (h.recorded item hitem hreq (hold hasked heq))
  split
  · unfold Client.completeRead
    split
    · rename_i hphase
      rw [hphase] at hrecorded
      refine ⟨h.obeyed, hrecorded, hissued, ?_⟩
      rintro item _ ⟨⟩
      exact ⟨(h.stage item _ hphase).1, fun _ => rfl⟩
    rename_i hreading
    refine ⟨h.obeyed, hrecorded, hissued, fun item stage hphase => ?_⟩
    refine ⟨(h.stage item stage hphase).1, fun hasked => ?_⟩
    by_cases heq : item.id = id
    · have hlive : Live s id := by
        refine ⟨item, ?_, (hsound.served _ _ hphase item rfl).1, heq⟩
        rw [hphase]
        exact mem_cons_self
      have hphaseHears := (hheard hlive).2.2
      rw [hphase] at hphaseHears
      have hhears : stage.hears = true := by simpa [Phase.hears, heq] using hphaseHears
      cases stage with
      | reading timedOut completion =>
        cases completion with
        | none => exact absurd hphase (hreading _ _)
        | some result => exact hhears
      | _ => exact hhears
    · exact (h.stage item stage hphase).2 (hold hasked heq)
  · rename_i hawait
    refine ⟨h.obeyed, hrecorded, hissued, fun item stage hphase => ?_⟩
    have hid := (h.stage item stage hphase).1
    exact ⟨hid, fun hasked => (h.stage item stage hphase).2 (hold hasked fun heq => hawait (hid.trans heq))⟩

/-! ## Runs -/

theorem heeding_connect (withRoots : Bool) : Heeding (Client.connect withRoots) where
  obeyed := trivial
  recorded := fun _ _ _ hasked => by simp [Client.connect] at hasked
  issued := fun _ hasked => by simp [Client.connect] at hasked
  stage := nofun

theorem heeding_owned (h : Heeding s) {t : Client} (ht : Heeding t) : Heeding (s.owned t) := by
  unfold Client.owned
  split
  · exact ht
  · exact h

theorem heeding_step (h : Heeding s) (hsound : Sound s) {action : Action}
    (hheard : ∀ id, action = .cancelRequest id → Heard s id) : Heeding (s.step action) := by
  cases action with
  | request method params onProgress stopped => exact heeding_owned h (heeding_request h method params onProgress stopped)
  | notify method params => exact heeding_owned h (heeding_notify h method params)
  | cancelRequest id => exact heeding_cancelRequest h hsound (hheard id rfl)
  | setNotificationListener => exact heeding_owned h (heeding_startPump h)
  | setRequestHandler method => exact heeding_owned h ⟨h.obeyed, h.recorded, h.issued, h.stage⟩
  | close => exact heeding_close h hsound
  | resumeConnect stopped => exact heeding_resumeConnect h hsound stopped
  | pump spawned => exact heeding_pump h hsound spawned
  | completeRead result => exact heeding_completeRead h hsound result
  | deadline => exact heeding_deadline h hsound
  | written ok => exact heeding_written h hsound ok
  | handled outcome => exact heeding_handled h hsound outcome
  | stderrEnded => exact heeding_stderrEnded h hsound

theorem heeding_run (withRoots : Bool) (actions : List Action)
    (h : ∀ front id, front ++ [.cancelRequest id] <+: actions → Heard ((Client.connect withRoots).run front) id) :
    Heeding ((Client.connect withRoots).run actions) := by
  induction actions using List.reverseRecOn with
  | nil => exact heeding_connect withRoots
  | append_singleton actions action ih =>
    have hprev := ih fun front id hfront => h front id (hfront.trans (List.prefix_append _ _))
    rw [Client.run_concat]
    refine heeding_step hprev ((sound_connect withRoots).run actions) fun id hact => ?_
    rw [hact] at h
    exact h actions id (List.prefix_refl _)

/-- In every run in which every cancellation of an unsettled request finds the connection up, the request
queued, being written or awaited, and its response read neither completed with data nor timed out, a
cancelled request is abandoned and the pump does not wait for its response. -/
theorem heeds_run (withRoots : Bool) (actions : List Action)
    (h : ∀ front id, front ++ [.cancelRequest id] <+: actions → Heard ((Client.connect withRoots).run front) id) :
    Heeds ((Client.connect withRoots).run actions) where
  obeyed := (heeding_run withRoots actions h).obeyed
  awake := by
    intro item timedOut hphase hasked
    cases ((heeding_run withRoots actions h).stage item _ hphase).2 hasked

/-- A request that is cancelled while its response is read. -/
def cancelledCall : List Action :=
  handshake ++ [.request "tools/call" none false false, .pump true, .written true, .pump true,
    .cancelRequest 2, .pump true, .written true]

def Action.cancels : Action → Option Nat
  | .cancelRequest id => some id
  | _ => none

theorem heeds_run_cancelled : .settled 2 (.error .cancelled) ∈ ((Client.connect false).run cancelledCall).log ∧
      Heeds ((Client.connect false).run cancelledCall) := by
  obtain ⟨hsettled, hheard⟩ : .settled 2 (.error .cancelled) ∈ ((Client.connect false).run cancelledCall).log ∧
      ∀ n < cancelledCall.length, ((cancelledCall.drop n).head?.bind Action.cancels).all
        (fun id => decide (Heard ((Client.connect false).run (cancelledCall.take n)) id)) = true := by
    decide +kernel
  refine ⟨hsettled, heeds_run false cancelledCall fun front id hfront => ?_⟩
  obtain ⟨rest, hrest⟩ := hfront
  have hlength : front.length < cancelledCall.length := by
    simp [← hrest]
  have hfound := hheard front.length hlength
  simpa [← hrest, Action.cancels] using hfound

theorem Heeds.last (h : Heeds s) {id : Nat} {outcome : Outcome} {older : List Event}
    (hlog : s.log = .settled id outcome :: older) (hasked : .asked id ∈ older) : Abandoned outcome := by
  have hobeyed := h.obeyed
  rw [hlog] at hobeyed
  exact hobeyed.1 hasked

/-- The request of `callAfterDeath` is cancelled while the client reconnects for it, and answered. -/
def cancelledInReconnect : List Action :=
  handshake ++ [.pump true, .completeRead .endOfFile, .pump true, .pump true,
    .request "tools/call" none false false, .pump true, .cancelRequest 2, .written true, .pump true,
    .completeRead (.data (initializeReply 3)), .pump true, .written true, .pump true,
    .completeRead (.data "\x7b\"jsonrpc\":\"2.0\",\"id\":2,\"result\":\x7b\x7d\x7d\n"), .pump true]

/-- A request cancelled during a reconnect completes with its result. -/
theorem cancellation_lost_in_reconnect : ¬ ∀ withRoots actions, Heeds ((Client.connect withRoots).run actions) := by
  intro h
  obtain ⟨hhead, hasked⟩ : ((Client.connect false).run cancelledInReconnect).log.head?
        = some (.settled 2 (.ok (.object []))) ∧
      .asked 2 ∈ ((Client.connect false).run cancelledInReconnect).log.tail := by decide +kernel
  obtain ⟨older, hlog⟩ := List.head?_eq_some_iff.1 hhead
  rw [hlog, List.tail_cons] at hasked
  obtain ⟨failure, houtcome, -⟩ := (h false cancelledInReconnect).last hlog hasked
  cases houtcome

end CodingHarness.Mcp
