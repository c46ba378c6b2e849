import CodingHarness.Mcp.Settlement
import Mathlib.Data.List.Induction
import Mathlib.Data.List.Infix

/-!
# The handshake of a connection

A connection begins with `initialize`; no other request follows before its result is accepted and
`notifications/initialized` is written. The first connection queues that notification on an empty
queue. A reconnect runs inside the pump, with one frame popped and others queued, and puts the
notification behind them: the requests among them are written first.

`opens_run` is the property for every run in which no uncancelled request waits when a result is
accepted and the first `initialize` is not cancelled before it is written.
-/

namespace CodingHarness.Mcp

open Library Support
open List (mem_cons_of_mem mem_cons_self)

/-! ## What was written on a connection -/

def Event.written : Event → Option Frame
  | .sent frame => some frame
  | .wrote frame => some frame
  | _ => none

/-- Something was written on the current connection. -/
def Started (log : List Event) : Prop := ∃ event ∈ connection log, event.written ≠ none

instance (log : List Event) : Decidable (Started log) := inferInstanceAs (Decidable (∃ _ ∈ _, _))

/-- The handshake of the current connection is complete. -/
def Greeted (log : List Event) : Prop :=
  ∃ newer older waiting, connection log = newer ++ .sent initializedFrame :: older ∧ .accepted waiting ∈ older

/-- The first frame of a connection is `initialize`; a later request needs the complete handshake. -/
def WellPlaced (withRoots : Bool) (frame : Frame) (log : List Event) : Prop :=
  (¬ Started log → ∃ id, frame = initializeFrame withRoots id) ∧
    (Started log → frame.isRequest = true → Greeted log)

/-- Every frame of the log is well placed. -/
def Opens (withRoots : Bool) : List Event → Prop
  | [] => True
  | event :: older =>
    (∀ frame, event.written = some frame → WellPlaced withRoots frame older) ∧ Opens withRoots older

/-- Every connection of the client opens with the full handshake. -/
structure OpensWell (s : Client) : Prop where
  opens : Opens s.withRoots s.log

variable {event : Event}

theorem OpensWell.last {s : Client} (h : OpensWell s) {older : List Event} {frame : Frame}
    (hlog : s.log = event :: older) (hwrote : event.written = some frame) : WellPlaced s.withRoots frame older := by
  have hopens := h.opens
  rw [hlog] at hopens
  exact hopens.1 frame hwrote

section Logs

variable {log : List Event}

theorem connection_cons (hevent : event ≠ .spawned) : connection (event :: log) = event :: connection log := by
  simp [connection, hevent]

theorem Started.cons (h : Started log) (hevent : event ≠ .spawned) : Started (event :: log) := by
  obtain ⟨other, hmem, hother⟩ := h
  refine ⟨other, ?_, hother⟩
  rw [connection_cons hevent]
  exact mem_cons_of_mem _ hmem

theorem Started.of_cons (h : Started (event :: log)) (hevent : event.written = none) : Started log := by
  obtain ⟨other, hmem, hother⟩ := h
  by_cases hspawned : event = .spawned
  · simp [connection, hspawned] at hmem
  rw [connection_cons hspawned] at hmem
  rcases List.mem_cons.1 hmem with rfl | hmem
  · exact absurd hevent hother
  · exact ⟨other, hmem, hother⟩

theorem not_started_spawned : ¬ Started (.spawned :: log) := by
  rintro ⟨other, hmem, -⟩
  simp [connection] at hmem

theorem Greeted.cons (h : Greeted log) (hevent : event ≠ .spawned) : Greeted (event :: log) := by
  obtain ⟨newer, older, waiting, hconn, hacc⟩ := h
  refine ⟨event :: newer, older, waiting, ?_, hacc⟩
  rw [connection_cons hevent, hconn, List.cons_append]

theorem Greeted.started (h : Greeted log) : Started log := by
  obtain ⟨newer, older, waiting, hconn, -⟩ := h
  refine ⟨.sent initializedFrame, ?_, nofun⟩
  rw [hconn]
  exact List.mem_append_right _ mem_cons_self

theorem started_written {frame : Frame} (hwrote : event.written = some frame) (hevent : event ≠ .spawned) :
    Started (event :: log) :=
  ⟨event, by rw [connection_cons hevent]; exact mem_cons_self, by simp [hwrote]⟩

end Logs

/-! ## The frames that are not written yet -/

/-- The notification is on its way, and the requests ahead of it are cancelled. -/
def Ending (cancelled : List Nat) : List QueuedFrame → Prop
  | [] => False
  | item :: rest => item.frame = initializedFrame ∨
      ((item.isNotification = false → item.id ∈ cancelled) ∧ Ending cancelled rest)

variable {items : List QueuedFrame}

theorem Ending.append {cancelled : List Nat} (h : Ending cancelled items)
    (more : List QueuedFrame) : Ending cancelled (items ++ more) := by
  induction items with
  | nil => exact absurd h id
  | cons item rest ih =>
    rcases h with hitem | ⟨hitem, hrest⟩
    · exact .inl hitem
    · exact .inr ⟨hitem, ih hrest⟩

theorem Ending.mono {cancelled more : List Nat} (h : Ending cancelled items)
    (hmore : ∀ item ∈ items, item.id ∈ cancelled → item.isNotification = false → item.id ∈ more) :
    Ending more items := by
  induction items with
  | nil => exact absurd h id
  | cons item rest ih =>
    rcases h with hitem | ⟨hitem, hrest⟩
    · exact .inl hitem
    · exact .inr ⟨fun hreq => hmore item mem_cons_self (hitem hreq) hreq,
        ih hrest fun other hother => hmore other (mem_cons_of_mem _ hother)⟩

theorem ending_of_waiting {s : Client} (h : s.waiting items = []) :
    Ending s.cancelled (items ++ [⟨initializedFrame, false⟩]) := by
  induction items with
  | nil => exact .inl rfl
  | cons item rest ih =>
    simp only [Client.waiting, List.map_eq_nil_iff, List.filter_eq_nil_iff] at h
    refine .inr ⟨fun hreq => ?_, ih ?_⟩
    · simpa [hreq] using h item mem_cons_self
    · simp only [Client.waiting, List.map_eq_nil_iff, List.filter_eq_nil_iff]
      exact fun other hother => h other (mem_cons_of_mem _ hother)

/-- What may be unwritten while a connection is up. -/
inductive Ready (withRoots : Bool) (owner : Owner) (cancelled : List Nat) (log : List Event)
    (frames : List QueuedFrame) : Prop where
  | opening (howner : owner = .connecting) (hstarted : ¬ Started log) (hsent : sentFrames log = [])
      (hsettled : settledIds log = []) (hcancelled : 1 ∉ cancelled)
      (hframes : frames = [⟨initializeFrame withRoots 1, false⟩])
  | silent (howner : owner ≠ .handed) (hstarted : Started log) (hframes : frames = [])
  | ending (hstarted : Started log) (haccepted : ∃ waiting, .accepted waiting ∈ connection log)
      (hframes : Ending cancelled frames)
  | greeted (h : Greeted log)

theorem Ready.cons {withRoots : Bool} {owner : Owner} {cancelled : List Nat} {log : List Event}
    {frames : List QueuedFrame} {event : Event} (h : Ready withRoots owner cancelled log frames)
    (hbegun : Started log) (hevent : event ≠ .spawned) : Ready withRoots owner cancelled (event :: log) frames := by
  cases h with
  | opening howner hnot => exact absurd hbegun hnot
  | silent howner hbegun hframes => exact .silent howner (hbegun.cons hevent) hframes
  | ending hbegun hacc hframes =>
    obtain ⟨waiting, hacc⟩ := hacc
    refine .ending (hbegun.cons hevent) ⟨waiting, ?_⟩ hframes
    rw [connection_cons hevent]
    exact mem_cons_of_mem _ hacc
  | greeted h => exact .greeted (h.cons hevent)

/-! ## The invariant -/

/-- The connection is closed, or the client is not closing and the condition holds. -/
def Up (closed closing : Bool) (P : Prop) : Prop := closed = true ∨ (closing = false ∧ P)

theorem Up.imp {closed closing : Bool} {P Q : Prop} (h : Up closed closing P) (hpq : P → Q) :
    Up closed closing Q := Or.imp_right (And.imp_right hpq) h

/-- The pump is inside `reconnect_transport`. -/
def Phase.connects : Phase → Prop
  | .greeting _ _ => True
  | .reader (.connect _ _) _ => True
  | _ => False

/-- What keeps the handshakes in order. -/
structure Opening (s : Client) : Prop where
  opens : Opens s.withRoots s.log
  writing : ∀ item, s.phase = .writing item → WellPlaced s.withRoots item.frame s.log
  greeting : ∀ item id, s.phase = .greeting item id → ¬ Started s.log
  reading : ∀ who stage, s.phase = .reader who stage → Started s.log
  ready : Up s.closed s.closing
    (s.phase.connects ∨ Ready s.withRoots s.owner s.cancelled s.log (s.phase.unsent ++ s.queue))

/-- No request waits when an initialize result is accepted. -/
def Event.quiet : Event → Bool
  | .accepted waiting => waiting.isEmpty
  | _ => true

/-- No request waits when an initialize result is accepted, and the first `initialize` is not cancelled
before a frame is written. -/
def Fair (log : List Event) : Prop := (∀ event ∈ log, event.quiet = true) ∧ (.asked 1 ∈ log → sentFrames log ≠ [])

instance (log : List Event) : Decidable (Fair log) := inferInstanceAs (Decidable (_ ∧ _))

/-- The invariant of a state that a fair step reaches. -/
def Kept (s : Client) : Prop := Fair s.log → Opening s

/-- What holds while the pump reads on a connection. -/
structure Met (withRoots closed closing : Bool) (owner : Owner) (cancelled : List Nat) (queue : List QueuedFrame)
    (log : List Event) (who : Reader) : Prop where
  opens : Opens withRoots log
  started : Started log
  ready : Up closed closing
    ((∃ item id, who = .connect item id) ∨ Ready withRoots owner cancelled log (who.unsent ++ queue))
  distinct : ∀ item ∈ who.held, ∀ other ∈ queue, other.isNotification = false →
    item.isNotification = false → other.id ≠ item.id

variable {s : Client} {who : Reader} {item : QueuedFrame} {rest : List QueuedFrame}

theorem Ready.placed (h : Ready s.withRoots s.owner s.cancelled s.log (item :: rest))
    (hlive : item.isNotification = true ∨ item.id ∉ s.cancelled) : WellPlaced s.withRoots item.frame s.log := by
  cases h with
  | opening _ hbegun _ _ _ hframes =>
    cases hframes
    exact ⟨fun _ => ⟨1, rfl⟩, fun h => absurd h hbegun⟩
  | silent _ _ hframes => cases hframes
  | ending hbegun _ hframes =>
    refine ⟨fun h => absurd hbegun h, fun _ hreq => ?_⟩
    have hnote : item.isNotification = false := by simp [QueuedFrame.isNotification, hreq]
    rcases hframes with hframe | ⟨hcanc, -⟩
    · rw [hframe] at hreq
      cases hreq
    rcases hlive with hlive | hlive
    · rw [hlive] at hnote
      cases hnote
    · exact absurd (hcanc hnote) hlive
  | greeted h => exact ⟨fun hnot => absurd h.started hnot, fun _ _ => h⟩

theorem Ready.dropped
    (h : Ready s.withRoots s.owner s.cancelled s.log (item :: rest)) (hreq : item.isNotification = false)
    (hcanc : item.id ∈ s.cancelled) : Started s.log ∧ Ready s.withRoots s.owner s.cancelled s.log rest := by
  cases h with
  | opening _ _ _ _ hnot hframes =>
    cases hframes
    exact absurd hcanc hnot
  | silent _ _ hframes => cases hframes
  | ending hbegun hacc hframes =>
    rcases hframes with hframe | ⟨-, hrest⟩
    · simp [QueuedFrame.isNotification, hframe, initializedFrame, Frame.isRequest] at hreq
    · exact ⟨hbegun, .ending hbegun hacc hrest⟩
  | greeted h => exact ⟨h.started, .greeted h⟩

theorem opening_top (hopens : Opens s.withRoots s.log) (hphase : s.phase = .top)
    (hready : Up s.closed s.closing (Ready s.withRoots s.owner s.cancelled s.log s.queue)) : Opening s where
  opens := hopens
  writing := by simp [hphase]
  greeting := by simp [hphase]
  reading := by simp [hphase]
  ready := hready.imp fun h => .inr (by simpa [hphase, Phase.unsent] using h)

theorem opening_completeFrame (outcome : Outcome) (hopens : Opens s.withRoots s.log) (hready : Up s.closed s.closing
      (Ready s.withRoots s.owner s.cancelled s.log s.queue ∧ (item.isNotification = false → Started s.log)))
    (hdist : ∀ other ∈ s.queue, other.isNotification = false → item.isNotification = false → other.id ≠ item.id) :
    Opening (s.completeFrame item outcome) := by
  unfold Client.completeFrame
  split
  · exact opening_top hopens rfl (hready.imp And.left)
  rename_i hreq
  rw [Bool.not_eq_true] at hreq
  refine opening_top ⟨nofun, hopens⟩ rfl (hready.imp fun ⟨hready, hbegun⟩ => ?_)
  have hcons : Ready s.withRoots s.owner s.cancelled (.settled item.id outcome :: s.log) s.queue :=
    hready.cons (hbegun hreq) nofun
  cases hcons with
  | opening howner hnot => exact (hnot ((hbegun hreq).cons nofun)).elim
  | silent howner hbegun hframes => exact .silent howner hbegun hframes
  | ending hbegun hacc hframes =>
    refine .ending hbegun hacc (hframes.mono fun other hother hmem hnote => ?_)
    simp [hmem, hdist other hother hnote hreq]
  | greeted h => exact .greeted h

theorem opening_serveFrame (hopens : Opens s.withRoots s.log)
    (hready : Up s.closed s.closing (Ready s.withRoots s.owner s.cancelled s.log (item :: s.queue)))
    (hplaced : item.isNotification = true ∨ item.id ∉ s.cancelled → WellPlaced s.withRoots item.frame s.log)
    (hdist : ∀ other ∈ s.queue, other.isNotification = false → item.isNotification = false → other.id ≠ item.id) :
    Opening (s.serveFrame item) := by
  unfold Client.serveFrame
  split
  · rename_i hcanc
    simp only [Bool.and_eq_true, Bool.not_eq_true', List.contains_iff_mem] at hcanc
    refine opening_completeFrame _ hopens (hready.imp fun h => ?_) hdist
    obtain ⟨hbegun, hrest⟩ := h.dropped hcanc.1 hcanc.2
    exact ⟨hrest, fun _ => hbegun⟩
  rename_i hlive
  refine ⟨hopens, ?_, nofun, nofun, hready.imp .inr⟩
  rintro _ ⟨⟩
  refine hplaced ?_
  simp only [Bool.and_eq_true, Bool.not_eq_true', List.contains_iff_mem, not_and] at hlive
  rcases Bool.eq_false_or_eq_true item.isNotification with h | h
  · exact .inl h
  · exact .inr (hlive h)

/-! ## The reader -/

theorem Met.stage (h : Met s.withRoots s.closed s.closing s.owner s.cancelled s.queue s.log who) {stage : Stage}
    (hphase : s.phase = .reader who stage) : Opening s where
  opens := h.opens
  writing := by simp [hphase]
  greeting := by simp [hphase]
  reading := fun _ _ _ => h.started
  ready := by
    refine h.ready.imp ?_
    rintro (⟨item, id, rfl⟩ | hready)
    · exact .inl (by simp [hphase, Phase.connects])
    · exact .inr (by simpa [hphase, Phase.unsent] using hready)

theorem Opening.met (h : Opening s) (hsound : Sound s) {stage : Stage} (hphase : s.phase = .reader who stage) :
    Met s.withRoots s.closed s.closing s.owner s.cancelled s.queue s.log who where
  opens := h.opens
  started := h.reading who stage hphase
  ready := by
    refine h.ready.imp ?_
    rintro (hconnects | hready)
    · rw [hphase] at hconnects
      cases who with
      | idle | serve item => exact absurd hconnects id
      | connect item id => exact .inl ⟨item, id, rfl⟩
    · exact .inr (by simpa [hphase, Phase.unsent] using hready)
  distinct := by
    intro item hitem
    exact hsound.distinct item (by rw [hphase]; exact hitem)

section

variable (h : Met s.withRoots s.closed s.closing s.owner s.cancelled s.queue s.log who)
include h

theorem Met.cons (event : Event)
    (hevent : event ≠ .spawned) (hwrote : ∀ frame, event.written = some frame → frame.isRequest = false) :
    Met s.withRoots s.closed s.closing s.owner s.cancelled s.queue (event :: s.log) who where
  opens := ⟨fun frame hframe => ⟨fun hnot => absurd h.started hnot, fun _ hreq => by
    rw [hwrote frame hframe] at hreq; cases hreq⟩, h.opens⟩
  started := h.started.cons hevent
  ready := h.ready.imp (Or.imp_right fun hready => hready.cons h.started hevent)
  distinct := h.distinct

theorem Met.close :
    Met s.withRoots true s.closing s.owner s.cancelled s.queue s.log who := ⟨h.opens, h.started, .inl rfl, h.distinct⟩

theorem Met.ready_of
    (hconnect : ∀ item id, who ≠ .connect item id) :
    Up s.closed s.closing (Ready s.withRoots s.owner s.cancelled s.log (who.unsent ++ s.queue)) := by
  refine h.ready.imp ?_
  rintro (⟨item, id, hwho⟩ | hready)
  · exact absurd hwho (hconnect item id)
  · exact hready

theorem Met.again :
    Opening (s.again who) := by
  cases who with
  | idle => exact opening_top h.opens rfl (h.ready_of nofun)
  | connect item id | serve item => exact Met.stage h rfl

end

theorem mem_log_serveFrame (h : event ∈ s.log) : event ∈ (s.serveFrame item).log := by
  unfold Client.serveFrame Client.completeFrame
  repeat' split
  all_goals first | exact h | exact mem_cons_of_mem _ h

theorem mem_log_notify {method : Bytes} {params : Option Json} (h : event ∈ s.log) :
    event ∈ (s.notify method params).log := by
  obtain ⟨-, hsame⟩ | ⟨-, phase, hqueued⟩ := s.notify_cases method params
  · rwa [hsame]
  · rw [hqueued]
    exact mem_cons_of_mem _ h

/-- The result of a reconnect is accepted: its notification is queued behind frames that may be written. -/
theorem Met.accept {id : Nat} {instructions : Option Bytes} {capabilities : JsonObject Json}
    (h : Met s.withRoots s.closed s.closing s.owner s.cancelled s.queue s.log (.connect item id))
    (hwaiting : s.waiting (item :: s.queue) = []) : Opening (({ s with
      serverInstructions := instructions, serverCapabilities := capabilities
      log := .accepted (s.waiting (item :: s.queue)) :: s.log
      }.notify "notifications/initialized" none).serveFrame item) := by
  have hdist := fun other => h.distinct item mem_cons_self other
  have hmet := h.cons (.accepted (s.waiting (item :: s.queue))) (by simp) (by rintro _ ⟨⟩)
  have hending := ending_of_waiting hwaiting
  have hplaced {log : List Event} (hbegun : Started log)
      (hlive : item.isNotification = true ∨ item.id ∉ s.cancelled) :
      WellPlaced s.withRoots item.frame log := by
    refine ⟨fun hnot => absurd hbegun hnot, fun _ hreq => ?_⟩
    have hnote : item.isNotification = false := by simp [QueuedFrame.isNotification, hreq]
    simp only [Client.waiting, List.map_eq_nil_iff, List.filter_eq_nil_iff] at hwaiting
    have hcanc := hwaiting item mem_cons_self
    simp_all
  rcases Client.notify_cases { s with
      serverInstructions := instructions, serverCapabilities := capabilities
      log := .accepted (s.waiting (item :: s.queue)) :: s.log } "notifications/initialized" none
    with ⟨hclosed, hsame⟩ | ⟨hclosed, phase, hqueued⟩
  · rw [hsame]
    exact opening_serveFrame hmet.opens (.inl hclosed) (hplaced hmet.started) hdist
  rw [hqueued]
  have hclosing := (h.ready.resolve_left (Bool.eq_false_iff.1 hclosed)).1
  have hbegun : Started (.queued initializedFrame :: .accepted (s.waiting (item :: s.queue)) :: s.log) :=
    hmet.started.cons (by simp)
  have hacc : .accepted (s.waiting (item :: s.queue)) ∈
      connection (.queued initializedFrame :: .accepted (s.waiting (item :: s.queue)) :: s.log) := by
    simp [connection]
  refine opening_serveFrame ⟨(by rintro _ ⟨⟩), hmet.opens⟩ (.inr ⟨hclosing, .ending hbegun ⟨_, hacc⟩ hending⟩)
    (hplaced hbegun) fun other hother => ?_
  rcases List.mem_append.1 hother with hother | hother
  · exact hdist other hother
  · rw [List.mem_singleton.1 hother]
    rintro ⟨⟩

section

variable (h : Met s.withRoots s.closed s.closing s.owner s.cancelled s.queue s.log who)
include h

theorem Met.finish
    (outcome : Outcome) : Kept (s.finish who outcome) := by
  cases who with
  | idle => exact fun _ => opening_top h.opens rfl (h.ready_of nofun)
  | serve item =>
    intro _
    refine opening_completeFrame _ h.opens ?_ fun other => h.distinct item mem_cons_self other
    exact (h.ready_of nofun).imp fun hready => ⟨hready, fun _ => h.started⟩
  | connect item id =>
    have hdist := fun other => h.distinct item mem_cons_self other
    cases outcome with
    | error failure => exact fun _ => opening_completeFrame _ h.opens (.inl rfl) hdist
    | ok result =>
      rw [Client.finish]
      split
      · exact fun _ => opening_completeFrame _ h.opens (.inl rfl) hdist
      intro hfair
      have hquiet := hfair.1 _ (mem_log_serveFrame (mem_log_notify mem_cons_self))
      exact h.accept (List.isEmpty_iff.1 hquiet)

/-! ## Reading -/

theorem Met.reads {t : Client}
    (hreads : s.Reads who t) : Kept t := by
  cases hreads with
  | waits buffer discarding => exact fun _ => Met.stage h rfl
  | malformed buffer =>
    intro _
    refine Met.again ?_
    exact h
  | skips buffer message => exact fun _ => Met.again (h.cons (.read who.id message) nofun nofun)
  | handles buffer message id | replies buffer message reply =>
    exact fun _ => Met.stage (h.cons (.read who.id message) nofun nofun) rfl
  | answers buffer message outcome hanswer => exact Met.finish (h.cons (.read who.id message) nofun nofun) outcome

theorem Met.readLine :
    Kept (s.readLine who) := h.reads (s.readLine_reads who)

theorem Met.lineEnded
    (reason : LineEnd) : Kept (s.lineEnded who reason) := by
  unfold Client.lineEnded
  split
  · rename_i hidle
    subst hidle
    exact fun _ => opening_top h.opens rfl (h.ready_of nofun)
  split
  · exact fun _ => Met.stage h rfl
  split
  · exact fun _ => Met.stage h rfl
  · exact fun _ => Met.stage h rfl
  · split
    · exact h.finish _
    · exact fun _ => Met.stage h rfl

theorem Met.readDone (timedOut : Bool)
    (result : ReadResult) : Kept (s.readDone who timedOut result) := by
  unfold Client.readDone
  split
  · exact Met.lineEnded h.close _
  · exact Met.lineEnded h.close _
  · exact h.lineEnded _
  · refine Met.readLine ?_
    exact h

end

/-! ## The pump -/

theorem kept_pump (h : Opening s) (hsound : Sound s) (spawned : Bool) : Kept (s.pump spawned) := by
  unfold Client.pump
  split
  · rename_i hphase
    have hready : Up s.closed s.closing (Ready s.withRoots s.owner s.cancelled s.log s.queue) := by
      simpa [hphase, Phase.connects, Phase.unsent] using h.ready
    split
    · rename_i hqueue
      split
      · rename_i hclosed
        exact fun _ => ⟨h.opens, (by simp), (by simp), (by simp), .inl hclosed⟩
      rename_i hclosed
      refine Met.readLine ⟨h.opens, ?_, hready.imp .inr, (by rintro _ ⟨⟩)⟩
      rw [hqueue] at hready
      rcases (hready.resolve_left hclosed).2 with ⟨_, _, _, _, _, hframes⟩ | ⟨-, hbegun, -⟩ |
        ⟨hbegun, -, -⟩ | hgreeted
      · cases hframes
      · exact hbegun
      · exact hbegun
      · exact hgreeted.started
    rename_i item rest hqueue
    have hdist := (hsound.popped hphase hqueue).distinct item mem_cons_self
    rw [hqueue] at hready
    dsimp only
    intro _
    split
    · rename_i hclosing
      refine opening_completeFrame _ h.opens (.inl ?_) hdist
      rcases hready with hclosed | ⟨hopen, -⟩
      · exact hclosed
      · rw [hclosing] at hopen
        cases hopen
    rename_i hclosing
    split
    · unfold Client.reconnectTransport
      split
      · exact ⟨⟨(by rintro _ ⟨⟩), h.opens⟩, (by simp), fun _ _ _ => not_started_spawned, (by simp),
          .inr ⟨Bool.eq_false_iff.2 hclosing, .inl trivial⟩⟩
      · exact opening_completeFrame _ h.opens (.inl rfl) hdist
    rename_i hclosed
    have hopen := hready.resolve_left hclosed
    exact opening_serveFrame h.opens (.inr hopen) hopen.2.placed hdist
  · rename_i hphase
    have hmet := h.met hsound hphase
    split
    · exact fun _ => Met.stage hmet rfl
    · exact hmet.readLine
  · rename_i hphase
    exact (h.met hsound hphase).readDone _ _
  · exact fun _ => h

theorem kept_written (h : Opening s) (hsound : Sound s) (ok : Bool) : Kept (s.written ok) := by
  unfold Client.written
  dsimp only
  split
  · rename_i item id hphase
    have hnot := h.greeting item id hphase
    split
    · have hopens : Opens s.withRoots (.wrote (initializeFrame s.withRoots id) :: s.log) := by
        refine ⟨?_, h.opens⟩
        rintro _ ⟨⟩
        exact ⟨fun _ => ⟨id, rfl⟩, fun hbegun => absurd hbegun hnot⟩
      refine fun _ => ⟨hopens, (by simp), (by simp), fun _ _ _ => started_written rfl (by simp), ?_⟩
      exact h.ready.imp fun _ => .inl trivial
    · exact fun _ => opening_completeFrame _ h.opens (.inl rfl) 
        (hsound.distinct item (by rw [hphase]; exact mem_cons_self))
  · rename_i item hphase
    have hplaced := h.writing item hphase
    have hopens : Opens s.withRoots (.sent item.frame :: s.log) := by
      refine ⟨?_, h.opens⟩
      rintro _ ⟨⟩
      exact hplaced
    have hbegun : Started (.sent item.frame :: s.log) := started_written rfl (by simp)
    have hready : Up s.closed s.closing
        (Ready s.withRoots s.owner s.cancelled (.sent item.frame :: s.log) s.queue) := by
      refine h.ready.imp ?_
      rintro (hconnects | hready)
      · simp [hphase, Phase.connects] at hconnects
      simp only [hphase, Phase.unsent, List.singleton_append] at hready
      cases hready with
      | opening howner _ _ _ _ hframes =>
        exact .silent (by simp [howner]) hbegun (List.cons.inj hframes).2
      | silent _ _ hframes => cases hframes
      | ending hprev hacc hframes =>
        obtain ⟨waiting, hacc⟩ := hacc
        rcases hframes with hframe | ⟨-, hrest⟩
        · refine .greeted ⟨[], connection s.log, waiting, ?_, hacc⟩
          simp [connection, hframe]
        · exact .ending hbegun ⟨waiting, by simpa [connection] using hacc⟩ hrest
      | greeted h => exact .greeted (h.cons (by simp))
    split
    · exact fun _ => opening_completeFrame _ h.opens (.inl rfl) 
        (hsound.distinct item (by rw [hphase]; exact mem_cons_self))
    split
    · exact fun _ => opening_top hopens rfl hready
    · exact fun _ => ⟨hopens, (by simp), (by simp), fun _ _ _ => hbegun, hready.imp .inr⟩
  · rename_i message hphase
    have hmet := h.met hsound hphase
    split
    · exact fun _ => Met.again (hmet.cons (.wrote (.response message)) (by simp) (by rintro _ ⟨⟩; rfl))
    · exact fun _ => Met.again hmet.close
  · rename_i who failure hphase
    have hmet := h.met hsound hphase
    split
    · exact Met.finish (hmet.cons (.wrote (cancellationFrame who.id)) (by simp) (by rintro _ ⟨⟩; rfl)) _
    · exact hmet.finish _
  · exact fun _ => h

/-! ## Calls and completed operations -/

theorem Opening.stage (h : Opening s) (hsound : Sound s) {before after : Stage}
    (hphase : s.phase = .reader who before) : Opening { s with phase := .reader who after } :=
  Met.stage (h.met hsound hphase) rfl

theorem opening_handled (h : Opening s) (hsound : Sound s) (outcome : Except Bytes Json) :
    Opening (s.handled outcome) := by
  unfold Client.handled
  split
  · rename_i hphase
    exact h.stage hsound hphase
  · rename_i hphase
    exact h.stage hsound hphase
  · exact h

theorem kept_stderrEnded (h : Opening s) (hsound : Sound s) : Kept s.stderrEnded := by
  unfold Client.stderrEnded
  dsimp only
  split
  · rename_i hphase
    refine Met.finish ?_ _
    exact h.met hsound hphase
  · exact fun _ => ⟨h.opens, h.writing, h.greeting, h.reading, h.ready⟩

theorem opening_completeRead (h : Opening s) (hsound : Sound s) (result : ReadResult) :
    Opening (s.completeRead result) := by
  unfold Client.completeRead
  split
  · rename_i hphase
    exact h.stage hsound hphase
  · exact h

theorem opening_deadline (h : Opening s) (hsound : Sound s) : Opening s.deadline := by
  unfold Client.deadline
  split
  · exact h
  · rename_i hphase
    exact h.stage hsound hphase
  · exact h

theorem opening_startPump (h : Opening s) : Opening s.startPump := by
  unfold Client.startPump
  split
  · rename_i hphase
    refine ⟨h.opens, nofun, nofun, fun _ _ _ => h.reading _ _ hphase, ?_⟩
    simpa [hphase, Phase.connects, Phase.unsent] using h.ready
  · rename_i hphase
    split
    · refine opening_top h.opens rfl ?_
      simpa [hphase, Phase.connects, Phase.unsent] using h.ready
    · exact h
  · exact h

theorem WellPlaced.note {withRoots : Bool} {frame : Frame} {log : List Event}
    (h : WellPlaced withRoots frame log) (hevent : event ≠ .spawned) (hwrote : event.written = none) :
    WellPlaced withRoots frame (event :: log) :=
  ⟨fun hnot => h.1 fun hbegun => hnot (hbegun.cons hevent),
    fun hbegun hreq => (h.2 (hbegun.of_cons hwrote) hreq).cons hevent⟩

theorem Ready.note {log : List Event} {frames : List QueuedFrame} {owner : Owner}
    (h : Ready s.withRoots owner s.cancelled log frames) (hevent : event ≠ .spawned)
    (hwrote : event.written = none) (hsettled : settledIds (event :: log) = settledIds log) :
    Ready s.withRoots owner s.cancelled (event :: log) frames := by
  cases h with
  | opening howner hbegun hsent hnone hcanc hframes =>
    refine .opening howner (fun h => hbegun (h.of_cons hwrote)) ?_ (hsettled.trans hnone) hcanc hframes
    cases event with
    | sent frame => cases hwrote
    | _ => exact hsent
  | silent howner hbegun hframes => exact (Ready.silent howner hbegun hframes).cons hbegun hevent
  | ending hbegun hacc hframes => exact (Ready.ending hbegun hacc hframes).cons hbegun hevent
  | greeted h => exact (Ready.greeted h).cons h.started hevent

theorem Opening.note (h : Opening s) (event : Event) (hevent : event ≠ .spawned)
    (hwrote : event.written = none) (hsettled : settledIds (event :: s.log) = settledIds s.log) :
    Opening { s with log := event :: s.log } where
  opens := ⟨by simp [hwrote], h.opens⟩
  writing := fun item hitem => (h.writing item hitem).note hevent hwrote
  greeting := fun item id hphase hbegun => h.greeting item id hphase (hbegun.of_cons hwrote)
  reading := fun who stage hphase => (h.reading who stage hphase).cons hevent
  ready := h.ready.imp (Or.imp_right fun hready => hready.note hevent hwrote hsettled)

theorem opening_enqueueFrame (h : Opening s) (howner : s.owner = .handed) (item : QueuedFrame) (nextId : Nat) :
    Opening ({ s with nextId := nextId }.enqueueFrame item) := by
  have hnote := h.note (.queued item.frame) nofun rfl rfl
  refine opening_startPump ⟨hnote.opens, hnote.writing, hnote.greeting, hnote.reading, hnote.ready.imp ?_⟩
  refine Or.imp_right fun hready => ?_
  dsimp only at hready ⊢
  rw [← List.append_assoc]
  cases hready with
  | opening hconnecting => simp [howner] at hconnecting
  | silent hother => exact absurd howner hother
  | ending hbegun hacc hframes => exact .ending hbegun hacc (hframes.append [item])
  | greeted h => exact .greeted h

theorem opening_notify (h : Opening s) (howner : s.owner = .handed) (method : Bytes) (params : Option Json) :
    Opening (s.notify method params) := by
  unfold Client.notify
  split
  · exact h
  · exact opening_enqueueFrame h howner _ s.nextId

theorem opening_request (h : Opening s) (howner : s.owner = .handed) (method : Bytes) (params : Option Json)
    (onProgress stopped : Bool) : Opening (s.request method params onProgress stopped) := by
  unfold Client.request
  dsimp only
  split
  · exact h
  · exact opening_enqueueFrame h howner _ _

theorem opening_close (h : Opening s) (hsound : Sound s) : Opening s.close := by
  have hshut : Opening { s with closing := true, closed := true } :=
    ⟨h.opens, h.writing, h.greeting, h.reading, .inl rfl⟩
  exact opening_completeRead hshut ⟨hsound.ledger, hsound.answered, hsound.served, hsound.stopped⟩ _

theorem kept_cancelRequest (h : Opening s) (hsound : Sound s) (id : Nat) : Kept (s.cancelRequest id) := by
  unfold Client.cancelRequest
  dsimp only
  split
  · exact fun _ => h
  have hasked : Opening { s with log := .asked id :: s.log } := h.note (.asked id) nofun rfl rfl
  split
  · exact fun _ => hasked
  have hcanc : Fair (.asked id :: s.log) →
      Opening { s with log := .asked id :: s.log, cancelled := id :: s.cancelled } := by
    intro hfair
    refine ⟨hasked.opens, hasked.writing, hasked.greeting, hasked.reading, hasked.ready.imp ?_⟩
    refine Or.imp_right fun hready => ?_
    cases hready with
    | opening howner hbegun hsent hsettled hnot hframes =>
      refine .opening howner hbegun hsent hsettled ?_ hframes
      rintro (_ | ⟨_, hmem⟩)
      · exact hfair.2 mem_cons_self hsent
      · exact hnot hmem
    | silent howner hbegun hframes => exact .silent howner hbegun hframes
    | ending hbegun hacc hframes =>
      exact .ending hbegun hacc (hframes.mono fun _ _ hmem _ => mem_cons_of_mem _ hmem)
    | greeted h => exact .greeted h
  split
  · intro hfair
    rw [Client.completeRead_log] at hfair
    exact opening_completeRead (hcanc hfair) (hsound.asked id _) _
  · exact hcanc

theorem settledIds_of_firstOutcome {outcome : Outcome} (h : s.firstOutcome = some outcome) :
    settledIds s.log ≠ [] := by
  obtain ⟨event, hmem, hevent⟩ := List.exists_of_findSome?_eq_some h
  intro hnone
  cases event with
  | settled id other =>
    have hid : id ∈ settledIds s.log := List.mem_filterMap.2 ⟨_, hmem, rfl⟩
    rw [hnone] at hid
    cases hid
  | _ => cases hevent

theorem opening_owner (h : Opening s) (hsettled : settledIds s.log ≠ []) (owner : Owner) (howner : owner ≠ .handed) :
    Opening { s with owner := owner } := by
  refine ⟨h.opens, h.writing, h.greeting, h.reading, h.ready.imp (Or.imp_right fun hready => ?_)⟩
  cases hready with
  | opening _ _ _ hnone => exact absurd hnone hsettled
  | silent _ hbegun hframes => exact .silent howner hbegun hframes
  | ending hbegun hacc hframes => exact .ending hbegun hacc hframes
  | greeted h => exact .greeted h

theorem opening_resumeConnect (h : Opening s) (hsound : Sound s) (stopped : Bool) :
    Opening (s.resumeConnect stopped) := by
  unfold Client.resumeConnect
  split
  · exact h
  split
  · exact h
  · rename_i hfirst
    have hrefused := opening_owner h (settledIds_of_firstOutcome hfirst) .refused (by simp)
    exact opening_close hrefused ⟨hsound.ledger, hsound.answered, hsound.served, hsound.stopped⟩
  · rename_i result hfirst
    have hsettled := settledIds_of_firstOutcome hfirst
    have hrefused := opening_owner h hsettled .refused (by simp)
    split
    · exact opening_close hrefused ⟨hsound.ledger, hsound.answered, hsound.served, hsound.stopped⟩
    split
    · exact hrefused
    have hacc := h.note (.accepted (s.waiting s.queue)) (by simp) rfl rfl
    unfold Client.notify
    split
    · rename_i hclosed
      exact ⟨hacc.opens, hacc.writing, hacc.greeting, hacc.reading, .inl hclosed⟩
    have hqueued := hacc.note (.queued initializedFrame) (by simp) rfl rfl
    refine opening_startPump ⟨hqueued.opens, hqueued.writing, hqueued.greeting, hqueued.reading,
      h.ready.imp (Or.imp_right fun hready => ?_)⟩
    have hmem : .accepted (s.waiting s.queue) ∈
        connection (.queued initializedFrame :: .accepted (s.waiting s.queue) :: s.log) := by
      simp [connection]
    have hstart (h : Started s.log) : Started (.accepted (s.waiting s.queue) :: s.log) := h.cons (by simp)
    dsimp only
    rw [← List.append_assoc]
    cases hready with
    | opening _ _ _ hnone => exact absurd hnone hsettled
    | silent _ hbegun hframes =>
      rw [hframes]
      exact .ending ((hstart hbegun).cons (by simp)) ⟨_, hmem⟩ (.inl rfl)
    | ending hbegun _ hframes =>
      exact .ending ((hstart hbegun).cons (by simp)) ⟨_, hmem⟩ (hframes.append _)
    | greeted h =>
      have hgreeted : Greeted (.accepted (s.waiting s.queue) :: s.log) := h.cons (by simp)
      exact .greeted (hgreeted.cons (by simp))

/-! ## Runs -/

theorem opening_connect (withRoots : Bool) : Opening (Client.connect withRoots) where
  opens := ⟨nofun, nofun, trivial⟩
  writing := nofun
  greeting := nofun
  reading := nofun
  ready := by
    refine .inr ⟨rfl, .inr (.opening rfl ?_ rfl rfl nofun rfl)⟩
    rintro ⟨event, hmem, hwrote⟩
    have hevent : event = .queued (initializeFrame withRoots 1) := by
      simpa [Client.connect, connection] using hmem
    exact hwrote (by rw [hevent]; rfl)

theorem opening_owned (h : Opening s) {t : Client} (ht : s.owner = .handed → Opening t) : Opening (s.owned t) := by
  unfold Client.owned
  split
  · rename_i howner
    exact ht howner
  · exact h

theorem kept_step (h : Opening s) (hsound : Sound s) (action : Action) : Kept (s.step action) := by
  cases action with
  | request method params onProgress stopped =>
    exact fun _ => opening_owned h fun howner => opening_request h howner method params onProgress stopped
  | notify method params => exact fun _ => opening_owned h fun howner => opening_notify h howner method params
  | cancelRequest id => exact kept_cancelRequest h hsound id
  | setNotificationListener => exact fun _ => opening_owned h fun _ => opening_startPump h
  | setRequestHandler method =>
    exact fun _ => opening_owned h fun _ => ⟨h.opens, h.writing, h.greeting, h.reading, h.ready⟩
  | close => exact fun _ => opening_close h hsound
  | resumeConnect stopped => exact fun _ => opening_resumeConnect h hsound stopped
  | pump spawned => exact kept_pump h hsound spawned
  | completeRead result => exact fun _ => opening_completeRead h hsound result
  | deadline => exact fun _ => opening_deadline h hsound
  | written ok => exact kept_written h hsound ok
  | handled outcome => exact fun _ => opening_handled h hsound outcome
  | stderrEnded => exact kept_stderrEnded h hsound

theorem opening_run (withRoots : Bool) (actions : List Action)
    (h : ∀ front, front <+: actions → Fair ((Client.connect withRoots).run front).log) :
    Opening ((Client.connect withRoots).run actions) := by
  induction actions using List.reverseRecOn with
  | nil => exact opening_connect withRoots
  | append_singleton actions action ih =>
    have hprev := ih fun front hfront => h front (hfront.trans (List.prefix_append _ _))
    have hfair := h _ (List.prefix_refl _)
    rw [Client.run_concat] at hfair ⊢
    exact kept_step hprev ((sound_connect withRoots).run actions) action hfair

/-- In every run in which no uncancelled request waits when an initialize result is accepted, and the
first `initialize` is not cancelled before it is written, every connection opens with the full handshake. -/
theorem opens_run (withRoots : Bool) (actions : List Action)
    (h : ∀ front, front <+: actions → Fair ((Client.connect withRoots).run front).log) :
    OpensWell ((Client.connect withRoots).run actions) :=
  ⟨(opening_run withRoots actions h).opens⟩

/-- The server dies while it serves request 2. The client reconnects for request 3, which is cancelled, and the
new server answers request 5. -/
def callAfterReconnect : List Action :=
  handshake ++ [.request "tools/call" none false false, .pump true, .written true, .pump true,
    .request "tools/call" none false false, .cancelRequest 3, .completeRead .endOfFile, .pump true, .stderrEnded,
    .pump true, .written true, .pump true, .completeRead (.data (initializeReply 4)), .pump true, .pump true,
    .written true, .request "tools/list" none false false, .pump true, .written true, .pump true,
    .completeRead (.data "\x7b\"jsonrpc\":\"2.0\",\"id\":5,\"result\":\x7b\x7d\x7d\n"), .pump true]

theorem opens_run_reconnected : (.settled 5 (.ok (.object []))) ∈ ((Client.connect false).run callAfterReconnect).log ∧
      OpensWell ((Client.connect false).run callAfterReconnect) := by
  have hfair : ∀ front ∈ callAfterReconnect.inits, Fair ((Client.connect false).run front).log := by
    decide +kernel
  exact ⟨by decide +kernel,
    opens_run false callAfterReconnect fun front hfront => hfair front ((List.mem_inits _ _).2 hfront)⟩

/-- The server dies after the handshake; the next call reconnects. -/
def callAfterDeath : List Action := handshake ++ [.pump true, .completeRead .endOfFile, .pump true, .pump true,
    .request "tools/call" none false false, .pump true, .written true, .pump true,
    .completeRead (.data (initializeReply 3)), .pump true, .written true]

/-- The call is written before the notification. -/
theorem reconnect_writes_call_first : ¬ ∀ withRoots actions, OpensWell ((Client.connect withRoots).run actions) := by
  intro h
  obtain ⟨hhead, hnone⟩ : ((Client.connect false).run callAfterDeath).log.head?
        = some (.sent (.request 2 "tools/call" none)) ∧
      Started ((Client.connect false).run callAfterDeath).log.tail ∧
      .sent initializedFrame ∉ connection ((Client.connect false).run callAfterDeath).log.tail := by decide +kernel
  obtain ⟨older, hlog⟩ := List.head?_eq_some_iff.1 hhead
  have hplaced := (h false callAfterDeath).last hlog rfl
  rw [hlog, List.tail_cons] at hnone
  obtain ⟨newer, before, -, hconnection, -⟩ := hplaced.2 hnone.1 rfl
  refine hnone.2 ?_
  rw [hconnection]
  exact List.mem_append_right _ mem_cons_self

end CodingHarness.Mcp
