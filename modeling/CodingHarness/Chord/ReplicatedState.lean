import CodingHarness.Chord.Delta
import CodingHarness.Library.Moves

/-!
# Replicated state

The publisher and the subscribers of `ReplicatedState.cpp` as a machine. Listeners, their completions
and the error hook are code of the caller that may call back into the package at any time, so a state
holds the stack of calls in progress: a `publish` loop with the pushes it still has to make, a
`drain` loop of a subscriber at its head or inside its listener, and the two places that call the
error hook. `proceed` lets the code of the package on top of the stack go on; every other move is one
of the caller, who has control when the stack is empty or when the call on top is its own.

All of this runs in one serialized domain, as the header asks, so a move is one uninterrupted piece of
code. `received` and `published` record what a listener was called with and which values were
published; the program does not keep them.
-/

namespace CodingHarness.Chord

open Library Support

/-! ## States -/

/-- `ReplicatedStateDeliveryKind`. -/
inductive DeliveryKind where
  | hydrate
  | update
  deriving DecidableEq

structure StateDelivery (C : Type) where
  value : Json
  context : C
  kind : DeliveryKind
  sequence : Nat
  deriving DecidableEq

/-- `kReplicatedStatePendingLimit`. -/
def pendingLimit : Nat := 100

/-- `StateSubscriber`, with the deliveries its listener has been called with. -/
structure StateSubscriber (C : Type) where
  pending : List (StateDelivery C) := []
  running : Bool := false
  started : Bool := false
  closed : Bool := false
  received : List (StateDelivery C) := []
  deriving DecidableEq

/-- A revision that waits for its dispatch. -/
structure Publication (C : Type) where
  value : Json
  sequence : Nat
  context : C
  deriving DecidableEq

/-- A registration of the publisher. -/
structure Listener where
  subscriber : Nat
  hydratedSequence : Nat
  deriving DecidableEq

/-- The handshake between a listener's completion and the drain loop. -/
inductive Handshake where
  | running
  | returned
  | inline
  deriving DecidableEq

/-- One call of a listener; `settled` once its completion has been called. -/
structure Callback where
  subscriber : Nat
  handshake : Handshake := .running
  settled : Bool := false
  deriving DecidableEq

/-- A call in progress. -/
inductive Frame (C : Type) where
  | publish (work : List (Publication C × Listener))
  | drain (subscriber : Nat) (callback : Option Nat)
  | report (callback : Nat)
  | hook
  deriving DecidableEq

/-- `ReplicatedStatePublisher` and `AttachedReplicatedState::Impl`. -/
structure ReplicatedState (C : Type) where
  value : Json
  sequence : Nat := 0
  publications : List (Publication C) := []
  listeners : List Listener := []
  delivering : Bool := false
  cursor : Int
  disposed : Bool := false
  subscribers : List (StateSubscriber C) := []
  callbacks : List Callback := []
  stack : List (Frame C) := []
  published : List Json
  deriving DecidableEq

/-! ## Subscribers -/

namespace StateSubscriber

variable {C : Type} (sub : StateSubscriber C)

/-- `StateSubscriber::push`: overflow keeps the newest delivery, and the cold hydration while the
subscription has not started. -/
def push (frame : StateDelivery C) : StateSubscriber C := if sub.closed then sub
  else if sub.pending.length = pendingLimit then
    { sub with pending := (if sub.started then [] else sub.pending.take 1) ++ [frame] }
  else { sub with pending := sub.pending ++ [frame] }

/-- `StateSubscriber::close`. -/
def close : StateSubscriber C := { sub with closed := true, pending := [] }

/-- The deliveries its listener has got or still waits for. -/
def deliveries : List (StateDelivery C) := sub.received ++ sub.pending

end StateSubscriber

namespace ReplicatedState

variable {C : Type} (background : C) (w : ReplicatedState C)

/-- `AttachedReplicatedState::attach` to a source with the given snapshot. -/
def attach (value : Json) (cursor : Int) : ReplicatedState C :=
  { value := value, cursor := cursor, published := [value] }

/-- `StateSubscriber::push` on one subscriber. -/
def push (subscriber : Nat) (frame : StateDelivery C) : ReplicatedState C :=
  { w with subscribers := w.subscribers.modify subscriber (·.push frame) }

/-- The start of `StateSubscriber::drain`: nothing while a callback runs or after a close. -/
def drain (subscriber : Nat) : ReplicatedState C := match w.subscribers[subscriber]? with
  | none => w
  | some sub =>
    if sub.running || sub.closed then w
    else
      { w with
        subscribers := w.subscribers.modify subscriber ({ · with running := true })
        stack := .drain subscriber none :: w.stack }

/-- The end of a completion: an inline one leaves the loop to go on, a deferred one resumes it. -/
def settle (callback : Nat) : ReplicatedState C := match w.callbacks[callback]? with
  | none => w
  | some called =>
    match called.handshake with
    | .running =>
      { w with callbacks := w.callbacks.modify callback ({ · with handshake := .inline }) }
    | .returned | .inline =>
      { w with
        subscribers := w.subscribers.modify called.subscriber ({ · with running := false })
        : ReplicatedState C }.drain called.subscriber

/-- `ReplicatedStatePublisher::publish` up to its loop. -/
def publish (value : Json) (context : C) : ReplicatedState C := let accepted : ReplicatedState C := { w with
      value := value
      sequence := w.sequence + 1
      publications := w.publications ++ [⟨value, w.sequence + 1, context⟩]
      published := w.published ++ [value] }
  if w.delivering then accepted
  else { accepted with delivering := true, stack := .publish [] :: w.stack }

/-- `ReplicatedStatePublisher::subscribe` up to its hydration. -/
def subscribe : ReplicatedState C := let registered : ReplicatedState C := { w with
      subscribers := w.subscribers ++ [{}]
      listeners := w.listeners ++ [⟨w.subscribers.length, w.sequence⟩] }
  (registered.push w.subscribers.length ⟨w.value, background, .hydrate, w.sequence⟩).drain
    w.subscribers.length

/-- The closure that `subscribe` returns. -/
def unsubscribe (subscriber : Nat) : ReplicatedState C := { w with
    subscribers := w.subscribers.modify subscriber StateSubscriber.close
    listeners := w.listeners.filter fun listener => listener.subscriber ≠ subscriber }

def isSafeCursor (cursor : Int) : Bool := decide (-9007199254740991 ≤ cursor) && decide (cursor ≤ 9007199254740991)

/-- `AttachedReplicatedState::Impl::fail`: the hook is called. -/
def fail : ReplicatedState C := { w with disposed := true, stack := .hook :: w.stack }

/-- `AttachedReplicatedState::Impl::receive`. -/
def receive (cursor : Int) (value : Json) (context : C) : ReplicatedState C := if w.disposed then w
  else if !isSafeCursor cursor then w.fail
  else if cursor ≠ w.cursor + 1 then w.fail
  else { w with cursor := cursor : ReplicatedState C }.publish value context

/-! ## Moves -/

/-- The package code on top of the stack goes on, or the caller makes a call. -/
inductive Move (C : Type) where
  | proceed
  | receive (cursor : Int) (value : Json) (context : C)
  | subscribe
  | unsubscribe (subscriber : Nat)
  | dispose
  | complete (callback : Nat) (failed : Bool)
  | return

/-- Whether the caller has control: nothing is in progress, or the call on top is the caller's. -/
def callersTurn : List (Frame C) → Bool
  | [] => true
  | .publish _ :: _ => false
  | .drain _ callback :: _ => callback.isSome
  | .report _ :: _ | .hook :: _ => true

/-- One round of the package code on top of the stack. -/
def proceed : Option (ReplicatedState C) := match w.stack with
  | .publish [] :: rest =>
    match w.publications with
    | [] => some { w with delivering := false, stack := rest }
    | publication :: later =>
      some { w with
        publications := later
        stack := .publish (w.listeners.map (publication, ·)) :: rest }
  | .publish ((publication, listener) :: work) :: rest =>
    let next : ReplicatedState C := { w with stack := .publish work :: rest }
    if publication.sequence ≤ listener.hydratedSequence then some next
    else
      some ((next.push listener.subscriber
        ⟨publication.value, publication.context, .update, publication.sequence⟩).drain
          listener.subscriber)
  | .drain subscriber none :: rest =>
    match w.subscribers[subscriber]? with
    | none => none
    | some sub =>
      match sub.pending with
      | [] =>
        some { w with
          subscribers := w.subscribers.modify subscriber ({ · with running := false })
          stack := rest }
      | frame :: pending =>
        some { w with
          subscribers := w.subscribers.modify subscriber
            ({ · with pending := pending, started := true, received := sub.received ++ [frame] })
          callbacks := w.callbacks ++ [{ subscriber := subscriber }]
          stack := .drain subscriber (some w.callbacks.length) :: rest }
  | _ => none

/-- The caller's code on top of the stack returns: a listener, or the error hook. -/
def returned : Option (ReplicatedState C) := match w.stack with
  | .drain subscriber (some callback) :: rest =>
    match w.callbacks[callback]? with
    | none => none
    | some called =>
      match called.handshake with
      | .running =>
        some { w with
          callbacks := w.callbacks.modify callback ({ · with handshake := .returned })
          stack := rest }
      | .returned | .inline => some { w with stack := .drain subscriber none :: rest }
  | .report callback :: rest => some ({ w with stack := rest : ReplicatedState C }.settle callback)
  | .hook :: rest => some { w with stack := rest }
  | _ => none

/-- A listener's completion is called, at most once; a failure goes through the error hook first. -/
def complete (callback : Nat) (failed : Bool) : Option (ReplicatedState C) := match w.callbacks[callback]? with
  | none => none
  | some called =>
    if called.settled then none
    else
      let marked : ReplicatedState C :=
        { w with callbacks := w.callbacks.modify callback ({ · with settled := true }) }
      if failed then some { marked with stack := .report callback :: w.stack }
      else some (marked.settle callback)

def step : Move C → Option (ReplicatedState C)
  | .proceed => w.proceed
  | .receive cursor value context =>
    if callersTurn w.stack then some (w.receive cursor value context) else none
  | .subscribe => if callersTurn w.stack then some (w.subscribe background) else none
  | .unsubscribe subscriber =>
    if callersTurn w.stack && decide (subscriber < w.subscribers.length) then
      some (w.unsubscribe subscriber)
    else none
  | .dispose => if callersTurn w.stack then some { w with disposed := true } else none
  | .complete callback failed =>
    if callersTurn w.stack then w.complete callback failed else none
  | .return => w.returned

/-! ## What a move does -/

/-- The branches of a move other than a subscription: package code or the return of the caller's code
on top of the stack, and calls the caller makes while it has control. -/
inductive Change : ReplicatedState C → ReplicatedState C → Prop where
  | finish {w : ReplicatedState C} {rest : List (Frame C)}
      (hstack : w.stack = .publish [] :: rest) (hpublications : w.publications = []) :
      Change w { w with delivering := false, stack := rest }
  | dispatch {w : ReplicatedState C} {rest : List (Frame C)} {publication : Publication C}
      {later : List (Publication C)} (hstack : w.stack = .publish [] :: rest)
      (hpublications : w.publications = publication :: later) :
      Change w
        { w with
          publications := later
          stack := .publish (w.listeners.map (publication, ·)) :: rest }
  | skip {w : ReplicatedState C} {rest : List (Frame C)} {publication : Publication C}
      {listener : Listener} {work : List (Publication C × Listener)}
      (hstack : w.stack = .publish ((publication, listener) :: work) :: rest)
      (hold : publication.sequence ≤ listener.hydratedSequence) :
      Change w { w with stack := .publish work :: rest }
  | deliver {w : ReplicatedState C} {rest : List (Frame C)} {publication : Publication C}
      {listener : Listener} {work : List (Publication C × Listener)}
      (hstack : w.stack = .publish ((publication, listener) :: work) :: rest)
      (hnew : listener.hydratedSequence < publication.sequence) :
      Change w
        (({ w with stack := .publish work :: rest : ReplicatedState C }.push listener.subscriber
          ⟨publication.value, publication.context, .update, publication.sequence⟩).drain
            listener.subscriber)
  | rest {w : ReplicatedState C} {rest : List (Frame C)} {s : Nat} {sub : StateSubscriber C}
      (hstack : w.stack = .drain s none :: rest) (hsub : w.subscribers[s]? = some sub)
      (hpending : sub.pending = []) :
      Change w
        { w with
          subscribers := w.subscribers.modify s ({ · with running := false })
          stack := rest }
  | call {w : ReplicatedState C} {rest : List (Frame C)} {s : Nat} {sub : StateSubscriber C}
      {frame : StateDelivery C} {pending : List (StateDelivery C)}
      (hstack : w.stack = .drain s none :: rest) (hsub : w.subscribers[s]? = some sub)
      (hpending : sub.pending = frame :: pending) :
      Change w
        { w with
          subscribers := w.subscribers.modify s
            ({ · with pending := pending, started := true, received := sub.received ++ [frame] })
          callbacks := w.callbacks ++ [{ subscriber := s }]
          stack := .drain s (some w.callbacks.length) :: rest }
  | leave {w : ReplicatedState C} {rest : List (Frame C)} {s c : Nat} {called : Callback}
      (hstack : w.stack = .drain s (some c) :: rest) (hcalled : w.callbacks[c]? = some called)
      (hhandshake : called.handshake = .running) :
      Change w
        { w with
          callbacks := w.callbacks.modify c ({ · with handshake := .returned })
          stack := rest }
  | goOn {w : ReplicatedState C} {rest : List (Frame C)} {s c : Nat} {called : Callback}
      (hstack : w.stack = .drain s (some c) :: rest) (hcalled : w.callbacks[c]? = some called)
      (hhandshake : called.handshake ≠ .running) :
      Change w { w with stack := .drain s none :: rest }
  | reported {w : ReplicatedState C} {rest : List (Frame C)} {c : Nat}
      (hstack : w.stack = .report c :: rest) :
      Change w ({ w with stack := rest : ReplicatedState C }.settle c)
  | hooked {w : ReplicatedState C} {rest : List (Frame C)} (hstack : w.stack = .hook :: rest) :
      Change w { w with stack := rest }
  | complete {w : ReplicatedState C} {c : Nat} {called : Callback}
      (hturn : callersTurn w.stack = true) (hcalled : w.callbacks[c]? = some called)
      (hopen : called.settled = false) :
      Change w
        ({ w with callbacks := w.callbacks.modify c ({ · with settled := true })
           : ReplicatedState C }.settle c)
  | fails {w : ReplicatedState C} {c : Nat} {called : Callback}
      (hturn : callersTurn w.stack = true) (hcalled : w.callbacks[c]? = some called)
      (hopen : called.settled = false) :
      Change w
        { w with
          callbacks := w.callbacks.modify c ({ · with settled := true })
          stack := .report c :: w.stack }
  | ignore {w : ReplicatedState C} : Change w w
  | lost {w : ReplicatedState C} (hturn : callersTurn w.stack = true) : Change w w.fail
  | publish {w : ReplicatedState C} (hturn : callersTurn w.stack = true) (cursor : Int)
      (value : Json) (context : C) :
      Change w ({ w with cursor := cursor : ReplicatedState C }.publish value context)
  | unsubscribe {w : ReplicatedState C} (hturn : callersTurn w.stack = true) (s : Nat) :
      Change w (w.unsubscribe s)
  | dispose {w : ReplicatedState C} (hturn : callersTurn w.stack = true) :
      Change w { w with disposed := true }

variable {background : C} {w w' : ReplicatedState C}

theorem proceed_change (h : w.proceed = some w') : Change w w' := by
  unfold proceed at h
  split at h
  · rename_i rest hstack
    split at h
    · rename_i hpubs
      cases h
      exact .finish hstack hpubs
    rename_i publication later hpubs
    cases h
    exact .dispatch hstack hpubs
  · rename_i publication listener work rest hstack
    split at h
    · rename_i hold
      cases h
      exact .skip hstack hold
    rename_i hnew
    cases h
    exact .deliver hstack (Nat.lt_of_not_le hnew)
  · rename_i s rest hstack
    split at h
    · cases h
    rename_i sub hsub
    split at h
    · rename_i hpend
      cases h
      exact .rest hstack hsub hpend
    rename_i frame pending hpend
    cases h
    exact .call hstack hsub hpend
  · cases h

theorem returned_change (h : w.returned = some w') : Change w w' := by
  unfold returned at h
  split at h
  · rename_i s c rest hstack
    split at h
    · cases h
    rename_i called hcalled
    split at h
    · rename_i hshake
      cases h
      exact .leave hstack hcalled hshake
    all_goals
      rename_i hshake
      cases h
      exact .goOn hstack hcalled (by rw [hshake]; exact nofun)
  · rename_i c rest hstack
    cases h
    exact .reported hstack
  · rename_i rest hstack
    cases h
    exact .hooked hstack
  · cases h

theorem complete_change {c : Nat} {failed : Bool} (hturn : callersTurn w.stack = true)
    (h : w.complete c failed = some w') : Change w w' := by
  unfold complete at h
  split at h
  · cases h
  rename_i called hcalled
  split at h
  · cases h
  rename_i hopen
  rw [Bool.not_eq_true] at hopen
  split at h
  · cases h
    exact .fails hturn hcalled hopen
  · cases h
    exact .complete hturn hcalled hopen

theorem receive_change (hturn : callersTurn w.stack = true) (cursor : Int) (value : Json)
    (context : C) : Change w (w.receive cursor value context) := by
  unfold receive
  split
  · exact .ignore
  split
  · exact .lost hturn
  split
  · exact .lost hturn
  · exact .publish hturn cursor value context

theorem step_change {move : Move C} (h : w.step background move = some w') :
    (move = .subscribe ∧ callersTurn w.stack = true ∧ w' = w.subscribe background) ∨ Change w w' := by
  cases move with
  | proceed => exact Or.inr (proceed_change h)
  | «return» => exact Or.inr (returned_change h)
  | receive cursor value context =>
    obtain ⟨hturn, h⟩ := Option.ite_none_right_eq_some.1 h
    cases h
    exact Or.inr (receive_change hturn cursor value context)
  | subscribe =>
    obtain ⟨hturn, h⟩ := Option.ite_none_right_eq_some.1 h
    cases h
    exact Or.inl ⟨rfl, hturn, rfl⟩
  | unsubscribe s =>
    obtain ⟨hturn, h⟩ := Option.ite_none_right_eq_some.1 h
    rw [Bool.and_eq_true] at hturn
    cases h
    exact Or.inr (.unsubscribe hturn.1 s)
  | dispose =>
    obtain ⟨hturn, h⟩ := Option.ite_none_right_eq_some.1 h
    cases h
    exact Or.inr (.dispose hturn)
  | complete c failed =>
    obtain ⟨hturn, h⟩ := Option.ite_none_right_eq_some.1 h
    exact Or.inr (complete_change hturn h)

end ReplicatedState

end CodingHarness.Chord
