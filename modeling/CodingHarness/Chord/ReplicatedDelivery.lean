import Mathlib.Data.List.Induction
import CodingHarness.Chord.ReplicatedControl

/-!
# What the subscribers of a replicated state receive

`Delivery` says where every revision is. The first `level` publications have been dispatched, the
one at `level` perhaps not yet to the listeners in `work`, and the later ones wait. What a subscriber
has received or still has pending is its hydration followed by updates in increasing order, and ends
with the revision its dispatches have reached (`reached`). Overflow drops updates from the middle and
keeps both ends. Together with the control of the drain loops this gives what a listener has received
at any time at which the caller has control.
-/

namespace CodingHarness.Chord

open Library Support

/-! ## One subscriber -/

section Subscriber

variable {C : Type} {published : List Json} {hydration frame : StateDelivery C}
  {deliveries : List (StateDelivery C)}

/-- A hydration followed by updates in increasing order, each with the value published at its
sequence. -/
structure Sequenced (published : List Json) (hydration : StateDelivery C)
    (deliveries : List (StateDelivery C)) : Prop where
  first : deliveries.head? = some hydration
  updates : ∀ delivery ∈ deliveries.tail,
    delivery.kind = .update ∧ published[delivery.sequence]? = some delivery.value
  increasing : deliveries.Pairwise fun earlier later => earlier.sequence < later.sequence

theorem sequenced_singleton : Sequenced published hydration [hydration] := ⟨rfl, nofun, List.pairwise_singleton _ _⟩

theorem Sequenced.ne_nil (h : Sequenced published hydration deliveries) : deliveries ≠ [] := by
  rintro rfl
  cases h.first

variable {published' : List Json}

theorem Sequenced.mono (h : Sequenced published hydration deliveries)
    (hgrow : ∀ (i : Nat) (value : Json), published[i]? = some value → published'[i]? = some value) :
    Sequenced published' hydration deliveries := by
  refine { h with updates := ?_ }
  intro delivery hmem
  obtain ⟨hkind, hvalue⟩ := h.updates delivery hmem
  exact ⟨hkind, hgrow _ _ hvalue⟩

theorem Sequenced.left {front back : List (StateDelivery C)}
    (h : Sequenced published hydration (front ++ back)) (hne : front ≠ []) : Sequenced published hydration front := by
  obtain ⟨first, rest, rfl⟩ := List.exists_cons_of_ne_nil hne
  refine ⟨by simpa using h.first, ?_, h.increasing.sublist (List.sublist_append_left _ _)⟩
  intro delivery hmem
  exact h.updates delivery (by simp at hmem; simp [hmem])

/-- The deliveries end with the one of sequence `n`. -/
def EndsAt (deliveries : List (StateDelivery C)) (n : Nat) : Prop :=
  ∃ last, deliveries.getLast? = some last ∧ last.sequence = n

variable {delivery : StateDelivery C}

section

variable (h : Sequenced published hydration deliveries)
include h

theorem Sequenced.le_end {n : Nat}
    (hend : EndsAt deliveries n) (hmem : delivery ∈ deliveries) : delivery.sequence ≤ n := by
  obtain ⟨last, hlast, rfl⟩ := hend
  obtain ⟨front, rfl⟩ := List.getLast?_eq_some_iff.1 hlast
  rcases List.mem_append.1 hmem with hfront | hback
  · exact Nat.le_of_lt ((List.pairwise_append.1 h.increasing).2.2 _ hfront _ List.mem_cons_self)
  · rw [List.mem_singleton.1 hback]

theorem Sequenced.concat
    (hlater : ∀ delivery ∈ deliveries, delivery.sequence < frame.sequence)
    (hkind : frame.kind = .update) (hvalue : published[frame.sequence]? = some frame.value) :
    Sequenced published hydration (deliveries ++ [frame]) := by
  obtain ⟨first, rest, rfl⟩ := List.exists_cons_of_ne_nil h.ne_nil
  refine ⟨by simpa using h.first, ?_, ?_⟩
  · intro delivery hmem
    rcases List.mem_append.1 (by simpa using hmem : delivery ∈ rest ++ [frame]) with hold | hnew
    · exact h.updates delivery hold
    · rw [List.mem_singleton.1 hnew]
      exact ⟨hkind, hvalue⟩
  refine List.pairwise_append.2 ⟨h.increasing, List.pairwise_singleton _ _, ?_⟩
  intro delivery hmem later hlast
  rw [List.mem_singleton.1 hlast]
  exact hlater delivery hmem

theorem Sequenced.updates_after :
    ∃ updates, deliveries = hydration :: updates ∧
      updates.Pairwise (fun earlier later => earlier.sequence < later.sequence) ∧
      ∀ delivery ∈ updates, delivery.kind = .update ∧ hydration.sequence < delivery.sequence ∧
        published[delivery.sequence]? = some delivery.value := by
  obtain ⟨first, updates, rfl⟩ := List.exists_cons_of_ne_nil h.ne_nil
  cases h.first
  obtain ⟨habove, hincreasing⟩ := List.pairwise_cons.1 h.increasing
  refine ⟨updates, rfl, hincreasing, ?_⟩
  intro delivery hmem
  obtain ⟨hkind, hvalue⟩ := h.updates delivery hmem
  exact ⟨hkind, habove delivery hmem, hvalue⟩

theorem Sequenced.published_mem
    (hhydrated : published[hydration.sequence]? = some hydration.value) (hmem : delivery ∈ deliveries) :
    published[delivery.sequence]? = some delivery.value := by
  obtain ⟨updates, rfl, -, hupdates⟩ := h.updates_after
  rcases List.mem_cons.1 hmem with rfl | hmem
  · exact hhydrated
  · exact (hupdates delivery hmem).2.2

end

/-- A subscriber whose dispatches have reached `n`. Once closed it only keeps what it received. -/
structure Served (published : List Json) (hydration : StateDelivery C) (n : Nat)
    (sub : StateSubscriber C) : Prop where
  pending : sub.pending.length ≤ pendingLimit
  started : sub.started = true ↔ sub.received ≠ []
  received : sub.received = [] ∨ Sequenced published hydration sub.received
  deliveries : sub.closed = false → Sequenced published hydration sub.deliveries
  reached : sub.closed = false → EndsAt sub.deliveries n

variable {n : Nat} {sub : StateSubscriber C}

section

variable (h : Served published hydration n sub)
include h

theorem Served.mono
    (hgrow : ∀ (i : Nat) (value : Json), published[i]? = some value → published'[i]? = some value) :
    Served published' hydration n sub where
  pending := h.pending
  started := h.started
  received := h.received.imp_right fun hrecv => hrecv.mono hgrow
  deliveries hopen := (h.deliveries hopen).mono hgrow
  reached := h.reached

theorem Served.congr {sub' : StateSubscriber C}
    (hpend : sub'.pending = sub.pending) (hbegun : sub'.started = sub.started)
    (hclosed : sub'.closed = sub.closed) (hrecv : sub'.received = sub.received) :
    Served published hydration n sub' := by
  have hdels : sub'.deliveries = sub.deliveries := by
    rw [StateSubscriber.deliveries, hrecv, hpend]
    rfl
  constructor
  · rw [hpend]
    exact h.pending
  · rw [hbegun, hrecv]
    exact h.started
  · rw [hrecv]
    exact h.received
  · rw [hclosed, hdels]
    exact h.deliveries
  · rw [hclosed, hdels]
    exact h.reached

theorem Served.close (m : Nat) : Served published hydration m sub.close where
  pending := Nat.zero_le _
  started := h.started
  received := h.received
  deliveries := nofun
  reached := nofun

theorem Served.take {pending : List (StateDelivery C)}
    (hopen : sub.closed = false) (hpend : sub.pending = frame :: pending) : Served published hydration n
      { sub with pending := pending, started := true, received := sub.received ++ [frame] } := by
  have hdels : sub.deliveries = (sub.received ++ [frame]) ++ pending := by
    rw [StateSubscriber.deliveries, hpend, List.append_assoc]
    rfl
  have hall := h.deliveries hopen
  have hreached := h.reached hopen
  rw [hdels] at hall hreached
  refine
    { pending := ?_, started := ?_
      received := Or.inr (hall.left (by simp))
      deliveries := fun _ => hall
      reached := fun _ => hreached }
  · have hlimit := h.pending
    rw [hpend, List.length_cons] at hlimit
    exact Nat.le_of_succ_le hlimit
  · simp

/-- A push of a later update: on overflow only updates between the two ends are dropped. -/
theorem Served.push (hlater : n < frame.sequence)
    (hkind : frame.kind = .update) (hvalue : published[frame.sequence]? = some frame.value) :
    Served published hydration frame.sequence (sub.push frame) := by
  unfold StateSubscriber.push
  split
  · rename_i hclosed
    refine { h with deliveries := ?_, reached := ?_ }
    all_goals
      intro hopen
      rw [hclosed] at hopen
      cases hopen
  rename_i hopen
  rw [Bool.not_eq_true] at hopen
  -- Whatever of the deliveries is kept in front of the new one.
  have hkept : ∀ kept pending, Sequenced published hydration kept → (∀ delivery ∈ kept, delivery ∈ sub.deliveries) →
      sub.received ++ pending = kept → (pending ++ [frame]).length ≤ pendingLimit →
      Served published hydration frame.sequence { sub with pending := pending ++ [frame] } := by
    intro kept pending hkeptSeq hsubset hkeptEq hlimit
    have hdels : sub.received ++ (pending ++ [frame]) = kept ++ [frame] := by
      rw [← List.append_assoc, hkeptEq]
    refine
      { pending := hlimit
        started := h.started
        received := h.received
        deliveries := ?_, reached := ?_ }
    · intro _
      rw [StateSubscriber.deliveries, hdels]
      refine hkeptSeq.concat ?_ hkind hvalue
      intro delivery hmem
      have hle := (h.deliveries hopen).le_end (h.reached hopen) (hsubset delivery hmem)
      exact Nat.lt_of_le_of_lt hle hlater
    intro _
    refine ⟨frame, ?_, rfl⟩
    rw [StateSubscriber.deliveries, hdels, List.getLast?_concat]
  split
  · rename_i hfull
    split
    · rename_i hbegun
      have hrecv := h.received.resolve_left (h.started.1 hbegun)
      refine hkept sub.received [] hrecv ?_ (List.append_nil _) (by simp [pendingLimit])
      intro delivery hmem
      exact List.mem_append_left _ hmem
    rename_i hbegun
    have hnone : sub.received = [] := by
      by_contra hne
      exact hbegun (h.started.2 hne)
    have hall := h.deliveries hopen
    rw [StateSubscriber.deliveries, hnone, List.nil_append] at hall
    have htake : Sequenced published hydration (sub.pending.take 1) := by
      rw [← List.take_append_drop 1 sub.pending] at hall
      refine hall.left ?_
      intro hempty
      rw [List.take_eq_nil_iff] at hempty
      rcases hempty with hempty | hempty
      · cases hempty
      · rw [hempty] at hfull
        cases hfull
    refine hkept (sub.pending.take 1) (sub.pending.take 1) htake ?_ ?_ ?_
    · intro delivery hmem
      exact List.mem_append_right _ (List.mem_of_mem_take hmem)
    · rw [hnone, List.nil_append]
    · rw [List.length_append, List.length_take]
      simp only [List.length_singleton, pendingLimit]
      omega
  · refine hkept sub.deliveries sub.pending (h.deliveries hopen) (fun _ hmem => hmem) rfl ?_
    have hlimit := h.pending
    rw [List.length_append, List.length_singleton]
    omega

end

end Subscriber

namespace ReplicatedState

variable {C : Type}

/-! ## The publisher -/

/-- The pushes that the `publish` loops on the stack still have to make. -/
def works : List (Frame C) → List (List (Publication C × Listener))
  | [] => []
  | .publish work :: rest => work :: works rest
  | .drain _ _ :: rest | .report _ :: rest | .hook :: rest => works rest

/-- Whether a push of the current dispatch to subscriber `s` is still to come. -/
def Waits (work : List (Publication C × Listener)) (s : Nat) : Prop := ∃ item ∈ work, item.2.subscriber = s

instance (work : List (Publication C × Listener)) (s : Nat) : Decidable (Waits work s) :=
  inferInstanceAs (Decidable (∃ item ∈ work, item.2.subscriber = s))

/-- The newest revision that has been dispatched to a subscriber, or the one it started from. -/
def reached (level : Nat) (work : List (Publication C × Listener)) (hydration : StateDelivery C) (s : Nat) : Nat :=
  max hydration.sequence (if Waits work s then level - 1 else level)

/-- Where the revisions are: publications up to `level` have been dispatched, the last of them except
to the listeners in `work`, and `hydrations` are the cold deliveries of the subscribers. -/
structure Delivery (w : ReplicatedState C) (level : Nat) (work : List (Publication C × Listener))
    (hydrations : List (StateDelivery C)) : Prop where
  subscriptions : hydrations.length = w.subscribers.length
  accepted : level + w.publications.length = w.sequence
  history : w.published.length = w.sequence + 1
  current : w.published[w.sequence]? = some w.value
  queue : ∀ (i : Nat) (publication : Publication C), w.publications[i]? = some publication →
    publication.sequence = level + i + 1 ∧ w.published[publication.sequence]? = some publication.value
  dispatch : (w.delivering = true ∧ works w.stack = [work]) ∨
    (w.delivering = false ∧ works w.stack = [] ∧ w.publications = [] ∧ work = [])
  items : ∀ item ∈ work, 0 < level ∧ item.1.sequence = level ∧ w.published[level]? = some item.1.value ∧
    ∃ hydration, hydrations[item.2.subscriber]? = some hydration ∧ hydration.sequence = item.2.hydratedSequence
  distinctItems : (work.map (·.2.subscriber)).Nodup
  registered : ∀ listener ∈ w.listeners, ∃ hydration, hydrations[listener.subscriber]? = some hydration ∧
      hydration.sequence = listener.hydratedSequence
  distinctListeners : (w.listeners.map (·.subscriber)).Nodup
  subscribed : ∀ (s : Nat) (sub : StateSubscriber C), w.subscribers[s]? = some sub →
    sub.closed = false → ∃ listener ∈ w.listeners, listener.subscriber = s
  hydrated : ∀ (s : Nat) (hydration : StateDelivery C), hydrations[s]? = some hydration →
    w.published[hydration.sequence]? = some hydration.value
  served : ∀ (s : Nat) (sub : StateSubscriber C) (hydration : StateDelivery C),
    w.subscribers[s]? = some sub → hydrations[s]? = some hydration →
    Served w.published hydration (reached level work hydration s) sub

theorem delivery_attach (value : Json) (cursor : Int) : Delivery (@attach C value cursor) 0 [] [] where
  subscriptions := rfl
  accepted := rfl
  history := rfl
  current := rfl
  queue := nofun
  dispatch := Or.inr ⟨rfl, rfl, rfl, rfl⟩
  items := nofun
  distinctItems := List.nodup_nil
  registered := nofun
  distinctListeners := List.nodup_nil
  subscribed := nofun
  hydrated := nofun
  served := nofun

section Step

variable {w : ReplicatedState C} {level : Nat} {work : List (Publication C × Listener)}
  {hydrations : List (StateDelivery C)}

/-- Subscribers that differ in their running flag alone. -/
def Untouched (subs subs' : List (StateSubscriber C)) : Prop :=
  subs'.length = subs.length ∧ ∀ (s : Nat) (sub' : StateSubscriber C), subs'[s]? = some sub' →
    ∃ sub, subs[s]? = some sub ∧ sub'.pending = sub.pending ∧ sub'.started = sub.started ∧
      sub'.closed = sub.closed ∧ sub'.received = sub.received

theorem untouched_refl (subs : List (StateSubscriber C)) : Untouched subs subs :=
  ⟨rfl, fun _ sub' h => ⟨sub', h, rfl, rfl, rfl, rfl⟩⟩

theorem untouched_running (subs : List (StateSubscriber C)) (s : Nat) (flag : Bool) :
    Untouched subs (subs.modify s ({ · with running := flag })) := by
  refine ⟨List.length_modify _ _ _, ?_⟩
  intro t sub' h
  obtain ⟨sub, hsub, rfl⟩ := getElem?_modify_cases h
  refine ⟨sub, hsub, ?_⟩
  split <;> exact ⟨rfl, rfl, rfl, rfl⟩

variable {stack : List (Frame C)}

section

variable (h : Delivery w level work hydrations)
include h

theorem Delivery.reframe {subscribers : List (StateSubscriber C)} {callbacks : List Callback}
    {cursor : Int} {disposed : Bool} (hworks : works stack = works w.stack)
    (hsubs : Untouched w.subscribers subscribers) : Delivery { w with
        subscribers := subscribers, callbacks := callbacks, stack := stack
        cursor := cursor, disposed := disposed } level work hydrations where
  subscriptions := h.subscriptions.trans hsubs.1.symm
  accepted := h.accepted
  history := h.history
  current := h.current
  queue := h.queue
  dispatch := by rw [hworks]; exact h.dispatch
  items := h.items
  distinctItems := h.distinctItems
  registered := h.registered
  distinctListeners := h.distinctListeners
  subscribed s sub' hsub' hopen := by
    obtain ⟨sub, hsub, -, -, hclosed, -⟩ := hsubs.2 s sub' hsub'
    exact h.subscribed s sub hsub (hclosed ▸ hopen)
  hydrated := h.hydrated
  served s sub' hydration hsub' hhyd := by
    obtain ⟨sub, hsub, hpend, hbegun, hclosed, hrecv⟩ := hsubs.2 s sub' hsub'
    exact (h.served s sub hydration hsub hhyd).congr hpend hbegun hclosed hrecv

theorem Delivery.drain (s : Nat) :
    Delivery (w.drain s) level work hydrations := by
  unfold ReplicatedState.drain
  split
  · exact h
  split
  · exact h
  · exact h.reframe rfl (untouched_running _ _ _)

theorem Delivery.settle (c : Nat) :
    Delivery (w.settle c) level work hydrations := by
  unfold ReplicatedState.settle
  split
  · exact h
  split
  · exact h.reframe rfl (untouched_refl _)
  all_goals exact (h.reframe rfl (untouched_running _ _ _)).drain _

end

variable {rest : List (Frame C)}

theorem Delivery.top {items : List (Publication C × Listener)}
    (h : Delivery w level work hydrations) (hstack : w.stack = .publish items :: rest) :
    w.delivering = true ∧ work = items ∧ works rest = [] := by
  rcases h.dispatch with ⟨hdeliv, hworks⟩ | ⟨-, hworks, -⟩
  · rw [hstack, works, List.cons.injEq] at hworks
    exact ⟨hdeliv, hworks.1.symm, hworks.2⟩
  · rw [hstack, works] at hworks
    cases hworks

theorem Delivery.finish (h : Delivery w level work hydrations)
    (hstack : w.stack = .publish [] :: rest) (hpubs : w.publications = []) :
    Delivery { w with delivering := false, stack := rest } level [] hydrations := by
  obtain ⟨-, rfl, hrest⟩ := h.top hstack
  exact { h with dispatch := Or.inr ⟨rfl, hrest, hpubs, rfl⟩ }

variable {hydration : StateDelivery C}

theorem served_closed {published : List Json} {n m : Nat}
    {sub : StateSubscriber C} (h : Served published hydration n sub) (hclosed : sub.closed = true) :
    Served published hydration m sub := by
  refine { h with deliveries := ?_, reached := ?_ }
  all_goals
    intro hopen
    rw [hclosed] at hopen
    cases hopen

variable {publication : Publication C}

theorem Delivery.next {later : List (Publication C)} (h : Delivery w level work hydrations)
    (hstack : w.stack = .publish [] :: rest) (hpubs : w.publications = publication :: later) : Delivery { w with
        publications := later
        stack := .publish (w.listeners.map (publication, ·)) :: rest }
      (level + 1) (w.listeners.map (publication, ·)) hydrations := by
  obtain ⟨hdeliv, rfl, hrest⟩ := h.top hstack
  obtain ⟨hsequence, hvalue⟩ := h.queue 0 publication (by rw [hpubs]; rfl)
  have hacc := h.accepted
  rw [hpubs, List.length_cons] at hacc
  refine
    { h with
      accepted := ?_, queue := ?_, items := ?_, distinctItems := ?_, served := ?_
      dispatch := Or.inl ⟨hdeliv, by rw [works, hrest]⟩ }
  · show level + 1 + later.length = w.sequence
    omega
  · intro i found hfound
    obtain ⟨hseq, hval⟩ := h.queue (i + 1) found (by rw [hpubs]; exact hfound)
    exact ⟨by omega, hval⟩
  · intro item hitem
    obtain ⟨listener, hlistener, rfl⟩ := List.mem_map.1 hitem
    exact ⟨Nat.succ_pos _, hsequence, by rw [← hsequence]; exact hvalue, h.registered listener hlistener⟩
  · rw [List.map_map]
    exact h.distinctListeners
  · intro s sub hydration hsub hhyd
    have hserved := h.served s sub hydration hsub hhyd
    cases hclosed : sub.closed with
    | true => exact served_closed hserved hclosed
    | false =>
      -- Every open subscriber is registered, so its push is still to come.
      obtain ⟨listener, hlistener, hs⟩ := h.subscribed s sub hsub hclosed
      have hwaits : Waits (w.listeners.map (publication, ·)) s := ⟨_, List.mem_map.2 ⟨listener, hlistener, rfl⟩, hs⟩
      have hsame : reached (level + 1) (w.listeners.map (publication, ·)) hydration s
          = reached level [] hydration s := by
        rw [reached, reached, if_pos hwaits, if_neg (by simp [Waits])]
        rfl
      rw [hsame]
      exact hserved

variable {listener : Listener}

/-- What is left of the dispatch after one push: nobody else is affected. -/
theorem reached_rest {s : Nat} (hne : s ≠ listener.subscriber) :
    reached level work hydration s = reached level ((publication, listener) :: work) hydration s := by
  have hwaits : Waits ((publication, listener) :: work) s ↔ Waits work s := by
    simp [Waits, Ne.symm hne]
  simp only [reached, hwaits]

section

variable (h : Delivery w level work hydrations)
include h

theorem Delivery.skip {publication : Publication C}
    {left : List (Publication C × Listener)}
    (hstack : w.stack = .publish ((publication, listener) :: left) :: rest)
    (hold : publication.sequence ≤ listener.hydratedSequence) :
    Delivery { w with stack := .publish left :: rest } level left hydrations := by
  obtain ⟨hdeliv, rfl, hrest⟩ := h.top hstack
  obtain ⟨-, hseq, -, cold, hcold, hcoldSequence⟩ := h.items _ List.mem_cons_self
  dsimp only at hseq hcold hcoldSequence
  refine
    { h with
      items := fun item hitem => h.items item (List.mem_cons_of_mem _ hitem)
      distinctItems := (List.nodup_cons.1 h.distinctItems).2
      dispatch := Or.inl ⟨hdeliv, by rw [works, hrest]⟩
      served := ?_ }
  intro s sub hydration hsub hhyd
  have hserved := h.served s sub hydration hsub hhyd
  by_cases hs : s = listener.subscriber
  · subst hs
    rw [hcold] at hhyd
    cases hhyd
    have hsame : reached level left cold listener.subscriber
        = reached level ((publication, listener) :: left) cold listener.subscriber := by
      simp only [reached]
      split <;> split <;> omega
    rw [hsame]
    exact hserved
  · rw [reached_rest hs]
    exact hserved

theorem Delivery.push {publication : Publication C}
    {left : List (Publication C × Listener)}
    (hstack : w.stack = .publish ((publication, listener) :: left) :: rest)
    (hnew : listener.hydratedSequence < publication.sequence) :
    Delivery ({ w with stack := .publish left :: rest : ReplicatedState C }.push listener.subscriber
        ⟨publication.value, publication.context, .update, publication.sequence⟩)
      level left hydrations := by
  obtain ⟨hdeliv, rfl, hrest⟩ := h.top hstack
  obtain ⟨hpos, hseq, hvalue, cold, hcold, hcoldSequence⟩ := h.items _ List.mem_cons_self
  dsimp only at hseq hvalue hcold hcoldSequence
  have hfresh : ¬ Waits left listener.subscriber := by
    rintro ⟨item, hitem, hsub⟩
    refine (List.nodup_cons.1 h.distinctItems).1 ?_
    exact List.mem_map.2 ⟨item, hitem, hsub⟩
  refine
    { h with
      subscriptions := h.subscriptions.trans (List.length_modify _ _ _).symm
      items := fun item hitem => h.items item (List.mem_cons_of_mem _ hitem)
      distinctItems := (List.nodup_cons.1 h.distinctItems).2
      dispatch := Or.inl ⟨hdeliv, by rw [ReplicatedState.push, works, hrest]⟩
      subscribed := ?_, served := ?_ }
  · intro s sub hsub hopen
    obtain ⟨before, hprev, rfl⟩ := getElem?_modify_cases hsub
    refine h.subscribed s before hprev ?_
    split at hopen
    · rw [(push_flags _ _).2] at hopen
      exact hopen
    · exact hopen
  intro s sub hydration hsub hhyd
  obtain ⟨before, hprev, rfl⟩ := getElem?_modify_cases hsub
  have hserved := h.served s before hydration hprev hhyd
  by_cases hs : listener.subscriber = s
  · subst hs
    rw [hcold] at hhyd
    cases hhyd
    rw [if_pos rfl]
    have hprev : reached level ((publication, listener) :: left) cold listener.subscriber < publication.sequence := by
      rw [reached, if_pos ⟨_, List.mem_cons_self, rfl⟩]
      omega
    have hafter : reached level left cold listener.subscriber = publication.sequence := by
      rw [reached, if_neg hfresh]
      omega
    rw [hafter]
    refine @Served.push C _ _ ⟨_, _, _, publication.sequence⟩ _ _ hserved hprev rfl ?_
    rw [hseq]
    exact hvalue
  · rw [if_neg hs, reached_rest (Ne.symm hs)]
    exact hserved

theorem Delivery.call {s : Nat} {sub : StateSubscriber C}
    {frame : StateDelivery C} {pending : List (StateDelivery C)} {callbacks : List Callback}
    {callback : Nat}
    (hstack : w.stack = .drain s none :: rest) (hsub : w.subscribers[s]? = some sub)
    (hopen : sub.closed = false) (hpend : sub.pending = frame :: pending) : Delivery { w with
        subscribers := w.subscribers.modify s
          ({ · with pending := pending, started := true, received := sub.received ++ [frame] })
        callbacks := callbacks
        stack := .drain s (some callback) :: rest } level work hydrations := by
  refine
    { h with
      subscriptions := h.subscriptions.trans (List.length_modify _ _ _).symm
      dispatch := ?_, subscribed := ?_, served := ?_ }
  · have hdispatch := h.dispatch
    rw [hstack] at hdispatch
    exact hdispatch
  · intro t sub' hsub' hopen'
    obtain ⟨before, hprev, rfl⟩ := getElem?_modify_cases hsub'
    refine h.subscribed t before hprev ?_
    split at hopen'
    · exact hopen'
    · exact hopen'
  · intro t sub' hydration hsub' hhyd
    obtain ⟨before, hprev, rfl⟩ := getElem?_modify_cases hsub'
    have hserved := h.served t before hydration hprev hhyd
    split
    · rename_i heq
      subst heq
      rw [hsub] at hprev
      cases hprev
      exact hserved.take hopen hpend
    · exact hserved

theorem Delivery.publish (value : Json) (context : C) :
    Delivery (w.publish value context) level work hydrations := by
  have hgrow : ∀ (i : Nat) (old : Json), w.published[i]? = some old → (w.published ++ [value])[i]? = some old := by
    intro i old hold
    rw [List.getElem?_append_left (List.getElem?_eq_some_iff.1 hold).1]
    exact hold
  have hlast : (w.published ++ [value])[w.sequence + 1]? = some value := by
    rw [← h.history]
    exact List.getElem?_concat_length
  have hdispatch : (w.publish value context).delivering = true ∧ works (w.publish value context).stack = [work] := by
    unfold ReplicatedState.publish
    rcases h.dispatch with ⟨hdeliv, hworks⟩ | ⟨hdeliv, hworks, -, rfl⟩
    · rw [if_pos hdeliv]
      exact ⟨hdeliv, hworks⟩
    · rw [hdeliv]
      exact ⟨rfl, by simp [works, hworks]⟩
  have hacc : Delivery
      { w with
        value := value
        sequence := w.sequence + 1
        publications := w.publications ++ [⟨value, w.sequence + 1, context⟩]
        published := w.published ++ [value]
        delivering := (w.publish value context).delivering
        stack := (w.publish value context).stack } level work hydrations := by
    refine
      { h with
        accepted := ?_, history := ?_
        current := hlast
        queue := ?_
        dispatch := Or.inl hdispatch
        hydrated := fun s hydration hhyd => hgrow _ _ (h.hydrated s hydration hhyd)
        items := ?_, served := ?_ }
    · have := h.accepted
      simp only [List.length_append, List.length_singleton]
      omega
    · rw [List.length_append, h.history]
      rfl
    · intro i publication hfound
      rcases getElem?_concat_cases hfound with hfound | ⟨rfl, rfl⟩
      · obtain ⟨hseq, hvalue⟩ := h.queue i publication hfound
        exact ⟨hseq, hgrow _ _ hvalue⟩
      · have := h.accepted
        exact ⟨by dsimp only; omega, hlast⟩
    · intro item hitem
      obtain ⟨hpos, hseq, hvalue, hhyd⟩ := h.items item hitem
      exact ⟨hpos, hseq, hgrow _ _ hvalue, hhyd⟩
    · intro s sub hydration hsub hhyd
      exact (h.served s sub hydration hsub hhyd).mono hgrow
  unfold ReplicatedState.publish at hacc ⊢
  split
  · rename_i hdeliv
    simpa [hdeliv] using hacc
  · rename_i hdeliv
    simpa [hdeliv] using hacc

theorem Delivery.subscribe (background : C) :
    Delivery (w.subscribe background) level work (hydrations ++ [⟨w.value, background, .hydrate, w.sequence⟩]) := by
  have hkeep : ∀ (s : Nat) (hydration : StateDelivery C), hydrations[s]? = some hydration →
      (hydrations ++ [⟨w.value, background, .hydrate, w.sequence⟩])[s]? = some hydration := by
    intro s hydration hhyd
    rw [List.getElem?_append_left (List.getElem?_eq_some_iff.1 hhyd).1]
    exact hhyd
  have hlast : (hydrations ++ [⟨w.value, background, .hydrate, w.sequence⟩])[w.subscribers.length]?
      = some ⟨w.value, background, .hydrate, w.sequence⟩ := by
    rw [← h.subscriptions]
    exact List.getElem?_concat_length
  have hsubs : (w.subscribers ++ [({} : StateSubscriber C)]).modify w.subscribers.length
      (·.push ⟨w.value, background, .hydrate, w.sequence⟩)
        = w.subscribers ++ [{ pending := [⟨w.value, background, .hydrate, w.sequence⟩] }] := by
    rw [List.modify_eq_take_drop, List.take_left, List.drop_left]
    rfl
  refine Delivery.drain ?_ _
  unfold ReplicatedState.push
  rw [hsubs]
  refine
    { h with
      subscriptions := by simp [h.subscriptions]
      items := ?_, registered := ?_, distinctListeners := ?_, subscribed := ?_, hydrated := ?_
      served := ?_ }
  · intro item hitem
    obtain ⟨hpos, hseq, hvalue, hydration, hhyd, hcold⟩ := h.items item hitem
    exact ⟨hpos, hseq, hvalue, hydration, hkeep _ _ hhyd, hcold⟩
  · intro listener hlistener
    rcases List.mem_append.1 hlistener with hold | hnew
    · obtain ⟨hydration, hhyd, hcold⟩ := h.registered listener hold
      exact ⟨hydration, hkeep _ _ hhyd, hcold⟩
    · rw [List.mem_singleton.1 hnew]
      exact ⟨_, hlast, rfl⟩
  · rw [List.map_append, List.nodup_append]
    refine ⟨h.distinctListeners, List.nodup_singleton _, ?_⟩
    intro s hs t ht
    obtain ⟨listener, hlistener, rfl⟩ := List.mem_map.1 hs
    obtain ⟨hydration, hhyd, -⟩ := h.registered listener hlistener
    have hlt := (List.getElem?_eq_some_iff.1 hhyd).1
    rw [List.mem_singleton.1 ht]
    dsimp only
    have := h.subscriptions
    omega
  · intro s sub hsub hopen
    rcases getElem?_concat_cases hsub with hold | ⟨rfl, -⟩
    · obtain ⟨listener, hlistener, hs⟩ := h.subscribed s sub hold hopen
      exact ⟨listener, List.mem_append_left _ hlistener, hs⟩
    · exact ⟨_, List.mem_append_right _ List.mem_cons_self, rfl⟩
  · intro s hydration hhyd
    rcases getElem?_concat_cases hhyd with hold | ⟨-, rfl⟩
    · exact h.hydrated s hydration hold
    · exact h.current
  · intro s sub hydration hsub hhyd
    rcases getElem?_concat_cases hsub with hold | ⟨rfl, rfl⟩
    · refine h.served s sub hydration hold ?_
      rcases getElem?_concat_cases hhyd with hhyd | ⟨heq, -⟩
      · exact hhyd
      have hlt := (List.getElem?_eq_some_iff.1 hold).1
      have := h.subscriptions
      omega
    rw [hlast] at hhyd
    cases hhyd
    have hreached : reached level work ⟨w.value, background, .hydrate, w.sequence⟩
        w.subscribers.length = w.sequence := by
      have := h.accepted
      simp only [reached]
      split <;> omega
    rw [hreached]
    refine
      { pending := by simp [pendingLimit]
        started := by simp
        received := Or.inl rfl
        deliveries := fun _ => sequenced_singleton
        reached := fun _ => ⟨_, rfl, rfl⟩ }

theorem Delivery.unsubscribe (s : Nat) :
    Delivery (w.unsubscribe s) level work hydrations := by
  refine
    { h with
      subscriptions := h.subscriptions.trans (List.length_modify _ _ _).symm
      registered := ?_
      distinctListeners := h.distinctListeners.sublist (List.Sublist.map _ List.filter_sublist)
      subscribed := ?_, served := ?_ }
  · intro listener hlistener
    exact h.registered listener (List.mem_of_mem_filter hlistener)
  · intro t sub hsub hopen
    obtain ⟨before, hprev, rfl⟩ := getElem?_modify_cases hsub
    split at hopen
    · cases hopen
    rename_i hne
    obtain ⟨listener, hlistener, ht⟩ := h.subscribed t before hprev hopen
    refine ⟨listener, List.mem_filter.2 ⟨hlistener, ?_⟩, ht⟩
    rw [ht]
    exact decide_eq_true (Ne.symm hne)
  · intro t sub hydration hsub hhyd
    obtain ⟨before, hprev, rfl⟩ := getElem?_modify_cases hsub
    have hserved := h.served t before hydration hprev hhyd
    split
    · exact hserved.close _
    · exact hserved

end

variable {w' : ReplicatedState C}

theorem Delivery.change {turn : Nat → Turn}
    (h : Delivery w level work hydrations) (hcontrol : Control none w turn) (hchange : Change w w') :
    ∃ level' work', Delivery w' level' work' hydrations := by
  cases hchange with
  | finish hstack hpubs => exact ⟨_, _, h.finish hstack hpubs⟩
  | dispatch hstack hpubs => exact ⟨_, _, h.next hstack hpubs⟩
  | skip hstack hold => exact ⟨_, _, h.skip hstack hold⟩
  | deliver hstack hnew => exact ⟨_, _, (h.push hstack hnew).drain _⟩
  | rest hstack hsub hpend =>
    exact ⟨_, _, h.reframe (by rw [hstack, works]) (untouched_running _ _ _)⟩
  | @call rest s sub frame pending hstack hsub hpend =>
    refine ⟨_, _, h.call hstack hsub ?_ hpend⟩
    cases hclosed : sub.closed with
    | false => rfl
    | true =>
      rw [hcontrol.closed s sub hsub hclosed] at hpend
      cases hpend
  | leave hstack | hooked hstack => exact ⟨_, _, h.reframe (by rw [hstack, works]) (untouched_refl _)⟩
  | goOn hstack _ _ => exact ⟨_, _, h.reframe (by rw [hstack, works, works]) (untouched_refl _)⟩
  | reported hstack =>
    exact ⟨_, _, (h.reframe (by rw [hstack, works]) (untouched_refl _)).settle _⟩
  | complete _ _ _ => exact ⟨_, _, (h.reframe rfl (untouched_refl _)).settle _⟩
  | fails | lost | dispose => exact ⟨_, _, h.reframe rfl (untouched_refl _)⟩
  | ignore => exact ⟨_, _, h⟩
  | publish _ cursor value context =>
    exact ⟨_, _, (h.reframe rfl (untouched_refl _)).publish value context⟩
  | unsubscribe _ s => exact ⟨_, _, h.unsubscribe s⟩

/-! ## Loops at their head -/

/-- A loop is at its head only on top of the stack. -/
def Headed (stack : List (Frame C)) : Prop := ∀ s, .drain s none ∉ stack.tail

theorem headed_of_callersTurn (h : Headed stack)
    (hturn : callersTurn stack = true) (s : Nat) : .drain s none ∉ stack := by
  cases stack with
  | nil => exact nofun
  | cons frame rest =>
    rintro (_ | ⟨_, hmem⟩)
    · cases hturn
    · exact h s hmem

theorem headed_drain {s : Nat} (h : ∀ t, .drain t none ∉ w.stack) : Headed (w.drain s).stack := by
  have htail : Headed w.stack := fun t hmem => h t (List.mem_of_mem_tail hmem)
  unfold ReplicatedState.drain
  split
  · exact htail
  split
  · exact htail
  · exact h

theorem headed_settle {c : Nat} (h : ∀ t, .drain t none ∉ w.stack) : Headed (w.settle c).stack := by
  have htail : Headed w.stack := fun t hmem => h t (List.mem_of_mem_tail hmem)
  unfold ReplicatedState.settle
  split
  · exact htail
  split
  · exact htail
  all_goals exact headed_drain h

theorem Headed.change (h : Headed w.stack) (hchange : Change w w') : Headed w'.stack := by
  have htail : ∀ {frame rest}, w.stack = frame :: rest → ∀ t, .drain t none ∉ rest := by
    intro frame rest hstack t hmem
    exact h t (by rw [hstack]; exact hmem)
  have hpop : ∀ {frame rest}, w.stack = frame :: rest → Headed rest :=
    fun hstack t hmem => htail hstack t (List.mem_of_mem_tail hmem)
  cases hchange with
  | finish hstack | rest hstack | leave hstack | hooked hstack => exact hpop hstack
  | dispatch hstack | skip hstack | call hstack | goOn hstack => exact htail hstack
  | deliver hstack _ =>
    refine headed_drain ?_
    rintro t (_ | ⟨_, hmem⟩)
    exact htail hstack t hmem
  | reported hstack => exact headed_settle (htail hstack)
  | complete hturn _ _ => exact headed_settle (headed_of_callersTurn h hturn)
  | fails hturn | lost hturn => exact headed_of_callersTurn h hturn
  | ignore | unsubscribe | dispose => exact h
  | publish hturn cursor value context =>
    unfold ReplicatedState.publish
    split
    · exact h
    · exact headed_of_callersTurn h hturn

theorem Headed.step {background : C} {move : Move C} (h : Headed w.stack)
    (hstep : w.step background move = some w') : Headed w'.stack := by
  rcases step_change hstep with ⟨-, hturn, rfl⟩ | hchange
  · exact headed_drain (headed_of_callersTurn h hturn)
  · exact h.change hchange

end Step

/-! ## Runs -/

section Runs

variable (background : C) (value : Json) (cursor : Int)

/-- The subscription that made subscriber `s` in a run, with the state it was made in. -/
def SubscribedAt (moves : List (Move C)) (s : Nat) (start : ReplicatedState C) : Prop :=
  ∃ before after, moves = before ++ .subscribe :: after ∧ start.subscribers.length = s ∧
    runMoves (step background) (attach value cursor) before = some start

/-- The pushes a subscriber is still owed by a dispatch in progress: one for every publication that
waits, and one if the current publication has not got to it. -/
def owed (w : ReplicatedState C) (s : Nat) : Nat :=
  w.publications.length + if Waits (works w.stack).flatten s then 1 else 0

variable {background value cursor}

variable {moves : List (Move C)}

theorem SubscribedAt.append {s : Nat} {start : ReplicatedState C}
    (h : SubscribedAt background value cursor moves s start) (move : Move C) :
    SubscribedAt background value cursor (moves ++ [move]) s start := by
  obtain ⟨before, after, rfl, hlen, hrun⟩ := h
  exact ⟨before, after ++ [move], by simp, hlen, hrun⟩

variable {w : ReplicatedState C}

theorem runMoves_delivery (hrun : runMoves (step background) (attach value cursor) moves = some w) :
    Headed w.stack ∧ (∃ turn, Control none w turn) ∧ ∃ level work hydrations, Delivery w level work hydrations ∧
        ∀ (s : Nat) (hydration : StateDelivery C), hydrations[s]? = some hydration →
          ∃ start, SubscribedAt background value cursor moves s start ∧
            hydration = ⟨start.value, background, .hydrate, start.sequence⟩ := by
  -- On the run from its end: the last move may be the subscription of the newest subscriber.
  induction moves using List.reverseRecOn generalizing w with
  | nil =>
    cases hrun
    exact ⟨nofun, ⟨_, control_attach value cursor⟩, 0, [], [], delivery_attach value cursor, nofun⟩
  | append_singleton moves move ih =>
    obtain ⟨mid, hmid, hlast⟩ := runMoves_append_eq_some.1 hrun
    obtain ⟨next, hstep, hnil⟩ := runMoves_cons_eq_some.1 hlast
    cases hnil
    obtain ⟨hheaded, ⟨turn, hcontrol⟩, level, work, hydrations, hdelivery, hstarts⟩ := ih hmid
    refine ⟨hheaded.step hstep, hcontrol.step hstep, ?_⟩
    rcases step_change hstep with ⟨rfl, -, rfl⟩ | hchange
    · refine ⟨level, work, _, hdelivery.subscribe background, ?_⟩
      intro s hydration hhyd
      rcases getElem?_concat_cases hhyd with hold | ⟨rfl, rfl⟩
      · obtain ⟨start, hstart, heq⟩ := hstarts s hydration hold
        exact ⟨start, hstart.append _, heq⟩
      · exact ⟨mid, ⟨moves, [], rfl, hdelivery.subscriptions.symm, hmid⟩, rfl⟩
    obtain ⟨level', work', hnext⟩ := hdelivery.change hcontrol hchange
    refine ⟨level', work', hydrations, hnext, ?_⟩
    intro s hydration hhyd
    obtain ⟨start, hstart, heq⟩ := hstarts s hydration hhyd
    exact ⟨start, hstart.append _, heq⟩

theorem Delivery.reached_eq {level : Nat}
    {work : List (Publication C × Listener)} {hydrations : List (StateDelivery C)}
    (h : Delivery w level work hydrations) (hydration : StateDelivery C) (s : Nat) :
    reached level work hydration s = max hydration.sequence (w.sequence - owed w s) := by
  have hwork : (works w.stack).flatten = work := by
    rcases h.dispatch with ⟨-, hworks⟩ | ⟨-, hworks, -, rfl⟩ <;> rw [hworks] <;> simp
  have hacc := h.accepted
  rw [reached, owed, hwork]
  split <;> omega

/-- **Replicated state delivery.** In every run, whatever listeners, completions and the error hook
call back, each subscriber's listener is called with one hydration that carries the value and the
sequence at its subscription and then with updates of strictly increasing sequence, above the
hydrated one, each with the value published at it; at most `pendingLimit` deliveries wait; at most
one callback of the subscriber runs; and while the caller has control, a subscriber that is open and
runs no callback has received the newest publication not owed to it by a dispatch in progress, which
is the newest one when nothing is owed, as when no call is in progress. -/
theorem subscriber_deliveries {moves : List (Move C)} {w : ReplicatedState C} {s : Nat} {sub : StateSubscriber C}
    (hrun : runMoves (step background) (attach value cursor) moves = some w) (hsub : w.subscribers[s]? = some sub) :
    ∃ start, SubscribedAt background value cursor moves s start ∧ (sub.received = [] ∨ ∃ updates,
        sub.received = ⟨start.value, background, .hydrate, start.sequence⟩ :: updates ∧
        updates.Pairwise (fun earlier later => earlier.sequence < later.sequence) ∧
        ∀ delivery ∈ updates, delivery.kind = .update ∧ start.sequence < delivery.sequence ∧
          w.published[delivery.sequence]? = some delivery.value) ∧ sub.pending.length ≤ pendingLimit ∧
      (∀ c d, Running w s c → Running w s d → c = d) ∧ (w.stack = [] → owed w s = 0) ∧
      (callersTurn w.stack = true → sub.closed = false → (∀ c, ¬ Running w s c) →
        ∃ last, sub.received.getLast? = some last ∧ last.sequence = max start.sequence (w.sequence - owed w s) ∧
          w.published[last.sequence]? = some last.value ∧
          (owed w s = 0 → last.sequence = w.sequence ∧ last.value = w.value)) := by
  obtain ⟨hheaded, ⟨turn, hcontrol⟩, level, work, hydrations, hdelivery, hstarts⟩ := runMoves_delivery hrun
  have hlt : s < hydrations.length := by
    rw [hdelivery.subscriptions]
    exact (List.getElem?_eq_some_iff.1 hsub).1
  obtain ⟨start, hstart, hhydration⟩ := hstarts s _ (List.getElem?_eq_getElem hlt)
  have hcold : hydrations[s]? = some ⟨start.value, background, .hydrate, start.sequence⟩ := by
    rw [List.getElem?_eq_getElem hlt, hhydration]
  have hserved := hdelivery.served s sub _ hsub hcold
  rw [hdelivery.reached_eq] at hserved
  refine ⟨start, hstart, ?_, hserved.pending, fun c d => hcontrol.running_unique, ?_, ?_⟩
  · exact hserved.received.imp_right Sequenced.updates_after
  · intro hempty
    rcases hdelivery.dispatch with ⟨-, hworks⟩ | ⟨-, hworks, hpublications, -⟩
    · rw [hempty] at hworks
      cases hworks
    · simp [owed, hworks, hpublications, Waits]
  · intro hturn hopen hquiet
    -- No turn, so nothing is pending and what was received is all there is.
    have hidle := hcontrol.idle_of_quiet hquiet (headed_of_callersTurn hheaded hturn s)
    have hall : sub.deliveries = sub.received := by
      rw [StateSubscriber.deliveries, hcontrol.resting s sub hsub hidle nofun, List.append_nil]
    have hdeliveries := hserved.deliveries hopen
    obtain ⟨last, hlast, hsequence⟩ := hserved.reached hopen
    rw [hall] at hdeliveries hlast
    have hvalue : w.published[last.sequence]? = some last.value :=
      hdeliveries.published_mem (hdelivery.hydrated s _ hcold) (List.mem_of_getLast? hlast)
    refine ⟨last, hlast, hsequence, hvalue, ?_⟩
    intro hnone
    have hbound := (List.getElem?_eq_some_iff.1 (hdelivery.hydrated s _ hcold)).1
    rw [hdelivery.history] at hbound
    have hnewest : last.sequence = w.sequence := by
      omega
    rw [hnewest, hdelivery.current] at hvalue
    exact ⟨hnewest, (Option.some.inj hvalue).symm⟩

end Runs

/-! ## A dispatch in progress -/

/-- Two subscriptions, then a frame whose dispatch has called the first listener. -/
def firstCalled : List (Move Unit) := [.subscribe, .proceed, .complete 0 false, .return, .proceed,
    .subscribe, .proceed, .complete 1 false, .return, .proceed,
    .receive 1 (.bool true) (), .proceed, .proceed, .proceed]

/-- The state in which the first listener has control. -/
def midDispatch : ReplicatedState Unit :=
  { value := .bool true
    sequence := 1
    listeners := [⟨0, 0⟩, ⟨1, 0⟩]
    delivering := true
    cursor := 1
    subscribers :=
      [{ running := true, started := true, received := [⟨.null, (), .hydrate, 0⟩, ⟨.bool true, (), .update, 1⟩] },
       { started := true, received := [⟨.null, (), .hydrate, 0⟩] }]
    callbacks := [⟨0, .inline, true⟩, ⟨1, .inline, true⟩, { subscriber := 0 }]
    stack := [.drain 0 (some 2), .publish [(⟨.bool true, 1, ()⟩, ⟨1, 0⟩)]]
    published := [.null, .bool true] }

/-- While the first listener is called, the second is subscribed, runs no callback and has not got the
newest publication. -/
theorem midDispatch_behind : runMoves (step ()) (attach .null 0) firstCalled = some midDispatch ∧
      callersTurn midDispatch.stack = true ∧
      ∃ sub, midDispatch.subscribers[1]? = some sub ∧ sub.closed = false ∧ (∀ c, ¬ Running midDispatch 1 c) ∧
        ∃ last, sub.received.getLast? = some last ∧ last.sequence < midDispatch.sequence := by
  refine ⟨rfl, rfl, _, rfl, rfl, ?_, _, rfl, by decide⟩
  rintro (_ | _ | _ | c) ⟨called, hcalled, hsub, hopen⟩
  · cases hcalled
    cases hsub
  · cases hcalled
    simp [midDispatch] at hopen
  · cases hcalled
    cases hsub
  · cases hcalled

/-- The same run to its end: the first listener fails, the second completes later. -/
def allCalled : List (Move Unit) :=
  firstCalled ++ [.complete 2 true, .return, .return, .proceed, .proceed, .proceed, .return,
    .proceed, .complete 3 false, .proceed]

def afterDispatch : ReplicatedState Unit := { midDispatch with
    delivering := false
    subscribers := [{ started := true, received := [⟨.null, (), .hydrate, 0⟩, ⟨.bool true, (), .update, 1⟩] },
       { started := true, received := [⟨.null, (), .hydrate, 0⟩, ⟨.bool true, (), .update, 1⟩] }]
    callbacks := [⟨0, .inline, true⟩, ⟨1, .inline, true⟩, ⟨0, .inline, true⟩, ⟨1, .returned, true⟩]
    stack := [] }

theorem afterDispatch_newest : runMoves (step ()) (attach .null 0) allCalled = some afterDispatch ∧
      ∃ sub, afterDispatch.subscribers[1]? = some sub ∧ sub.pending.length ≤ pendingLimit ∧
        ∃ last, sub.received.getLast? = some last ∧ last.sequence = 1 ∧ last.value = .bool true := by
  obtain ⟨start, -, -, hpending, -, howed, hnewest⟩ :=
    @subscriber_deliveries Unit () .null 0 allCalled afterDispatch 1 _ rfl rfl
  have hquiet : ∀ c, ¬ Running afterDispatch 1 c := by
    rintro (_ | _ | _ | _ | c) ⟨called, hcalled, -, hopen⟩
    all_goals
      cases hcalled
      try simp [afterDispatch] at hopen
  obtain ⟨last, hlast, -, -, hvalue⟩ := hnewest rfl rfl hquiet
  exact ⟨rfl, _, rfl, hpending, last, hlast, hvalue (howed rfl)⟩

end ReplicatedState

end CodingHarness.Chord
