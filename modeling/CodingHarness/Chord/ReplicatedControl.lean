import CodingHarness.Chord.ReplicatedState

/-!
# Control of the drain loops

Who may run the next callback of a subscriber. Every subscriber has a `Turn`: nobody drains it, its
loop is at its head on the stack, its loop is inside a call of its listener, or the loop has returned
and a callback that has not settled yet will resume it. `Control` ties the turns to the flags, the
stack and the handshakes, and every move keeps it (`Control.step`). A subscriber with no turn has
nothing pending, and the one callback its turn names is the only one that can be running.
-/

namespace CodingHarness.Chord

open Library Support
open List (getElem?_modify length_modify mem_cons mem_cons_of_mem mem_cons_self pairwise_cons)

/-- Who runs the next callback of a subscriber. -/
inductive Turn where
  | idle
  | looping
  | calling (callback : Nat)
  | waiting (callback : Nat)
  deriving DecidableEq

namespace ReplicatedState

variable {C : Type}

/-- Two calls in progress that do not belong to the same subscriber or completion. -/
def Apart : Frame C → Frame C → Prop
  | .drain s _, .drain t _ => s ≠ t
  | .report c, .report d => c ≠ d
  | _, _ => True

theorem Apart.relabel {s : Nat} {callback callback' : Option Nat} {frame : Frame C}
    (h : Apart (.drain s callback) frame) : Apart (.drain s callback') frame := by
  cases frame with
  | drain t other => exact h
  | _ => trivial

/-- The control invariant; `loose` is a subscriber that has got a delivery and is not drained yet. -/
structure Control (loose : Option Nat) (w : ReplicatedState C) (turn : Nat → Turn) : Prop where
  running : ∀ (s : Nat) (sub : StateSubscriber C), w.subscribers[s]? = some sub →
    (sub.running = true ↔ turn s ≠ .idle)
  resting : ∀ (s : Nat) (sub : StateSubscriber C), w.subscribers[s]? = some sub →
    turn s = .idle → loose ≠ some s → sub.pending = []
  closed : ∀ (s : Nat) (sub : StateSubscriber C), w.subscribers[s]? = some sub →
    sub.closed = true → sub.pending = []
  known : ∀ s, turn s ≠ .idle → s < w.subscribers.length
  looping : ∀ s, turn s = .looping ↔ .drain s none ∈ w.stack
  calling : ∀ s c, turn s = .calling c ↔ .drain s (some c) ∈ w.stack
  apart : w.stack.Pairwise Apart
  hsRunning : ∀ (c : Nat) (called : Callback), w.callbacks[c]? = some called →
    called.handshake = .running → turn called.subscriber = .calling c ∧
      (called.settled = false ∨ .report c ∈ w.stack)
  hsReturned : ∀ (c : Nat) (called : Callback), w.callbacks[c]? = some called →
    called.handshake = .returned → called.settled = false ∨ .report c ∈ w.stack →
    turn called.subscriber = .waiting c
  hsInline : ∀ (c : Nat) (called : Callback), w.callbacks[c]? = some called →
    called.handshake = .inline → called.settled = true ∧ .report c ∉ w.stack
  reported : ∀ c, .report c ∈ w.stack → ∃ called, w.callbacks[c]? = some called ∧ called.settled = true
  called : ∀ s c, turn s = .calling c →
    ∃ called, w.callbacks[c]? = some called ∧ called.subscriber = s ∧ called.handshake ≠ .returned
  waiting : ∀ s c, turn s = .waiting c → ∃ called, w.callbacks[c]? = some called ∧ called.subscriber = s ∧
      called.handshake = .returned ∧ (called.settled = false ∨ .report c ∈ w.stack)

theorem control_attach (value : Json) (cursor : Int) : Control none (@attach C value cursor) fun _ => .idle where
  running s sub h := by cases h
  resting s sub h := by cases h
  closed s sub h := by cases h
  known s h := (h rfl).elim
  looping s := by simp [attach]
  calling s c := by simp [attach]
  apart := List.Pairwise.nil
  hsRunning c called h := by cases h
  hsReturned c called h := by cases h
  hsInline c called h := by cases h
  reported c h := by cases h
  called s c h := by cases h
  waiting s c h := by cases h

theorem getElem?_modify_cases {α : Type} {l : List α} {f : α → α} {i j : Nat} {y : α}
    (h : (l.modify i f)[j]? = some y) : ∃ x, l[j]? = some x ∧ y = if i = j then f x else x := by
  rw [getElem?_modify] at h
  cases hx : l[j]? with
  | none =>
    rw [hx] at h
    cases h
  | some x =>
    rw [hx] at h
    exact ⟨x, rfl, (Option.some.inj h).symm⟩

theorem getElem?_modify_self {α : Type} {l : List α} {f : α → α} {i : Nat} {x y : α} (hx : l[i]? = some x)
    (h : (l.modify i f)[i]? = some y) : y = f x := by
  obtain ⟨before, hprev, rfl⟩ := getElem?_modify_cases h
  rw [hx] at hprev
  cases hprev
  rw [if_pos rfl]

theorem getElem?_modify_some {α : Type} {l : List α} {i : Nat} {x : α} (hx : l[i]? = some x) (f : α → α) (j : Nat) :
    (l.modify i f)[j]? = if j = i then some (f x) else l[j]? := by
  by_cases hj : j = i
  · simp [hj, hx]
  · rw [if_neg hj]
    simp [Ne.symm hj]

section Primitives

variable {w : ReplicatedState C} {turn : Nat → Turn} {w' : ReplicatedState C}

theorem Control.reframe (h : Control none w turn)
    (hsubs : w'.subscribers = w.subscribers) (hcbs : w'.callbacks = w.callbacks)
    (hdrain : ∀ s callback, Frame.drain s callback ∈ w'.stack ↔ .drain s callback ∈ w.stack)
    (hreport : ∀ c, Frame.report c ∈ w'.stack ↔ .report c ∈ w.stack)
    (hapart : w'.stack.Pairwise Apart) : Control none w' turn where
  running := by rw [hsubs]; exact h.running
  resting := by rw [hsubs]; exact h.resting
  closed := by rw [hsubs]; exact h.closed
  known := by rw [hsubs]; exact h.known
  looping s := (h.looping s).trans (hdrain s none).symm
  calling s c := (h.calling s c).trans (hdrain s (some c)).symm
  apart := hapart
  hsRunning c called := by rw [hcbs, hreport]; exact h.hsRunning c called
  hsReturned c called := by rw [hcbs, hreport]; exact h.hsReturned c called
  hsInline c called := by rw [hcbs, hreport]; exact h.hsInline c called
  reported c := by rw [hcbs, hreport]; exact h.reported c
  called := by rw [hcbs]; exact h.called
  waiting s c := by rw [hcbs, hreport]; exact h.waiting s c

theorem push_flags (sub : StateSubscriber C) (frame : StateDelivery C) :
    (sub.push frame).running = sub.running ∧ (sub.push frame).closed = sub.closed := by
  unfold StateSubscriber.push
  split
  · exact ⟨rfl, rfl⟩
  · split <;> exact ⟨rfl, rfl⟩

variable {s c : Nat}

/-- A change of one subscriber that starts nothing and leaves pending only what was there, or makes it loose. -/
theorem Control.modify {loose : Option Nat} (h : Control none w turn) (s : Nat)
    (f : StateSubscriber C → StateSubscriber C) (hf : ∀ sub, (f sub).running = sub.running ∧
      ((f sub).pending = [] ∨ f sub = sub ∨ loose = some s ∧ (f sub).closed = false))
    (listeners : List Listener) : Control loose
      { w with subscribers := w.subscribers.modify s f, listeners := listeners } turn := by
  have hsub : ∀ (t : Nat) (sub : StateSubscriber C), (w.subscribers.modify s f)[t]? = some sub →
      ∃ before, w.subscribers[t]? = some before ∧ sub.running = before.running ∧
        (sub.pending = [] ∨ sub = before ∨ loose = some t ∧ sub.closed = false) := by
    intro t sub hsub
    obtain ⟨before, hprev, rfl⟩ := getElem?_modify_cases hsub
    refine ⟨before, hprev, ?_⟩
    split
    · next heq => exact heq ▸ hf before
    · exact ⟨rfl, .inr (.inl rfl)⟩
  refine { h with running := ?_, resting := ?_, closed := ?_, known := ?_ }
  · intro t sub ht
    obtain ⟨before, hprev, hrunning, -⟩ := hsub t sub ht
    rw [hrunning]
    exact h.running t before hprev
  · intro t sub ht hidle hloose
    obtain ⟨before, hprev, -, hempty | rfl | ⟨hsome, -⟩⟩ := hsub t sub ht
    · exact hempty
    · exact h.resting t sub hprev hidle nofun
    · exact absurd hsome hloose
  · intro t sub ht hclosed
    obtain ⟨before, hprev, -, hempty | rfl | ⟨-, hopen⟩⟩ := hsub t sub ht
    · exact hempty
    · exact h.closed t sub hprev hclosed
    · exact absurd hclosed (by simp [hopen])
  · intro t ht
    exact lt_of_lt_of_eq (h.known t ht) (length_modify _ _ _).symm

theorem Control.push (h : Control none w turn) (frame : StateDelivery C) :
    Control (some s) (w.push s frame) turn := by
  refine h.modify s (·.push frame) (fun sub => ?_) w.listeners
  obtain ⟨hrunning, hclosed⟩ := push_flags sub frame
  refine ⟨hrunning, .inr ?_⟩
  cases hopen : sub.closed with
  | true => exact .inl (if_pos hopen)
  | false => exact .inr ⟨rfl, hclosed.trans hopen⟩

/-- The two states differ only in what belongs to one subscriber, which gets the turn `t`: its flags,
its loop on the stack and its callbacks. -/
structure Retargets (loose : Option Nat) (w w' : ReplicatedState C) (s : Nat) (t : Turn) : Prop where
  length : w'.subscribers.length = w.subscribers.length
  known : s < w.subscribers.length
  others : ∀ r, r ≠ s → w'.subscribers[r]? = w.subscribers[r]?
  flags : ∀ sub, w'.subscribers[s]? = some sub → (sub.running = true ↔ t ≠ .idle) ∧
    (t = .idle → loose ≠ some s → sub.pending = []) ∧ (sub.closed = true → sub.pending = [])
  otherLoops : ∀ r callback, r ≠ s → (Frame.drain r callback ∈ w'.stack ↔ .drain r callback ∈ w.stack)
  looping : t = .looping ↔ .drain s none ∈ w'.stack
  calling : ∀ c, t = .calling c ↔ .drain s (some c) ∈ w'.stack
  apart : w'.stack.Pairwise Apart
  otherCallbacks : ∀ (c : Nat) (called : Callback), called.subscriber ≠ s →
    (w'.callbacks[c]? = some called ↔ w.callbacks[c]? = some called)
  otherReports : ∀ (c : Nat) (called : Callback), w.callbacks[c]? = some called →
    called.subscriber ≠ s → (Frame.report c ∈ w'.stack ↔ .report c ∈ w.stack)
  reported : ∀ c, Frame.report c ∈ w'.stack → ∃ called, w'.callbacks[c]? = some called ∧ called.settled = true
  callbacks : ∀ (c : Nat) (called : Callback), w'.callbacks[c]? = some called → called.subscriber = s →
    (called.handshake = .running → t = .calling c ∧ (called.settled = false ∨ .report c ∈ w'.stack)) ∧
    (called.handshake = .returned → called.settled = false ∨ .report c ∈ w'.stack → t = .waiting c) ∧
    (called.handshake = .inline → called.settled = true ∧ .report c ∉ w'.stack)
  called : ∀ c, t = .calling c →
    ∃ called, w'.callbacks[c]? = some called ∧ called.subscriber = s ∧ called.handshake ≠ .returned
  waiting : ∀ c, t = .waiting c → ∃ called, w'.callbacks[c]? = some called ∧ called.subscriber = s ∧
      called.handshake = .returned ∧ (called.settled = false ∨ .report c ∈ w'.stack)

theorem Control.retarget {loose loose' : Option Nat} {t : Turn}
    (h : Control loose w turn) (hloose : loose = none ∨ loose = some s)
    (hr : Retargets loose' w w' s t) : Control loose' w' (Function.update turn s t) := by
  have hsame : Function.update turn s t s = t := Function.update_self _ _ _
  have hother : ∀ r, r ≠ s → Function.update turn s t r = turn r := fun r hne => Function.update_of_ne hne _ _
  refine ⟨?_, ?_, ?_, ?_, ?_, ?_, hr.apart, ?_, ?_, ?_, hr.reported, ?_, ?_⟩
  · intro r sub hsub
    by_cases heq : r = s
    · subst heq
      rw [hsame]
      exact (hr.flags sub hsub).1
    · rw [hother r heq]
      exact h.running r sub (by rw [← hr.others r heq]; exact hsub)
  · intro r sub hsub hidle hne
    by_cases heq : r = s
    · subst heq
      rw [hsame] at hidle
      exact (hr.flags sub hsub).2.1 hidle hne
    rw [hother r heq] at hidle
    refine h.resting r sub (by rw [← hr.others r heq]; exact hsub) hidle ?_
    rcases hloose with rfl | rfl
    · exact nofun
    · exact fun hsome => heq (Option.some.inj hsome).symm
  · intro r sub hsub hclosed
    by_cases heq : r = s
    · subst heq
      exact (hr.flags sub hsub).2.2 hclosed
    · exact h.closed r sub (by rw [← hr.others r heq]; exact hsub) hclosed
  · intro r hne
    rw [hr.length]
    by_cases heq : r = s
    · subst heq
      exact hr.known
    · rw [hother r heq] at hne
      exact h.known r hne
  · intro r
    by_cases heq : r = s
    · subst heq
      rw [hsame]
      exact hr.looping
    · rw [hother r heq, hr.otherLoops r none heq]
      exact h.looping r
  · intro r c
    by_cases heq : r = s
    · subst heq
      rw [hsame]
      exact hr.calling c
    · rw [hother r heq, hr.otherLoops r (some c) heq]
      exact h.calling r c
  · intro c called hcalled hshake
    by_cases heq : called.subscriber = s
    · rw [heq, hsame]
      exact (hr.callbacks c called hcalled heq).1 hshake
    have hprev := (hr.otherCallbacks c called heq).1 hcalled
    rw [hother _ heq, hr.otherReports c called hprev heq]
    exact h.hsRunning c called hprev hshake
  · intro c called hcalled hshake hopen
    by_cases heq : called.subscriber = s
    · rw [heq, hsame]
      exact (hr.callbacks c called hcalled heq).2.1 hshake hopen
    have hprev := (hr.otherCallbacks c called heq).1 hcalled
    rw [hr.otherReports c called hprev heq] at hopen
    rw [hother _ heq]
    exact h.hsReturned c called hprev hshake hopen
  · intro c called hcalled hshake
    by_cases heq : called.subscriber = s
    · exact (hr.callbacks c called hcalled heq).2.2 hshake
    have hprev := (hr.otherCallbacks c called heq).1 hcalled
    rw [hr.otherReports c called hprev heq]
    exact h.hsInline c called hprev hshake
  · intro r c hturn
    by_cases heq : r = s
    · subst heq
      rw [hsame] at hturn
      exact hr.called c hturn
    rw [hother r heq] at hturn
    obtain ⟨called, hcalled, hsub, hshake⟩ := h.called r c hturn
    exact ⟨called, (hr.otherCallbacks c called (by rw [hsub]; exact heq)).2 hcalled, hsub, hshake⟩
  · intro r c hturn
    by_cases heq : r = s
    · subst heq
      rw [hsame] at hturn
      exact hr.waiting c hturn
    rw [hother r heq] at hturn
    obtain ⟨called, hcalled, hsub, hshake, hopen⟩ := h.waiting r c hturn
    have hne : called.subscriber ≠ s := by rw [hsub]; exact heq
    rw [← hr.otherReports c called hcalled hne] at hopen
    exact ⟨called, (hr.otherCallbacks c called hne).2 hcalled, hsub, hshake, hopen⟩

/-- No loop of a subscriber is on the stack while its turn is not on it. -/
theorem Control.no_loop {loose : Option Nat} (h : Control loose w turn)
    (hloop : turn s ≠ .looping) (hcall : ∀ c, turn s ≠ .calling c) (callback : Option Nat) :
    Frame.drain s callback ∉ w.stack := by
  intro hmem
  cases callback with
  | none => exact hloop ((h.looping s).2 hmem)
  | some c => exact hcall c ((h.calling s c).2 hmem)

variable {called : Callback} {sub : StateSubscriber C}

theorem Control.flags {loose loose' : Option Nat} {t : Turn} (h : Control loose w turn) (hturn : turn s ≠ .idle)
    (ht : t ≠ .idle) (hsub : w.subscribers[s]? = some sub) :
    (sub.running = true ↔ t ≠ .idle) ∧ (t = .idle → loose' ≠ some s → sub.pending = []) ∧
      (sub.closed = true → sub.pending = []) :=
  ⟨by simp [(h.running s sub hsub).2 hturn, ht], fun heq => (ht heq).elim, h.closed s sub hsub⟩

/-- A callback that a move leaves alone keeps its handshake if its subscriber keeps its turn for it. -/
theorem Control.carried {loose : Option Nat} {t : Turn} {stack : List (Frame C)} (h : Control loose w turn)
    (hcalled : w.callbacks[c]? = some called) (hsub : called.subscriber = s)
    (hreport : Frame.report c ∈ stack ↔ .report c ∈ w.stack)
    (hcall : called.handshake = .running → turn s = .calling c → t = .calling c)
    (hwait : turn s = .waiting c → t = .waiting c) :
    (called.handshake = .running → t = .calling c ∧ (called.settled = false ∨ .report c ∈ stack)) ∧
      (called.handshake = .returned → called.settled = false ∨ .report c ∈ stack → t = .waiting c) ∧
      (called.handshake = .inline → called.settled = true ∧ .report c ∉ stack) := by
  rw [hreport]
  subst hsub
  refine ⟨?_, ?_, h.hsInline c called hcalled⟩
  · intro hrunning
    obtain ⟨hturn, hopen⟩ := h.hsRunning c called hcalled hrunning
    exact ⟨hcall hrunning hturn, hopen⟩
  · intro hreturned hopen
    exact hwait (h.hsReturned c called hcalled hreturned hopen)

theorem Control.popped {callback : Option Nat} {rest : List (Frame C)} (h : Control none w turn)
    (hstack : w.stack = .drain s callback :: rest) :
    (∀ callback, Frame.drain s callback ∉ rest) ∧ rest.Pairwise Apart ∧
      (∀ callback, (Frame.drain s callback :: rest).Pairwise Apart) ∧
      (∀ r callback, r ≠ s → (Frame.drain r callback ∈ rest ↔ .drain r callback ∈ w.stack)) ∧
      ∀ d, Frame.report d ∈ rest ↔ .report d ∈ w.stack := by
  have hapart := h.apart
  rw [hstack, pairwise_cons] at hapart
  rw [hstack]
  refine ⟨fun callback hmem => hapart.1 _ hmem rfl, hapart.2, ?_, ?_, by simp⟩
  · exact fun callback => List.Pairwise.cons (fun frame hmem => (hapart.1 frame hmem).relabel) hapart.2
  · intro r callback hne
    simp [hne]

theorem other_callback {d : Nat} {found now : Callback} (hcalled : w.callbacks[c]? = some called)
    (hnow : now.subscriber = called.subscriber) (hne : found.subscriber ≠ called.subscriber) :
    (if d = c then some now else w.callbacks[d]?) = some found ↔ w.callbacks[d]? = some found := by
  by_cases hd : d = c
  · subst hd
    rw [if_pos rfl, hcalled]
    constructor
    · rintro ⟨⟩
      exact (hne hnow).elim
    · rintro ⟨⟩
      exact (hne rfl).elim
  · rw [if_neg hd]

/-- Draining settles the loose subscriber: its loop starts unless one runs or it is closed. -/
theorem Control.drain (h : Control (some s) w turn) : ∃ turn', Control none (w.drain s) turn' := by
  have hrest : (∀ sub, w.subscribers[s]? = some sub → turn s = .idle → sub.pending = []) → Control none w turn := by
    intro hs
    refine { h with resting := ?_ }
    intro t sub ht hidle _
    by_cases heq : t = s
    · subst heq
      exact hs sub ht hidle
    · exact h.resting t sub ht hidle fun hsome => heq (Option.some.inj hsome).symm
  unfold ReplicatedState.drain
  split
  · rename_i hnone
    refine ⟨turn, hrest ?_⟩
    intro sub hsub
    rw [hnone] at hsub
    cases hsub
  rename_i sub hsub
  split
  · rename_i hskip
    refine ⟨turn, hrest ?_⟩
    intro sub' hsub' hidle
    rw [hsub] at hsub'
    cases hsub'
    rcases Bool.or_eq_true_iff.1 hskip with hrunning | hclosed
    · exact ((h.running s sub hsub).1 hrunning hidle).elim
    · exact h.closed s sub hsub hclosed
  rename_i hstart
  rw [Bool.not_eq_true, Bool.or_eq_false_iff] at hstart
  have hidle : turn s = .idle := by
    by_contra hne
    have := (h.running s sub hsub).2 hne
    rw [hstart.1] at this
    cases this
  have hfresh := h.no_loop (by rw [hidle]; exact nofun) (by rw [hidle]; exact fun _ => nofun)
  refine ⟨_, h.retarget (Or.inr rfl) (s := s) (t := .looping) ?_⟩
  refine
    { length := length_modify _ _ _
      known := (List.getElem?_eq_some_iff.1 hsub).1
      others := ?_, flags := ?_, otherLoops := ?_, looping := ?_, calling := ?_, apart := ?_
      otherCallbacks := fun _ _ _ => Iff.rfl
      otherReports := ?_, reported := ?_, callbacks := ?_
      called := nofun
      waiting := nofun }
  · intro r hne
    simp [Ne.symm hne]
  · intro sub' hsub'
    cases getElem?_modify_self hsub hsub'
    exact ⟨by simp, nofun, fun hclosed => h.closed s sub hsub hclosed⟩
  · intro r callback hne
    simp [hne]
  · simp
  · intro c
    simp [hfresh (some c)]
  · refine List.Pairwise.cons ?_ h.apart
    intro frame hframe
    cases frame with
    | drain r callback =>
      intro heq
      subst heq
      exact hfresh callback hframe
    | _ => trivial
  · simp
  · intro c hc
    simp only [mem_cons, reduceCtorEq, false_or] at hc
    exact h.reported c hc
  · intro c called hcalled hcb
    exact h.carried hcalled hcb (by simp) (by rw [hidle]; exact fun _ => nofun) (by rw [hidle]; exact nofun)

theorem Control.rest {rest : List (Frame C)}
    (h : Control none w turn) (hstack : w.stack = .drain s none :: rest)
    (hsub : w.subscribers[s]? = some sub) (hpend : sub.pending = []) : ∃ turn', Control none { w with
        subscribers := w.subscribers.modify s ({ · with running := false })
        stack := rest } turn' := by
  have hloop : turn s = .looping := (h.looping s).2 (by rw [hstack]; exact mem_cons_self)
  obtain ⟨hgone, hapart, -, hloops, hreports⟩ := h.popped hstack
  refine ⟨_, h.retarget (Or.inl rfl) (s := s) (t := .idle) ?_⟩
  refine
    { length := length_modify _ _ _
      known := (List.getElem?_eq_some_iff.1 hsub).1
      others := ?_, flags := ?_
      otherLoops := hloops
      looping := ⟨nofun, fun hmem => (hgone none hmem).elim⟩
      calling := fun c => ⟨nofun, fun hmem => (hgone (some c) hmem).elim⟩
      apart := hapart
      otherCallbacks := fun _ _ _ => Iff.rfl
      otherReports := fun c _ _ _ => hreports c
      reported := fun c hc => h.reported c ((hreports c).1 hc)
      callbacks := ?_
      called := nofun
      waiting := nofun }
  · intro r hne
    simp [Ne.symm hne]
  · intro sub' hsub'
    cases getElem?_modify_self hsub hsub'
    exact ⟨by simp, fun _ _ => hpend, fun _ => hpend⟩
  · intro c called hcalled hcb
    exact h.carried hcalled hcb (hreports c) (by rw [hloop]; exact fun _ => nofun) (by rw [hloop]; exact nofun)

theorem Control.call {rest : List (Frame C)}
    {frame : StateDelivery C} {pending : List (StateDelivery C)} (h : Control none w turn)
    (hstack : w.stack = .drain s none :: rest) (hsub : w.subscribers[s]? = some sub)
    (hpend : sub.pending = frame :: pending) : ∃ turn', Control none { w with
        subscribers := w.subscribers.modify s
          ({ · with pending := pending, started := true, received := sub.received ++ [frame] })
        callbacks := w.callbacks ++ [{ subscriber := s }]
        stack := .drain s (some w.callbacks.length) :: rest } turn' := by
  have hloop : turn s = .looping := (h.looping s).2 (by rw [hstack]; exact mem_cons_self)
  have hrunning : sub.running = true := (h.running s sub hsub).2 (by rw [hloop]; exact nofun)
  have hopen : sub.closed = false := by
    cases hclosed : sub.closed with
    | false => rfl
    | true =>
      rw [h.closed s sub hsub hclosed] at hpend
      cases hpend
  obtain ⟨hgone, -, hapart, hloops, hreports⟩ := h.popped hstack
  have hkeep : ∀ (c : Nat) (called : Callback), w.callbacks[c]? = some called →
      (w.callbacks ++ [{ subscriber := s }])[c]? = some called := by
    intro c called hcalled
    rw [List.getElem?_append_left (List.getElem?_eq_some_iff.1 hcalled).1]
    exact hcalled
  refine ⟨_, h.retarget (Or.inl rfl) (s := s) (t := .calling w.callbacks.length) ?_⟩
  refine
    { length := length_modify _ _ _
      known := (List.getElem?_eq_some_iff.1 hsub).1
      others := ?_, flags := ?_, otherLoops := ?_, looping := ?_, calling := ?_
      apart := hapart _
      otherCallbacks := ?_, otherReports := ?_, reported := ?_, callbacks := ?_, called := ?_
      waiting := nofun }
  · intro r hne
    simp [Ne.symm hne]
  · intro sub' hsub'
    cases getElem?_modify_self hsub hsub'
    refine ⟨by simp [hrunning], nofun, fun hclosed => ?_⟩
    rw [hopen] at hclosed
    cases hclosed
  · intro r callback hne
    simp [hne, hloops r callback hne]
  · simp [hgone none]
  · intro c
    simp only [Turn.calling.injEq, mem_cons, Frame.drain.injEq, Option.some.injEq, true_and, hgone (some c), or_false]
    exact eq_comm
  · intro c called hne
    constructor
    · intro hcalled
      rcases getElem?_concat_cases hcalled with hcalled | ⟨-, rfl⟩
      · exact hcalled
      · exact (hne rfl).elim
    · exact hkeep c called
  · simp [hreports]
  · intro c hc
    obtain ⟨called, hcalled, hsettled⟩ := h.reported c (by simpa [hreports] using hc)
    exact ⟨called, hkeep c called hcalled, hsettled⟩
  · intro c called hcalled hcb
    rcases getElem?_concat_cases hcalled with hcalled | ⟨rfl, rfl⟩
    · exact h.carried hcalled hcb (by simp [hreports]) (by rw [hloop]; exact fun _ => nofun)
        (by rw [hloop]; exact nofun)
    · exact ⟨fun _ => ⟨rfl, Or.inl rfl⟩, nofun, nofun⟩
  · intro c hc
    cases hc
    refine ⟨{ subscriber := s }, ?_, rfl, nofun⟩
    exact List.getElem?_concat_length

/-- A listener returns before its completion: the loop leaves it to resume the drain. -/
theorem Control.leave {rest : List (Frame C)} (h : Control none w turn) (hstack : w.stack = .drain s (some c) :: rest)
    (hcalled : w.callbacks[c]? = some called) (hshake : called.handshake = .running) : ∃ turn', Control none { w with
        callbacks := w.callbacks.modify c ({ · with handshake := .returned })
        stack := rest } turn' := by
  have hturn : turn s = .calling c := (h.calling s c).2 (by rw [hstack]; exact mem_cons_self)
  obtain ⟨hcallTurn, hopen⟩ := h.hsRunning c called hcalled hshake
  have hcallee : called.subscriber = s := by
    obtain ⟨found, hfound, hsub, -⟩ := h.called s c hturn
    rw [hcalled] at hfound
    cases hfound
    exact hsub
  obtain ⟨hgone, hapart, -, hloops, hreports⟩ := h.popped hstack
  rw [← hreports] at hopen
  have hlook := getElem?_modify_some hcalled ({ · with handshake := .returned })
  refine ⟨_, h.retarget (Or.inl rfl) (s := s) (t := .waiting c) ?_⟩
  refine
    { length := rfl
      known := h.known s (by rw [hturn]; exact nofun)
      others := fun _ _ => rfl
      flags := fun _ => h.flags (by rw [hturn]; exact nofun) (by exact nofun)
      otherLoops := hloops
      looping := ⟨nofun, fun hmem => (hgone none hmem).elim⟩
      calling := fun d => ⟨nofun, fun hmem => (hgone (some d) hmem).elim⟩
      apart := hapart
      otherCallbacks := ?_
      otherReports := fun d _ _ _ => hreports d
      reported := ?_, callbacks := ?_
      called := nofun
      waiting := ?_ }
  · intro d found hne
    rw [hlook]
    exact other_callback hcalled rfl (by rw [hcallee]; exact hne)
  · intro d hd
    obtain ⟨found, hfound, hsettled⟩ := h.reported d ((hreports d).1 hd)
    rw [hlook]
    split
    · rename_i heq
      subst heq
      rw [hcalled] at hfound
      cases hfound
      exact ⟨_, rfl, hsettled⟩
    · exact ⟨found, hfound, hsettled⟩
  · intro d found hfound hcb
    rw [hlook] at hfound
    split at hfound
    · rename_i heq
      cases hfound
      exact ⟨nofun, fun _ _ => by rw [heq], nofun⟩
    -- No other callback of the subscriber is open while this one is called.
    rename_i hne
    refine h.carried hfound hcb (hreports d) ?_ (by rw [hturn]; exact nofun)
    intro _ hother
    rw [hturn] at hother
    cases hother
    exact (hne rfl).elim
  · intro d hd
    cases hd
    exact ⟨{ called with handshake := .returned }, by rw [hlook, if_pos rfl], hcallee, rfl, hopen⟩

theorem Control.goOn {rest : List (Frame C)} (h : Control none w turn) (hstack : w.stack = .drain s (some c) :: rest)
    (hcalled : w.callbacks[c]? = some called) (hshake : called.handshake ≠ .running) :
    ∃ turn', Control none { w with stack := .drain s none :: rest } turn' := by
  have hturn : turn s = .calling c := (h.calling s c).2 (by rw [hstack]; exact mem_cons_self)
  obtain ⟨hgone, -, hapart, hloops, hrest⟩ := h.popped hstack
  have hreports : ∀ d, Frame.report d ∈ Frame.drain s none :: rest ↔ .report d ∈ w.stack := by
    simp [hrest]
  refine ⟨_, h.retarget (Or.inl rfl) (s := s) (t := .looping) ?_⟩
  refine
    { length := rfl
      known := h.known s (by rw [hturn]; exact nofun)
      others := fun _ _ => rfl
      flags := fun _ => h.flags (by rw [hturn]; exact nofun) (by exact nofun)
      otherLoops := ?_, looping := by simp, calling := ?_
      apart := hapart _
      otherCallbacks := fun _ _ _ => Iff.rfl
      otherReports := fun d _ _ _ => hreports d
      reported := fun d hd => h.reported d ((hreports d).1 hd)
      callbacks := ?_
      called := nofun
      waiting := nofun }
  · intro r callback hne
    simp [hne, hloops r callback hne]
  · intro d
    simp [hgone (some d)]
  · intro d found hfound hcb
    refine h.carried hfound hcb (hreports d) ?_ (by rw [hturn]; exact nofun)
    intro hrunning hsame
    rw [hturn] at hsame
    cases hsame
    rw [hcalled] at hfound
    cases hfound
    exact (hshake hrunning).elim

/-- A completion ends. Inside the listener's call it only marks the handshake; after the call has
returned it resumes the drain. -/
theorem Control.settle (h : Control none w turn) (hcalled : w.callbacks[c]? = some called)
    (hopen : called.settled = false ∨ .report c ∈ w.stack)
    (hsubs : w'.subscribers = w.subscribers) (hcbs : ∀ d, w'.callbacks[d]?
      = if d = c then some { called with settled := true } else w.callbacks[d]?)
    (hstack : ∀ frame, frame ∈ w'.stack ↔ frame ∈ w.stack ∧ frame ≠ .report c)
    (hapart : w'.stack.Pairwise Apart) : ∃ turn', Control none (w'.settle c) turn' := by
  have hnow : w'.callbacks[c]? = some { called with settled := true } := by
    rw [hcbs, if_pos rfl]
  have hdrains : ∀ r callback, Frame.drain r callback ∈ w'.stack ↔ .drain r callback ∈ w.stack := by
    intro r callback
    simp [hstack]
  have hgone : Frame.report c ∉ w'.stack := fun hmem => ((hstack _).1 hmem).2 rfl
  have hreports : ∀ d, d ≠ c → (Frame.report d ∈ w'.stack ↔ .report d ∈ w.stack) := by
    intro d hne
    simp [hstack, hne]
  have hotherReports : ∀ (d : Nat) (found : Callback), w.callbacks[d]? = some found →
      found.subscriber ≠ called.subscriber →
      (Frame.report d ∈ w'.stack ↔ .report d ∈ w.stack) := by
    intro d found hfound hne
    refine hreports d ?_
    rintro rfl
    rw [hcalled] at hfound
    cases hfound
    exact hne rfl
  have hreported : ∀ handshake d, Frame.report d ∈ w'.stack →
      ∃ found, (if d = c then some { called with settled := true, handshake := handshake }
        else w.callbacks[d]?) = some found ∧ found.settled = true := by
    intro handshake d hd
    have hne : d ≠ c := by
      rintro rfl
      exact hgone hd
    obtain ⟨found, hfound, hsettled⟩ := h.reported d ((hreports d hne).1 hd)
    exact ⟨found, by rw [if_neg hne]; exact hfound, hsettled⟩
  unfold ReplicatedState.settle
  rw [hnow]
  cases hshake : called.handshake with
  | running =>
    have hturn := (h.hsRunning c called hcalled hshake).1
    have hlook : ∀ d, (w'.callbacks.modify c ({ · with handshake := .inline }))[d]?
        = if d = c then some { called with settled := true, handshake := .inline }
          else w.callbacks[d]? := by
      intro d
      rw [getElem?_modify, hcbs]
      by_cases hd : d = c
      · simp [hd]
      · rw [if_neg hd, if_neg hd]
        simp [Ne.symm hd]
    refine ⟨_, h.retarget (Or.inl rfl) (s := called.subscriber) (t := .calling c) ?_⟩
    refine
      { length := by rw [hsubs]
        known := h.known _ (by rw [hturn]; exact nofun)
        others := fun _ _ => by rw [hsubs]
        flags := fun _ hsub => h.flags (by rw [hturn]; exact nofun) (by exact nofun) (hsubs ▸ hsub)
        otherLoops := fun r callback _ => hdrains r callback
        looping := ?_, calling := ?_
        apart := hapart
        otherCallbacks := fun d found hne => by rw [hlook]; exact other_callback hcalled rfl hne
        otherReports := hotherReports
        reported := fun d hd => by rw [hlook]; exact hreported _ d hd
        callbacks := ?_, called := ?_
        waiting := nofun }
    · rw [hdrains, ← h.looping, hturn]
    · intro d
      rw [hdrains, ← h.calling, hturn]
    · intro d found hfound hcb
      rw [hlook] at hfound
      by_cases hd : d = c
      · subst hd
        rw [if_pos rfl] at hfound
        cases hfound
        exact ⟨nofun, nofun, fun _ => ⟨rfl, hgone⟩⟩
      · rw [if_neg hd] at hfound
        exact h.carried hfound hcb (hreports d hd) (by rw [hturn]; exact fun _ => id) (by rw [hturn]; exact nofun)
    · intro d hd
      cases hd
      exact ⟨{ called with settled := true, handshake := .inline }, by rw [hlook, if_pos rfl], rfl, nofun⟩
  | returned =>
    have hturn := h.hsReturned c called hcalled hshake hopen
    have hlook : ∀ d, w'.callbacks[d]? = if d = c then some { called with settled := true, handshake := .returned }
          else w.callbacks[d]? := by
      intro d
      rw [hcbs]
      simp [← hshake]
    refine Control.drain (?_ : Control _ _ (Function.update turn called.subscriber .idle))
    refine h.retarget (Or.inl rfl) (s := called.subscriber) (t := .idle) ?_
    refine
      { length := by simp [hsubs]
        known := h.known _ (by rw [hturn]; exact nofun)
        others := ?_, flags := ?_, otherLoops := fun r callback _ => hdrains r callback
        looping := ?_, calling := ?_
        apart := hapart
        otherCallbacks := fun d found hne => by rw [hlook]; exact other_callback hcalled rfl hne
        otherReports := hotherReports
        reported := fun d hd => by rw [hlook]; exact hreported _ d hd
        callbacks := ?_
        called := nofun
        waiting := nofun }
    · intro r hne
      rw [getElem?_modify, hsubs]
      simp [Ne.symm hne]
    · intro sub hsub
      obtain ⟨before, hprev, rfl⟩ := getElem?_modify_cases hsub
      rw [hsubs] at hprev
      rw [if_pos rfl]
      exact ⟨by simp, fun _ hne => (hne rfl).elim, h.closed _ before hprev⟩
    · rw [hdrains, ← h.looping, hturn]
      simp
    · intro d
      rw [hdrains, ← h.calling, hturn]
      simp
    · intro d found hfound hcb
      rw [hlook] at hfound
      by_cases hd : d = c
      · subst hd
        rw [if_pos rfl] at hfound
        cases hfound
        refine ⟨nofun, ?_, nofun⟩
        rintro - (hstill | hstill)
        · cases hstill
        · exact (hgone hstill).elim
      rw [if_neg hd] at hfound
      refine h.carried hfound hcb (hreports d hd) (by rw [hturn]; exact fun _ => nofun) ?_
      intro hsame
      rw [hturn] at hsame
      cases hsame
      exact (hd rfl).elim
  | inline =>
    obtain ⟨hsettled, hreport⟩ := h.hsInline c called hcalled hshake
    rcases hopen with hopen | hopen
    · rw [hsettled] at hopen
      cases hopen
    · exact (hreport hopen).elim

theorem Control.report_fresh (h : Control none w turn)
    (hcalled : w.callbacks[c]? = some called) (hopen : called.settled = false) : Frame.report c ∉ w.stack := by
  intro hmem
  obtain ⟨found, hfound, hsettled⟩ := h.reported c hmem
  rw [hcalled] at hfound
  cases hfound
  rw [hopen] at hsettled
  cases hsettled

theorem Control.failing (h : Control none w turn)
    (hcalled : w.callbacks[c]? = some called) (hopen : called.settled = false) : Control none { w with
        callbacks := w.callbacks.modify c ({ · with settled := true })
        stack := .report c :: w.stack } turn := by
  have hfresh := h.report_fresh hcalled hopen
  have hlook := getElem?_modify_some hcalled ({ · with settled := true })
  have hreports : ∀ d, Frame.report d ∈ Frame.report c :: w.stack ↔ d = c ∨ Frame.report d ∈ w.stack := by
    simp
  -- A callback is as open as before: the completion that has begun waits on the stack.
  have hcbs : ∀ (d : Nat) (found : Callback), (w.callbacks.modify c ({ · with settled := true }))[d]? = some found →
      ∃ before, w.callbacks[d]? = some before ∧ found.subscriber = before.subscriber ∧
        found.handshake = before.handshake ∧
        ((found.settled = false ∨ Frame.report d ∈ Frame.report c :: w.stack) ↔
          (before.settled = false ∨ Frame.report d ∈ w.stack)) := by
    intro d found hfound
    rw [hlook] at hfound
    by_cases hd : d = c
    · subst hd
      rw [if_pos rfl] at hfound
      cases hfound
      exact ⟨called, hcalled, rfl, rfl, by simp [hopen]⟩
    · rw [if_neg hd] at hfound
      exact ⟨found, hfound, rfl, rfl, by simp [hd]⟩
  have hback : ∀ (d : Nat) (before : Callback), w.callbacks[d]? = some before →
      ∃ found, (w.callbacks.modify c ({ · with settled := true }))[d]? = some found := by
    intro d before hprev
    rw [getElem?_modify, hprev]
    exact ⟨_, rfl⟩
  refine
    { h with
      looping := ?_, calling := ?_, apart := ?_, hsRunning := ?_, hsReturned := ?_
      hsInline := ?_, reported := ?_, called := ?_, waiting := ?_ }
  · intro r
    rw [h.looping r]
    simp
  · intro r d
    rw [h.calling r d]
    simp
  · refine List.Pairwise.cons ?_ h.apart
    intro frame hframe
    cases frame with
    | report d =>
      intro heq
      subst heq
      exact hfresh hframe
    | _ => trivial
  · intro d found hfound hrunning
    obtain ⟨before, hprev, hsub, hshake, hstill⟩ := hcbs d found hfound
    rw [hsub, hstill]
    exact h.hsRunning d before hprev (by rw [← hshake]; exact hrunning)
  · intro d found hfound hreturned hopen'
    obtain ⟨before, hprev, hsub, hshake, hstill⟩ := hcbs d found hfound
    rw [hsub]
    exact h.hsReturned d before hprev (by rw [← hshake]; exact hreturned) (hstill.1 hopen')
  · intro d found hfound hinline
    obtain ⟨before, hprev, hsub, hshake, hstill⟩ := hcbs d found hfound
    obtain ⟨hsettled, hreport⟩ := h.hsInline d before hprev (by rw [← hshake]; exact hinline)
    have hnot : ¬ (found.settled = false ∨ Frame.report d ∈ Frame.report c :: w.stack) := by
      rw [hstill, hsettled]
      simp [hreport]
    rw [not_or] at hnot
    exact ⟨by simpa using hnot.1, hnot.2⟩
  · intro d hd
    rw [hreports] at hd
    rw [hlook]
    by_cases hdc : d = c
    · exact ⟨_, by rw [if_pos hdc], rfl⟩
    · obtain ⟨found, hfound, hsettled⟩ := h.reported d (hd.resolve_left hdc)
      exact ⟨found, by rw [if_neg hdc]; exact hfound, hsettled⟩
  · intro r d hturn
    obtain ⟨before, hprev, hsub, hshake⟩ := h.called r d hturn
    obtain ⟨found, hfound⟩ := hback d before hprev
    obtain ⟨before', hprev', hsub', hshake', -⟩ := hcbs d found hfound
    rw [hprev] at hprev'
    cases hprev'
    exact ⟨found, hfound, hsub'.trans hsub, by rw [hshake']; exact hshake⟩
  · intro r d hturn
    obtain ⟨before, hprev, hsub, hshake, hopen'⟩ := h.waiting r d hturn
    obtain ⟨found, hfound⟩ := hback d before hprev
    obtain ⟨before', hprev', hsub', hshake', hstill⟩ := hcbs d found hfound
    rw [hprev] at hprev'
    cases hprev'
    exact ⟨found, hfound, hsub'.trans hsub, hshake'.trans hshake, hstill.2 hopen'⟩

theorem Control.register (h : Control none w turn) (listeners : List Listener) :
    Control none { w with subscribers := w.subscribers ++ [{}], listeners := listeners } turn := by
  have hnew : turn w.subscribers.length = .idle := by
    by_contra hne
    exact Nat.lt_irrefl _ (h.known _ hne)
  refine { h with running := ?_, resting := ?_, closed := ?_, known := ?_ }
  · intro s sub hs
    rcases getElem?_concat_cases hs with hs | ⟨rfl, rfl⟩
    · exact h.running s sub hs
    · rw [hnew]
      simp
  · intro s sub hs hidle hloose
    rcases getElem?_concat_cases hs with hs | ⟨-, rfl⟩
    · exact h.resting s sub hs hidle hloose
    · rfl
  · intro s sub hs hclosed
    rcases getElem?_concat_cases hs with hs | ⟨-, rfl⟩
    · exact h.closed s sub hs hclosed
    · rfl
  · intro s hs
    rw [List.length_append]
    exact Nat.lt_add_right _ (h.known s hs)

theorem Control.unsubscribe (h : Control none w turn) (s : Nat) : Control none (w.unsubscribe s) turn :=
  h.modify s StateSubscriber.close (fun _ => ⟨rfl, .inl rfl⟩) _

theorem Control.change (h : Control none w turn) (hchange : Change w w') : ∃ turn', Control none w' turn' := by
  have hapart := h.apart
  cases hchange with
  | finish hstack | hooked hstack =>
    rw [hstack] at hapart
    exact ⟨turn, h.reframe rfl rfl (by simp [hstack]) (by simp [hstack]) hapart.tail⟩
  | dispatch hstack | skip hstack =>
    rw [hstack] at hapart
    exact ⟨turn, h.reframe rfl rfl (by simp [hstack]) (by simp [hstack])
      (hapart.tail.cons fun _ _ => trivial)⟩
  | @deliver rest _ _ work hstack _ =>
    rw [hstack] at hapart
    have hnext : Control none { w with stack := .publish work :: rest } turn :=
      h.reframe rfl rfl (by simp [hstack]) (by simp [hstack])
        (hapart.tail.cons fun _ _ => trivial)
    exact (hnext.push _).drain
  | rest hstack hsub hpend => exact h.rest hstack hsub hpend
  | call hstack hsub hpend => exact h.call hstack hsub hpend
  | leave hstack hcalled hshake => exact h.leave hstack hcalled hshake
  | goOn hstack hcalled hshake => exact h.goOn hstack hcalled hshake
  | @reported rest c hstack =>
    rw [hstack, pairwise_cons] at hapart
    obtain ⟨called, hcalled, hsettled⟩ := h.reported c (by rw [hstack]; exact mem_cons_self)
    refine h.settle hcalled (Or.inr (by rw [hstack]; exact mem_cons_self)) rfl ?_ ?_ hapart.2
    · intro d
      by_cases hd : d = c
      · rw [if_pos hd, hd, ← hsettled]
        exact hcalled
      · rw [if_neg hd]
    intro frame
    rw [hstack, mem_cons]
    constructor
    · intro hframe
      refine ⟨Or.inr hframe, ?_⟩
      rintro rfl
      exact hapart.1 _ hframe rfl
    · rintro ⟨hframe, hne⟩
      exact hframe.resolve_left hne
  | @complete c called _ hcalled hopen =>
    have hfresh := h.report_fresh hcalled hopen
    refine h.settle hcalled (Or.inl hopen) rfl ?_ ?_ hapart
    · intro d
      by_cases hd : d = c
      · simp [hd, hcalled]
      · rw [if_neg hd]
        simp [Ne.symm hd]
    intro frame
    constructor
    · intro hframe
      refine ⟨hframe, ?_⟩
      rintro rfl
      exact hfresh hframe
    · exact fun hframe => hframe.1
  | fails _ hcalled hopen => exact ⟨turn, h.failing hcalled hopen⟩
  | ignore => exact ⟨turn, h⟩
  | lost _ =>
    exact ⟨turn, h.reframe rfl rfl (by simp [fail]) (by simp [fail])
      (hapart.cons fun _ _ => trivial)⟩
  | publish _ cursor value context =>
    refine ⟨turn, ?_⟩
    unfold ReplicatedState.publish
    split
    · exact h.reframe rfl rfl (fun _ _ => Iff.rfl) (fun _ => Iff.rfl) hapart
    · exact h.reframe rfl rfl (by simp) (by simp) (hapart.cons fun _ _ => trivial)
  | unsubscribe _ s => exact ⟨turn, h.unsubscribe s⟩
  | dispose _ => exact ⟨turn, h.reframe rfl rfl (fun _ _ => Iff.rfl) (fun _ => Iff.rfl) hapart⟩

theorem Control.step {background : C} {move : Move C}
    (h : Control none w turn) (hstep : w.step background move = some w') : ∃ turn', Control none w' turn' := by
  rcases step_change hstep with ⟨-, -, rfl⟩ | hchange
  · exact ((h.register _).push _).drain
  · exact h.change hchange

/-! ## Running callbacks -/

/-- A callback of a subscriber runs until its completion has returned and its listener has. -/
def Running (w : ReplicatedState C) (s c : Nat) : Prop :=
  ∃ called, w.callbacks[c]? = some called ∧ called.subscriber = s ∧
    (called.settled = false ∨ .report c ∈ w.stack ∨ .drain s (some c) ∈ w.stack)

theorem Control.turn_of_running (h : Control none w turn) (hrun : Running w s c) :
    turn s = .calling c ∨ turn s = .waiting c := by
  obtain ⟨called, hcalled, rfl, hopen⟩ := hrun
  rw [← or_assoc] at hopen
  rcases hopen with hopen | hloop
  · cases hshake : called.handshake with
    | running => exact Or.inl (h.hsRunning c called hcalled hshake).1
    | returned => exact Or.inr (h.hsReturned c called hcalled hshake hopen)
    | inline =>
      obtain ⟨hsettled, hreport⟩ := h.hsInline c called hcalled hshake
      rcases hopen with hopen | hopen
      · rw [hsettled] at hopen
        cases hopen
      · exact (hreport hopen).elim
  · exact Or.inl ((h.calling _ c).2 hloop)

theorem Control.running_unique {d : Nat} (h : Control none w turn) (hc : Running w s c)
    (hd : Running w s d) : c = d := by
  rcases h.turn_of_running hc with hc | hc <;> rcases h.turn_of_running hd with hd | hd
  all_goals
    rw [hc] at hd
    cases hd
  · rfl
  · rfl

/-- A subscriber that runs no callback has no turn, unless its loop is at its head. -/
theorem Control.idle_of_quiet (h : Control none w turn) (hquiet : ∀ c, ¬ Running w s c)
    (hloop : .drain s none ∉ w.stack) : turn s = .idle := by
  cases hturn : turn s with
  | idle => rfl
  | looping => exact (hloop ((h.looping s).1 hturn)).elim
  | calling c =>
    obtain ⟨called, hcalled, hsub, -⟩ := h.called s c hturn
    exact (hquiet c ⟨called, hcalled, hsub, Or.inr (Or.inr ((h.calling s c).1 hturn))⟩).elim
  | waiting c =>
    obtain ⟨called, hcalled, hsub, -, hopen⟩ := h.waiting s c hturn
    refine (hquiet c ⟨called, hcalled, hsub, ?_⟩).elim
    exact hopen.imp_right Or.inl

end Primitives

end ReplicatedState

end CodingHarness.Chord
