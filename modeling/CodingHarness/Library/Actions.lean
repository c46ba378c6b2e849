import Mathlib.Logic.Basic

/-!
# Fallible actions on a state

An action of `EStateM` ends with a result or with an error, and the changes it made before an error
stay. `Ensures` is the triple of such an action, with one postcondition for each end, and the rules
below take a triple apart along the program text.
-/

namespace CodingHarness.Library

universe u

variable {ε σ τ α β : Type u}

/-- From a state of `P`, the action ends with a result in `Q` or with an error in `E`. -/
def Ensures (P : σ → Prop) (x : EStateM ε σ α) (Q : α → σ → Prop) (E : σ → Prop) : Prop := ∀ s, P s → match x s with
    | .ok a t => Q a t
    | .error _ t => E t

/-- The state an action ends in, with a result or with an error. -/
def endState (x : EStateM ε σ α) (s : σ) : σ := match x s with
  | .ok _ t => t
  | .error _ t => t

/-- The part of an action on a component of the state. -/
def zoom (get : τ → σ) (set : τ → σ → τ) (x : EStateM ε σ α) : EStateM ε τ α := fun t =>
  match x (get t) with
  | .ok a s => .ok a (set t s)
  | .error e s => .error e (set t s)

variable {P P' E E' : σ → Prop} {Q Q' : α → σ → Prop} {R : β → σ → Prop} {x : EStateM ε σ α}

theorem Ensures.endState (h : Ensures P x (fun _ => P') P') {s : σ} (hs : P s) : P' (endState x s) := by
  have hend := h s hs
  unfold CodingHarness.Library.endState
  split at hend
  · exact hend
  · exact hend

theorem ensures_pure {a : α} (h : ∀ s, P s → Q a s) : Ensures P (pure a : EStateM ε σ α) Q E := fun s hs => h s hs

theorem ensures_throw {e : ε} (h : ∀ s, P s → E s) : Ensures P (throw e : EStateM ε σ α) Q E := fun s hs => h s hs

/-- **Sequencing.** The second action starts where the first one ended with its result. -/
theorem Ensures.bind {f : α → EStateM ε σ β} (hx : Ensures P x Q E)
    (hf : ∀ a, Ensures (Q a) (f a) R E) : Ensures P (x >>= f) R E := by
  intro s hs
  have hfirst := hx s hs
  change match EStateM.bind x f s with
    | .ok a t => R a t
    | .error _ t => E t
  unfold EStateM.bind
  cases hrun : x s with
  | ok a t =>
    rw [hrun] at hfirst
    exact hf a t hfirst
  | error e t =>
    rw [hrun] at hfirst
    exact hfirst

/-- **Consequence.** -/
theorem Ensures.mono (h : Ensures P x Q E) (hpre : ∀ s, P' s → P s)
    (hpost : ∀ a s, Q a s → Q' a s) (herror : ∀ s, E s → E' s) : Ensures P' x Q' E' := by
  intro s hs
  have hend := h s (hpre s hs)
  split at hend
  · exact hpost _ _ hend
  · exact herror _ hend

/-- A part of the precondition that is not about the state is an assumption. -/
theorem ensures_assume {p : Prop} (h : p → Ensures P x Q E) :
    Ensures (fun s => p ∧ P s) x Q E := fun s hs => h hs.1 s hs.2

/-- A precondition that names a witness is told for each one. -/
theorem ensures_exists {ι : Sort*} {A : ι → σ → Prop} (h : ∀ i, Ensures (A i) x Q E) :
    Ensures (fun s => ∃ i, A i s) x Q E := by
  rintro s ⟨i, hs⟩
  exact h i s hs

/-- A second triple along a first one, told for each state that meets both preconditions. -/
theorem Ensures.along (h : Ensures P x Q E) (h' : ∀ s, P s → P' s → Ensures (fun t => t = s) x Q' fun _ => True) :
    Ensures (fun s => P s ∧ P' s) x (fun a s => Q a s ∧ Q' a s) E := by
  rintro s ⟨hs, hs'⟩
  have hfirst := h s hs
  have hsnd := h' s hs hs' s rfl
  cases hrun : x s with
  | ok a t =>
    rw [hrun] at hfirst hsnd
    exact ⟨hfirst, hsnd⟩
  | error e t =>
    rw [hrun] at hfirst
    exact hfirst

theorem Ensures.and (h : Ensures P x Q E) (h' : Ensures P' x Q' fun _ => True) :
    Ensures (fun s => P s ∧ P' s) x (fun a s => Q a s ∧ Q' a s) E :=
  h.along fun _ _ hs => h'.mono (fun _ ht => ht ▸ hs) (fun _ _ ht => ht) fun _ ht => ht

theorem ensures_get {G : σ → σ → Prop} (h : ∀ s, P s → G s s) :
    Ensures P (get : EStateM ε σ σ) G E := fun s hs => h s hs

variable {f : σ → EStateM ε σ β}

/-- After a read, the state is the value read. -/
theorem Ensures.getBind (h : ∀ v, Ensures (fun s => P s ∧ v = s) (f v) R E) :
    Ensures P (get >>= f) R E := (ensures_get fun _ hs => ⟨hs, rfl⟩).bind h

/-- Read the state, and tell the rest for each state of the precondition. -/
theorem ensures_read (h : ∀ s, P s → Ensures (fun t => t = s) (f s) R E) :
    Ensures P (get >>= f) R E := fun s hs => h s hs s rfl

/-- Read the state at the start of an action that is told for one state. -/
theorem ensures_getAt {s : σ} (h : Ensures (fun t => t = s) (f s) R E) :
    Ensures (fun t => t = s) (get >>= f) R E := ensures_read fun _ ht => ht ▸ h

theorem ensures_modify {f : σ → σ} {G : PUnit → σ → Prop} (h : ∀ s, P s → G ⟨⟩ (f s)) :
    Ensures P (modify f : EStateM ε σ PUnit) G E := fun s hs => h s hs

/-- A pure check changes nothing, whether it passes or not. -/
theorem ensures_ofExcept {x : Except ε α} (hok : ∀ a s, x = .ok a → P s → Q a s)
    (herror : ∀ s, P s → E s) : Ensures P (MonadExcept.ofExcept x : EStateM ε σ α) Q E := by
  intro s hs
  cases x with
  | ok a => exact hok a s rfl hs
  | error e => exact herror s hs

/-- An action on a component keeps what holds of the whole, told at the component. -/
theorem Ensures.zoom {get : τ → σ} {set : τ → σ → τ} {A B : τ → Prop} {C : α → τ → Prop}
    (h : ∀ t, A t → Ensures (fun s => s = get t) x (fun a s => C a (set t s)) fun s => B (set t s)) :
    Ensures A (zoom get set x) C B := by
  intro t ht
  have hend := h t ht (get t) rfl
  unfold CodingHarness.Library.zoom
  cases hrun : x (get t) with
  | ok a s | error e s =>
    rw [hrun] at hend
    exact hend

/-! ## Runs that end with a result -/

section Results

variable {f : α → EStateM ε σ β} {s t : σ} {a : α} {b : β}

/-- **Inversion of a sequence.** -/
theorem run_bind_ok : (x >>= f) s = .ok b t ↔ ∃ a u, x s = .ok a u ∧ f a u = .ok b t := by
  change EStateM.bind x f s = .ok b t ↔ _
  rw [EStateM.bind]
  cases x s with
  | ok a u =>
    constructor
    · intro h
      exact ⟨a, u, rfl, h⟩
    rintro ⟨a', u', heq, h⟩
    cases heq
    exact h
  | error e u =>
    constructor
    · exact fun h => nomatch h
    · exact fun ⟨_, _, heq, _⟩ => nomatch heq

theorem run_pure_ok {a' : α} (h : (pure a : EStateM ε σ α) s = .ok a' t) : a' = a ∧ t = s := by
  cases h
  exact ⟨rfl, rfl⟩

theorem run_get_bind {g : σ → EStateM ε σ β} : (get >>= g) s = g s s := rfl

theorem run_set_bind {u : σ} {g : PUnit → EStateM ε σ β} : (set u >>= g) s = g ⟨⟩ u := rfl

theorem run_modify_bind {g : σ → σ} {k : PUnit → EStateM ε σ β} : (modify g >>= k) s = k ⟨⟩ (g s) := rfl

theorem run_modify_ok {g : σ → σ} {b : PUnit} (h : (modify g : EStateM ε σ PUnit) s = .ok b t) : t = g s := by
  cases h
  rfl

end Results

/-! ## Postconditions of the error -/

/-- From a state of `P`, the action ends with a result in `Q`, or with an error and a state in `E`. -/
def Leads (P : σ → Prop) (x : EStateM ε σ α) (Q : α → σ → Prop) (E : ε → σ → Prop) : Prop := ∀ s, P s →
    match x s with
    | .ok a t => Q a t
    | .error e t => E e t

section Leads

variable {F F' : ε → σ → Prop}

theorem leads_pure {a : α} (h : ∀ s, P s → Q a s) : Leads P (pure a : EStateM ε σ α) Q F := fun s hs => h s hs

theorem leads_throw {e : ε} (h : ∀ s, P s → F e s) : Leads P (throw e : EStateM ε σ α) Q F := fun s hs => h s hs

/-- Reading the state before an action tells the action its state. -/
theorem leads_get_bind (h : ∀ a, Leads (fun s => s = a ∧ P s) (f a) R F) :
    Leads P (get >>= f) R F := fun s hs => h s s ⟨rfl, hs⟩

theorem leads_ite {c : Prop} [Decidable c] {y : EStateM ε σ α} (hthen : c → Leads P x Q F)
    (helse : ¬ c → Leads P y Q F) : Leads P (if c then x else y) Q F := by
  split
  · exact hthen ‹_›
  · exact helse ‹_›

variable {G : PUnit → σ → Prop}

theorem leads_set {t : σ} (h : ∀ s, P s → G ⟨⟩ t) : Leads P (set t : EStateM ε σ PUnit) G F := fun s hs => h s hs

theorem leads_modify {f : σ → σ} (h : ∀ s, P s → G ⟨⟩ (f s)) :
    Leads P (modify f : EStateM ε σ PUnit) G F := fun s hs => h s hs

/-- **Sequencing**, with the error of either action. -/
theorem Leads.bind {f : α → EStateM ε σ β} (hx : Leads P x Q F) (hf : ∀ a, Leads (Q a) (f a) R F) :
    Leads P (x >>= f) R F := by
  intro s hs
  have hfirst := hx s hs
  change match EStateM.bind x f s with
    | .ok a t => R a t
    | .error e t => F e t
  unfold EStateM.bind
  cases hrun : x s with
  | ok a t =>
    rw [hrun] at hfirst
    exact hf a t hfirst
  | error e t =>
    rw [hrun] at hfirst
    exact hfirst

theorem Leads.mono (h : Leads P x Q F) (hpre : ∀ s, P' s → P s)
    (hpost : ∀ a s, Q a s → Q' a s) (herror : ∀ e s, F e s → F' e s) : Leads P' x Q' F' := by
  intro s hs
  have hend := h s (hpre s hs)
  split at hend
  · exact hpost _ _ hend
  · exact herror _ _ hend

theorem leads_of_ok (h : ∀ s a t, P s → x s = .ok a t → Q a t) : Leads P x Q fun _ _ => True := by
  intro s hs
  cases hrun : x s with
  | ok a t => exact h s a t hs hrun
  | error e t => trivial

theorem Leads.and (h : Leads P x Q F) (h' : Leads P' x Q' F') :
    Leads (fun s => P s ∧ P' s) x (fun a t => Q a t ∧ Q' a t) fun e t => F e t ∧ F' e t := by
  intro s hs
  have hfirst := h s hs.1
  have hsnd := h' s hs.2
  cases hrun : x s with
  | ok a t | error e t =>
    rw [hrun] at hfirst hsnd
    exact ⟨hfirst, hsnd⟩

/-- **A loop with an invariant of the rounds so far.** -/
theorem leads_forM_along {ι : Type u} {I : List ι → σ → Prop} {f : ι → EStateM ε σ PUnit} (items : List ι)
    (h : ∀ done i rest, items = done ++ i :: rest → Leads (I done) (f i) (fun _ => I (done ++ [i])) F) :
    Leads (I []) (items.forM f) (fun _ => I items) F := by
  suffices hloop : ∀ rest done, items = done ++ rest →
      Leads (I done) (rest.forM f) (fun _ => I items) F from hloop items [] rfl
  intro rest
  induction rest with
  | nil =>
    rintro done rfl
    rw [List.append_nil]
    exact leads_pure fun s hs => hs
  | cons i rest ih =>
    intro done heq
    refine Leads.bind (h done i rest heq) fun _ => ih (done ++ [i]) ?_
    rw [heq, List.append_assoc]
    rfl

theorem leads_forM {ι : Type u} {items : List ι} {f : ι → EStateM ε σ PUnit}
    (h : ∀ i ∈ items, Leads P (f i) (fun _ => P) F) : Leads P (items.forM f) (fun _ => P) F := by
  induction items with
  | nil => exact leads_pure fun s hs => hs
  | cons i rest ih =>
    refine Leads.bind (h i List.mem_cons_self) fun _ => ih fun j hj => ?_
    exact h j (List.mem_cons_of_mem _ hj)

end Leads

end CodingHarness.Library
