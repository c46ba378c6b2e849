import CodingHarness.Durable.TerminalRecords

/-!
# What a callback stages

A call of a callback adds writes to the batch of its transaction and never takes one back. `Pushes`
says which writes each call may add, with what the call had checked, and `call_writes` that there are
no others. Two facts about whole callbacks follow: the staged tasks are the ones a replay of the task
writes leaves (`Mirrors`), and the owner of a staged conversation is a task that is stored or staged
(`OwnersKnown`).
-/

namespace CodingHarness.Durable

open Library Support Chord

namespace Transaction

/-! ## Calls -/

def Pushes (w : Work) : Call → StorageWrite → Prop
  | .createRootConversation, write => write = .conversation (some { id := 1 })
  | .createConversation, write => ∃ id, write = .conversation (some { id := id })
  | .createOwnedConversation owner, write =>
    ∃ id record, currentTask w owner = .ok (some record) ∧ write = .conversation
        (some { id := id, owner := some ⟨record.conversationId, owner⟩ })
  | .forkConversation parent at_, write =>
    (∃ id, write = .conversation (some { id := id, parent := some ⟨parent, at_⟩ })) ∨
      ∃ record source, write = .documentCopy (some record) source
  | .appendEntry .., write => ∃ record, write = .entry (some record)
  | .createTask .., write => ∃ record, write = .task (some record)
  | .setTask record, write => write = .task (some record)
  | _, _ => False

/-- The writes after some more of a kind were added. -/
def Adds (kind : StorageWrite → Prop) (before after : List StorageWrite) : Prop :=
  ∃ added, after = before ++ added ∧ ∀ write ∈ added, kind write

theorem Adds.refl (kind : StorageWrite → Prop) (writes : List StorageWrite) : Adds kind writes writes :=
  ⟨[], by simp, by simp⟩

/-- An action that stages no write. -/
def Quiet {α : Type} (x : WorkAction α) : Prop :=
  ∀ writes, Ensures (fun w => w.tx.writes = writes) x (fun _ w => w.tx.writes = writes)
    fun w => w.tx.writes = writes

section Quiet

variable {α β : Type}

theorem quiet_pure (a : α) : Quiet (pure a) := fun _ => ensures_pure fun _ h => h

theorem quiet_throw (e : Error) : Quiet (throw e : WorkAction α) := fun _ => ensures_throw fun _ h => h

theorem quiet_get : Quiet (get : WorkAction Work) := fun _ => ensures_get fun _ h => h

theorem quiet_check (x : Expected α) : Quiet (Session.check x : WorkAction α) :=
  fun _ => ensures_ofExcept (fun _ _ _ h => h) fun _ h => h

theorem Quiet.bind {x : WorkAction α} {f : α → WorkAction β} (hx : Quiet x)
    (hf : ∀ a, Quiet (f a)) : Quiet (x >>= f) :=
  fun writes => (hx writes).bind fun a => hf a writes

theorem quiet_onSession (x : SessionAction α) : Quiet (onSession x) := by
  intro writes w hw
  unfold onSession zoom
  cases x w.session with
  | ok a s | error e s => exact hw

theorem quiet_modify {f : Work → Work} (h : ∀ w, (f w).tx.writes = w.tx.writes) :
    Quiet (modify f : WorkAction PUnit) :=
  fun _ => ensures_modify fun w hw => (h w).trans hw

theorem quiet_acquire (definition : DocumentDefinition) (address : DocumentAddress)
    (initial : Value) : Quiet (acquire definition address initial) := by
  refine quiet_get.bind fun w => (quiet_check _).bind fun _ => quiet_get.bind fun w => ?_
  dsimp only
  split
  · exact quiet_pure _
  refine Quiet.bind ?_ fun loaded => ?_
  · unfold loadForDraft
    split
    · exact quiet_pure _
    · exact quiet_onSession _
  cases loaded with
  | some entry =>
    exact (quiet_check _).bind fun _ => (quiet_check _).bind fun _ => quiet_modify fun _ => rfl
  | none => exact (quiet_onSession _).bind fun _ => quiet_modify fun _ => rfl

theorem quiet_retireDoc (definition : DocumentDefinition) (address : DocumentAddress) :
    Quiet (retireDoc definition address) := by
  refine (quiet_check _).bind fun _ => quiet_get.bind fun w => ?_
  split
  · split
    · exact quiet_pure _
    · exact (quiet_check _).bind fun _ => quiet_modify fun _ => rfl
  refine quiet_get.bind fun w => (quiet_check _).bind fun _ =>
    (quiet_onSession _).bind fun loaded => ?_
  cases loaded with
  | none => exact quiet_pure _
  | some entry => exact (quiet_check _).bind fun _ => quiet_modify fun _ => rfl

end Quiet

variable {kind : StorageWrite → Prop}

theorem Quiet.bindPush {α : Type} {x : WorkAction α} (hx : Quiet x)
    {f : α → WorkAction Unit} {writes : List StorageWrite}
    (hf : ∀ a, Ensures (fun w => w.tx.writes = writes) (f a) (fun _ w => Adds kind writes w.tx.writes)
      fun w => Adds kind writes w.tx.writes) :
    Ensures (fun w => w.tx.writes = writes) (x >>= f) (fun _ w => Adds kind writes w.tx.writes)
      fun w => Adds kind writes w.tx.writes := by
  refine ((hx writes).mono (fun _ h => h) (fun _ _ h => h) ?_).bind hf
  intro w hw
  rw [hw]
  exact .refl kind writes

theorem ensures_push {writes added : List StorageWrite} (h : ∀ write ∈ added, kind write) :
    Ensures (fun w => w.tx.writes = writes) (push added) (fun _ w => Adds kind writes w.tx.writes)
      fun w => Adds kind writes w.tx.writes := by
  refine ensures_modify fun w hw => ⟨added, ?_, h⟩
  rw [← hw]

theorem copyWrites_documents (conversation : ConversationId) (copies : List Copy) :
    Ensures (fun _ => True) (copyWrites conversation copies)
      (fun writes _ => ∀ write ∈ writes, ∃ record source, write = .documentCopy (some record) source)
      fun _ => True := by
  induction copies with
  | nil => exact ensures_pure fun _ _ => by simp
  | cons copy rest ih =>
    refine Ensures.bind (Q := fun _ _ => True) ?_ fun id => ih.bind fun writes => ?_
    · intro s _
      split <;> trivial
    intro s hwrites write hwrite
    rcases List.mem_cons.1 hwrite with rfl | hwrite
    · exact ⟨_, _, rfl⟩
    · exact hwrites write hwrite

theorem forkConversation_writes (w₀ : Work) (parent : ConversationId) (at_ : EntryId) (writes : List StorageWrite) :
    Ensures (fun w => w.tx.writes = writes) (forkConversation parent at_)
      (fun _ w => Adds (Pushes w₀ (.forkConversation parent at_)) writes w.tx.writes)
      fun w => Adds (Pushes w₀ (.forkConversation parent at_)) writes w.tx.writes := by
  refine quiet_get.bindPush fun w => (quiet_check _).bindPush fun copies =>
    (quiet_onSession _).bindPush fun id => ?_
  -- The copies are staged together with the conversation.
  have hcopies : Ensures (fun w => w.tx.writes = writes) (onSession (copyWrites id copies))
      (fun added w => w.tx.writes = writes ∧
        ∀ write ∈ added, ∃ record source, write = .documentCopy (some record) source)
      fun w => Adds (Pushes w₀ (.forkConversation parent at_)) writes w.tx.writes := by
    refine Ensures.zoom fun t ht => ?_
    refine (copyWrites_documents id copies).mono (fun _ _ => trivial) ?_ ?_
    · intro added s hadded
      exact ⟨ht, hadded⟩
    intro s _
    rw [ht]
    exact .refl _ writes
  refine hcopies.bind fun added => ?_
  rintro w ⟨hw, hadded⟩
  refine ensures_push ?_ w hw
  intro write hwrite
  rcases List.mem_cons.1 hwrite with rfl | hwrite
  · exact Or.inl ⟨id, rfl⟩
  · exact Or.inr (hadded write hwrite)

/-- The task of an owner is looked up before the conversation is staged. -/
theorem createOwnedConversation_writes (w : Work) (owner : TaskId) :
    Ensures (fun u => u = w) (createOwnedConversation owner)
      (fun _ u => Adds (Pushes w (.createOwnedConversation owner)) w.tx.writes u.tx.writes)
      fun u => Adds (Pushes w (.createOwnedConversation owner)) w.tx.writes u.tx.writes := by
  have hsame : ∀ u, u = w → Adds (Pushes w (.createOwnedConversation owner)) w.tx.writes u.tx.writes := by
    rintro u rfl
    exact .refl _ _
  apply Ensures.getBind
  intro v
  apply (ensures_check fun _ hu => hsame _ hu.1).bind
  intro found
  apply (ensures_check fun _ hu => hsame _ hu.2.1).bind
  intro record
  rintro u ⟨hrec, hfound, rfl, rfl⟩
  have hcur : currentTask v owner = .ok (some record) := by
    rw [hfound, present_eq_ok.1 hrec]
  refine (quiet_onSession Session.mintId).bindPush (fun id => ensures_push ?_) v rfl
  intro write hwrite
  exact ⟨id, record, hcur, List.mem_singleton.1 hwrite⟩

/-- **What one call stages.** -/
theorem call_writes (w : Work) (c : Call) : Adds (Pushes w c) w.tx.writes (endState (call c) w).tx.writes := by
  have hquiet : ∀ {c : Call}, Quiet (call c) → Adds (Pushes w c) w.tx.writes (endState (call c) w).tx.writes := by
    intro c h
    have hend : (endState (call c) w).tx.writes = w.tx.writes := (h w.tx.writes).endState rfl
    rw [hend]
    exact .refl _ _
  have hpush : ∀ {c : Call}, Ensures (fun u => u.tx.writes = w.tx.writes) (call c)
      (fun _ u => Adds (Pushes w c) w.tx.writes u.tx.writes)
      (fun u => Adds (Pushes w c) w.tx.writes u.tx.writes) →
      Adds (Pushes w c) w.tx.writes (endState (call c) w).tx.writes :=
    fun h => h.endState rfl
  cases c with
  | createRootConversation => exact hpush (ensures_push (by simp [Pushes]))
  | createConversation =>
    refine hpush ((quiet_onSession _).bindPush fun id => ensures_push ?_)
    intro write hwrite
    exact ⟨id, List.mem_singleton.1 hwrite⟩
  | createOwnedConversation owner => exact (createOwnedConversation_writes w owner).endState rfl
  | forkConversation parent at_ => exact hpush (forkConversation_writes w parent at_ w.tx.writes)
  | appendEntry conversationId kind data head model byTaskId edits =>
    refine hpush ((quiet_onSession _).bindPush fun id => ensures_push ?_)
    intro write hwrite
    exact ⟨_, List.mem_singleton.1 hwrite⟩
  | doc definition address =>
    refine hquiet ((quiet_check _).bind fun _ => ?_)
    split
    · exact quiet_throw _
    · exact quiet_acquire definition address _
  | docFrom definition address seed =>
    refine hquiet ((quiet_check _).bind fun _ => ?_)
    split
    · exact quiet_acquire definition address _
    · exact quiet_throw _
  | draft index op | settleSubmission id settlement | placeSubmission id entry =>
    exact hquiet (quiet_modify fun _ => rfl)
  | retireDoc definition address => exact hquiet (quiet_retireDoc definition address)
  | createTask definition input options =>
    refine hpush (quiet_get.bindPush fun v => (quiet_check _).bindPush fun owner =>
      (quiet_onSession _).bindPush fun id => ensures_modify fun u hu => ?_)
    refine ⟨_, congrArg (· ++ _) hu, fun write hwrite => ?_⟩
    exact ⟨_, List.mem_singleton.1 hwrite⟩
  | setTask record =>
    refine hpush (ensures_modify fun u hu => ?_)
    exact ⟨_, congrArg (· ++ _) hu, fun write hwrite => List.mem_singleton.1 hwrite⟩
  | createSubmission record =>
    exact hquiet (quiet_get.bind fun _ => (quiet_check _).bind fun _ =>
      (quiet_onSession _).bind fun _ => quiet_modify fun _ => rfl)
  | session sessionCall => exact hquiet (quiet_onSession _)

end Transaction

/-! ## Staged tasks -/

open StorageState (insertTask)

/-- The staged tasks are what a replay of the staged task writes leaves. -/
def Mirrors (w : Work) : Prop := w.tx.stagedTasks = w.tx.writes.foldl insertTask .empty

variable {write : StorageWrite}

theorem IsOther.insertTask_eq (h : IsOther write)
    (tasks : OrdMap TaskId TaskRecord) : insertTask tasks write = tasks := by
  cases write with
  | task record =>
    cases record with
    | none => rfl
    | some record => exact absurd rfl (h.1 record)
  | _ => rfl

theorem foldl_insertTask_other {writes : List StorageWrite} (h : ∀ write ∈ writes, IsOther write)
    (tasks : OrdMap TaskId TaskRecord) : writes.foldl insertTask tasks = tasks := by
  induction writes generalizing tasks with
  | nil => rfl
  | cons write rest ih =>
    rw [List.foldl_cons, (h write List.mem_cons_self).insertTask_eq]
    exact ih (fun other hother => h other (List.mem_cons_of_mem _ hother)) tasks

variable {w : Work} {w' : Work}

theorem Effect.mirrors (hw : Effect w w') (h : Mirrors w) : Mirrors w' := by
  unfold Mirrors at h ⊢
  cases hw with
  | record write hwrite =>
    rw [List.foldl_append, ← h, foldl_insertTask_other]
    intro other hother
    rw [List.mem_singleton.1 hother]
    exact hwrite.other
  | fork writes count hwrites =>
    rw [List.foldl_append, ← h, foldl_insertTask_other]
    exact fun write hwrite => (hwrites write hwrite).other
  | setTask task | createTask task hid =>
    show w.tx.stagedTasks.insert _ _ = (w.tx.writes ++ [_]).foldl insertTask .empty
    rw [List.foldl_append, ← h]
    rfl
  | _ => exact h

theorem mirrors_calls (s : Session) (list : List Transaction.Call) : Mirrors (Transaction.calls ⟨s, {}⟩ list) :=
  (effects_calls _ list).invariant (fun _ _ heffect hmir => heffect.mirrors hmir) rfl

theorem find_foldl_insertTask_or (writes : List StorageWrite) (tasks : OrdMap TaskId TaskRecord) (id : TaskId) :
    (writes.foldl insertTask tasks).find id = ((writes.foldl insertTask .empty).find id).or (tasks.find id) := by
  induction writes using List.reverseRecOn with
  | nil => rfl
  | append_singleton rest write ih =>
    rw [List.foldl_append, List.foldl_append, List.foldl_cons, List.foldl_cons, List.foldl_nil, List.foldl_nil]
    cases write with
    | task record =>
      cases record with
      | none => exact ih
      | some record =>
        rw [insertTask, insertTask, OrdMap.find_insert, OrdMap.find_insert]
        split
        · rfl
        · exact ih
    | _ => exact ih

/-! ## Owners of staged conversations -/

/-- The owner of every staged conversation is a staged or a stored task. -/
def OwnersKnown (w : Work) : Prop := ∀ owner ∈ w.tx.writes.filterMap Transaction.conversationOwner,
    w.tx.stagedTasks.contains owner = true ∨ w.session.storage.tasks.contains owner = true

theorem Effect.keepsTasks (h : Effect w w') (id : TaskId) :
    (w.tx.stagedTasks.contains id = true → w'.tx.stagedTasks.contains id = true) ∧
      w'.session.storage.tasks = w.session.storage.tasks := by
  obtain ⟨count, hstor⟩ := h.storage
  refine ⟨fun hstaged => ?_, by rw [hstor]; rfl⟩
  cases h with
  | setTask task | createTask task hid =>
    show (w.tx.stagedTasks.insert task.id task).contains id = true
    rw [OrdMap.contains_insert, hstaged, Bool.or_true]
  | _ => exact hstaged

theorem Effects.keepsTasks (h : Effects w w') (id : TaskId) :
    (w.tx.stagedTasks.contains id = true → w'.tx.stagedTasks.contains id = true) ∧
      w'.session.storage.tasks = w.session.storage.tasks := by
  induction h with
  | refl => exact ⟨fun hstaged => hstaged, rfl⟩
  | tail _ hlast ih =>
    obtain ⟨hgrow, hstored⟩ := Effect.keepsTasks hlast id
    exact ⟨fun hstaged => hgrow (ih.1 hstaged), hstored.trans ih.2⟩

/-- A conversation with an owner comes from the call that looked the owner up. -/
theorem Transaction.Pushes.owner {c : Transaction.Call} {owner : TaskId} (h : Transaction.Pushes w c write)
    (howner : Transaction.conversationOwner write = some owner) :
    ∃ record, Transaction.currentTask w owner = .ok (some record) := by
  cases c with
  | createOwnedConversation task =>
    obtain ⟨id, record, hcur, rfl⟩ := h
    simp only [Transaction.conversationOwner, Option.map_some, Option.some.injEq] at howner
    rw [← howner]
    exact ⟨record, hcur⟩
  | createRootConversation | setTask record =>
    rw [show write = _ from h] at howner
    simp [Transaction.conversationOwner] at howner
  | createConversation =>
    obtain ⟨id, rfl⟩ := h
    simp [Transaction.conversationOwner] at howner
  | forkConversation parent at_ =>
    rcases h with ⟨id, rfl⟩ | ⟨record, source, rfl⟩
    · simp [Transaction.conversationOwner] at howner
    · simp [Transaction.conversationOwner] at howner
  | appendEntry | createTask =>
    obtain ⟨record, rfl⟩ := h
    simp [Transaction.conversationOwner] at howner
  | _ => exact h.elim

theorem currentTask_known {id : TaskId} {record : TaskRecord} (h : Transaction.currentTask w id = .ok (some record)) :
    (w.tx.stagedTasks.find id).or (w.session.storage.tasks.find id) = some record := by
  unfold Transaction.currentTask at h
  split at h
  · rename_i staged hstaged
    cases h
    rw [hstaged]
    rfl
  rename_i hnone
  simp only [StorageState.task, StorageState.reading] at h
  split at h
  · cases h
  · rw [hnone]
    exact Except.ok.inj h

theorem ownersKnown_call (h : OwnersKnown w) (c : Transaction.Call) :
    OwnersKnown (endState (Transaction.call c) w) := by
  intro owner hmem
  have hkeeps := (effects_call w c).keepsTasks owner
  obtain ⟨added, hwrites, hadded⟩ := Transaction.call_writes w c
  have hknown : w.tx.stagedTasks.contains owner = true ∨ w.session.storage.tasks.contains owner = true := by
    rw [hwrites, List.filterMap_append, List.mem_append] at hmem
    rcases hmem with hmem | hmem
    · exact h owner hmem
    obtain ⟨write, hwrite, howner⟩ := List.mem_filterMap.1 hmem
    obtain ⟨record, hrec⟩ := (hadded write hwrite).owner howner
    have hfound := currentTask_known hrec
    rcases Option.or_eq_some_iff.1 hfound with hstaged | ⟨-, hstored⟩
    · exact Or.inl ((OrdMap.contains_eq_true_iff _ _).2 ⟨record, hstaged⟩)
    · exact Or.inr ((OrdMap.contains_eq_true_iff _ _).2 ⟨record, hstored⟩)
  rcases hknown with hknown | hknown
  · exact Or.inl (hkeeps.1 hknown)
  · rw [hkeeps.2]
    exact Or.inr hknown

theorem ownersKnown_calls (h : OwnersKnown w) (list : List Transaction.Call) :
    OwnersKnown (Transaction.calls w list) := by
  induction list generalizing w with
  | nil => exact h
  | cons c rest ih => exact ih (ownersKnown_call h c)

end CodingHarness.Durable
