import CodingHarness.Durable.SessionCommit
import Mathlib.Logic.Relation

/-!
# What a callback does

Every call of a callback is a chain of `Effect`s (`effects_calls`): it mints identities, loads or
drops cache entries, moves watches and stages writes. A staged record that needs a fresh identity is
staged by one effect together with its mint, so that its identity is above everything the
transaction knew before. Invariants of a transaction are proved once for each effect.
-/

namespace CodingHarness.Durable

open Library Support Chord

/-! ## Effects -/

def Session.advanced (s : Session) (count : Nat) : Session :=
  { s with storage := { s.storage with nextId := s.storage.nextId + count } }

theorem Session.advanced_advanced (s : Session) (m n : Nat) : (s.advanced m).advanced n = s.advanced (m + n) := by
  simp only [Session.advanced]
  push_cast
  rw [add_assoc]

def Work.advanced (w : Work) (count : Nat) : Work := { w with session := w.session.advanced count }

abbrev Work.minted (w : Work) : Work := w.advanced 1

/-- A write that creates a conversation or an entry. -/
def IsRecord : StorageWrite → Prop
  | .conversation _ | .entry _ => True
  | _ => False

/-- A copy write, with the identity of the copied incarnation. -/
def copiedId : StorageWrite → Option DocumentId
  | .documentCopy record _ => record.map DocumentRecord.id
  | _ => none

/-- A write of a fork whose identities lie in `[low, high)`: the conversation, or the copy of a
document of another conversation. -/
def IsForkWrite (low high : Int) (write : StorageWrite) : Prop :=
  IsRecord write ∨ ∃ record source, write = .documentCopy (some record) (some source) ∧
    low ≤ record.id ∧ record.id < high ∧ record.retiredAt = none

/-- The transaction after a task is created. -/
def Transaction.withTask (tx : Transaction) (record : TaskRecord) : Transaction := { tx with
    writes := tx.writes ++ [.task (some record)]
    stagedTasks := tx.stagedTasks.insert record.id record }

/-- The transaction after a document is staged. -/
def Transaction.withDocument (tx : Transaction) (document : StagedDocument) : Transaction := { tx with
    documents := tx.documents ++ [document]
    latestDocuments := tx.latestDocuments.insert document.key tx.documents.length }

/-- A cached entry that serves a definition at an address. -/
def Serves (s : Session) (definition : DocumentDefinition) (address : DocumentAddress)
    (entry : CachedDocument) : Prop :=
  s.cached.find (documentAddressKey definition.kind address) = some entry ∧ entry.valueVersion = definition.version

/-- The staged retirement of a loaded incarnation. -/
def stagedRetirement (definition : DocumentDefinition) (address : DocumentAddress)
    (entry : CachedDocument) : StagedDocument where
  record := entry.record
  address := address
  kind := definition.kind
  change := none
  storedVersion := entry.storedVersion
  deltasSinceBase := entry.deltasSinceBase
  retire := true
  definitionVersion := definition.version
  checkpoint := definition.checkpoint

/-- One change of a callback whose changes of submissions are all `allowed`. -/
inductive EffectOf (allowed : SubmissionChange → Prop) (w : Work) : Work → Prop where
  | mint : EffectOf allowed w w.minted
  | evict (key : Bytes) :
      EffectOf allowed w { w with session := { w.session with cached := w.session.cached.erase key } }
  | load (definition : DocumentDefinition) (address : DocumentAddress) (entry : CachedDocument)
      (hread : Session.readDocument w.session.storage definition address = .ok (some entry)) :
      EffectOf allowed w { w with session := { w.session with
        cached := w.session.cached.insert (documentAddressKey definition.kind address) entry } }
  | watch (watches : OrdMap Bytes (List Nat)) (handles : List DocumentWatch) :
      EffectOf allowed w { w with session := { w.session with watches := watches, handles := handles } }
  | record (write : StorageWrite) (hwrite : IsRecord write) :
      EffectOf allowed w { w with tx := { w.tx with writes := w.tx.writes ++ [write] } }
  | fork (writes : List StorageWrite) (count : Nat)
      (hwrites : ∀ write ∈ writes, IsForkWrite w.session.storage.nextId (w.session.storage.nextId + count) write) :
      EffectOf allowed w { w.advanced count with tx := { w.tx with writes := w.tx.writes ++ writes } }
  | createTask (task : TaskRecord) (hid : task.id = w.session.storage.nextId) :
      EffectOf allowed w
        { w.minted with tx := { w.tx.withTask task with
            createdTasks := w.tx.createdTasks.insert task.id () } }
  | setTask (task : TaskRecord) : EffectOf allowed w { w with tx := w.tx.withTask task }
  | createSubmission (submission : SubmissionRecord)
      (hid : submission.id = w.session.storage.nextId) :
      EffectOf allowed w
        { w.minted with tx := { w.tx with
            stagedSubmissions := w.tx.stagedSubmissions.emplace submission.id submission } }
  | changeSubmission (change : SubmissionChange) (hallowed : allowed change) :
      EffectOf allowed w
        { w with tx := { w.tx with submissionChanges := w.tx.submissionChanges ++ [change] } }
  | draft (index : Nat) (op : DraftOp) :
      EffectOf allowed w
        { w with tx := { w.tx with documents := w.tx.documents.modify index fun document =>
            { document with change := document.change.map fun change => change.perform op } } }
  | acquireLoaded (definition : DocumentDefinition) (address : DocumentAddress)
      (entry : CachedDocument) (hserves : Serves w.session definition address entry)
      (hversion : checkRecordVersion definition entry.record entry.storedVersion = .ok ())
      (hlatest : ∀ staged ∈ w.tx.latest (documentAddressKey definition.kind address),
        staged.retire = false ∧ staged.change = none) :
      EffectOf allowed w { w with tx := w.tx.withDocument (Transaction.stagedDraft definition address
        entry.record entry.value false entry.storedVersion entry.deltasSinceBase) }
  | acquireCreated (definition : DocumentDefinition) (address : DocumentAddress) (initial : Value) :
      EffectOf allowed w
        { w.minted with tx := w.tx.withDocument (Transaction.stagedDraft definition address
            (definition.documentCreateRecord address w.session.storage.nextId) initial.1 true
            definition.version 0) }
  | markRetired (index : Nat) (document : StagedDocument)
      (hdocument : w.tx.documents[index]? = some document) (hretire : document.retire = false) :
      EffectOf allowed w
        { w with tx := { w.tx with
            documents := w.tx.documents.set index { document with retire := true }
            latestDocuments := w.tx.latestDocuments.insert document.key index } }
  | retireLoaded (definition : DocumentDefinition) (address : DocumentAddress)
      (entry : CachedDocument) (hserves : Serves w.session definition address entry) :
      EffectOf allowed w { w with tx := w.tx.withDocument (stagedRetirement definition address entry) }

abbrev EffectsOf (allowed : SubmissionChange → Prop) : Work → Work → Prop := Relation.ReflTransGen (EffectOf allowed)

/-- One change of a callback. -/
abbrev Effect : Work → Work → Prop := EffectOf fun _ => True

abbrev Effects : Work → Work → Prop := EffectsOf fun _ => True

variable {w w' : Work}

/-- **Invariant rule of a callback.** -/
theorem Effects.invariant {P : Work → Prop} (hstep : ∀ w w', Effect w w' → P w → P w')
    (h : Effects w w') (hstart : P w) : P w' := by
  induction h with
  | refl => exact hstart
  | tail _ hlast ih => exact hstep _ _ hlast ih

/-! ## Calls are chains of effects -/

variable {definition : DocumentDefinition} {address : DocumentAddress} {entry : CachedDocument}

theorem Session.readDocument_eq_ok {storage : StorageState}
    (h : Session.readDocument storage definition address = .ok (some entry)) :
    ∃ record committed value, storage.findDocument definition.kind address none = .ok (some record) ∧
      storage.document record.id none = .ok (some committed) ∧
      materializeDocument definition committed.record committed.version committed.value = .ok value ∧
      entry = ⟨committed.record, value, definition.version, committed.version, committed.deltasSinceBase⟩ := by
  simp only [Session.readDocument, bind_eq_ok] at h
  obtain ⟨found, hfound, h⟩ := h
  cases found with
  | none => simp at h
  | some record =>
    simp only [bind_eq_ok, pure_eq_ok, Option.some.injEq] at h
    obtain ⟨committed, hcommit, value, hvalue, rfl⟩ := h
    refine ⟨record, committed, value, hfound, ?_, hvalue, rfl⟩
    simp only [Session.readCurrent, bind_eq_ok] at hcommit
    obtain ⟨stored, hstored, hread⟩ := hcommit
    cases stored with
    | none => cases hread
    | some content =>
      cases hread
      exact hstored

theorem Session.valueVersion_of_read {storage : StorageState}
    (h : Session.readDocument storage definition address = .ok (some entry)) :
    entry.valueVersion = definition.version := by
  obtain ⟨record, committed, value, -, -, -, rfl⟩ := Session.readDocument_eq_ok h
  rfl

/-- What every call on a Session besides its commits keeps. -/
structure Session.Kept (P : Session → Prop) : Prop where
  evict : ∀ s key, P s → P { s with cached := s.cached.erase key }
  load : ∀ s definition address entry, Session.readDocument s.storage definition address = .ok (some entry) → P s →
      P { s with cached := s.cached.insert (documentAddressKey definition.kind address) entry }
  watch : ∀ s watches handles, P s → P { s with watches := watches, handles := handles }

namespace Session

variable {P : Session → Prop}

theorem Kept.ensures_loadDocument (h : Kept P) (definition : DocumentDefinition) (address : DocumentAddress) :
    Ensures P (loadDocument definition address)
      (fun found s => P s ∧ ∀ entry ∈ found, Serves s definition address entry) P := by
  apply Ensures.bind (ensures_get (G := fun s s' => s = s' ∧ P s') fun s hs => ⟨rfl, hs⟩)
  intro s
  dsimp only
  split
  · rename_i hcached
    rintro s' ⟨rfl, hP⟩
    refine ⟨hP, fun entry hentry => ?_⟩
    rw [hentry] at hcached
    exact ⟨hentry, by simpa using hcached⟩
  refine Ensures.bind (ensures_modify (G := fun _ => P) ?_) ?_
  · rintro s' ⟨rfl, hs⟩
    exact h.evict _ _ hs
  intro _
  apply Ensures.bind (ensures_get (G := fun s s' => s = s' ∧ P s') fun s hs => ⟨rfl, hs⟩)
  intro s
  refine Ensures.bind (ensures_ofExcept (Q := fun found s' =>
    readDocument s.storage definition address = .ok found ∧ s = s' ∧ P s')
    (fun _ _ hread hs => ⟨hread, hs⟩) fun _ hs => hs.2) fun found => ?_
  cases found with
  | none => exact ensures_pure fun s' hs => ⟨hs.2.2, by simp⟩
  | some entry =>
    refine Ensures.bind (ensures_modify (G := fun _ s' => P s' ∧
      s'.cached.find (documentAddressKey definition.kind address) = some entry ∧
      readDocument s.storage definition address = .ok (some entry)) ?_) ?_
    · rintro s' ⟨hread, rfl, hs⟩
      refine ⟨h.load s definition address entry hread hs, ?_, hread⟩
      simp
    intro _
    rintro s' ⟨hs, hfind, hread⟩
    refine ⟨hs, ?_⟩
    rintro _ ⟨⟩
    exact ⟨hfind, valueVersion_of_read hread⟩

theorem Kept.ensures_watchDoc (h : Kept P) (definition : DocumentDefinition) (address : DocumentAddress) :
    Ensures P (watchDoc definition address) (fun _ => P) P := by
  refine (h.ensures_loadDocument definition address).bind fun found => ?_
  cases found with
  | none => exact ensures_pure fun _ hs => hs.1
  | some entry => exact ensures_modify fun s hs => h.watch s _ _ hs.1

theorem Kept.ensures_onWatch (h : Kept P) (index : Nat) (x : EStateM Error DocumentWatch Unit) :
    Ensures P (onWatch index x) (fun _ => P) P := by
  intro s hs
  unfold onWatch
  cases hhandle : s.handles[index]? with
  | none => exact hs
  | some watch =>
    cases hrun : x watch with
    | ok a updated | error e updated => simpa [hrun] using h.watch s s.watches _ hs

/-- Every call on a Session keeps what loads, evictions and watches keep. -/
theorem Kept.ensures_call (h : Kept P) (c : Call) : Ensures P (call c) (fun _ => P) P := by
  cases c with
  | snapshot definition address =>
    apply Ensures.bind (ensures_get (G := fun _ => P) fun s hs => hs)
    intro s
    split
    · exact ensures_throw fun _ hs => hs
    · exact (h.ensures_loadDocument definition address).bind fun _ =>
        ensures_pure fun _ hs => hs.1
  | watchDoc definition address =>
    apply Ensures.bind (ensures_get (G := fun _ => P) fun s hs => hs)
    intro s
    split
    · exact ensures_throw fun _ hs => hs
    · exact h.ensures_watchDoc definition address
  | start watch => exact h.ensures_onWatch watch _
  | stop watch => exact h.ensures_onWatch watch (modify DocumentWatch.stop)
  | cancel watch =>
    exact h.ensures_onWatch watch (modify fun watch => { watch with cancelled := true })

end Session

section Chains

variable {allowed : SubmissionChange → Prop} {w₀ : Work}

/-- The effects of a callback include those of every call on its Session. -/
theorem kept_effects (allowed : SubmissionChange → Prop) (w₀ : Work) (tx : Transaction) :
    Session.Kept fun s => EffectsOf allowed w₀ { session := s, tx := tx } where
  evict _ key hs := hs.tail (.evict key)
  load _ definition address entry hread hs := hs.tail (.load definition address entry hread)
  watch _ watches handles hs := hs.tail (.watch watches handles)

/-- An action that only adds effects to a chain. -/
def Chains {α : Type} (allowed : SubmissionChange → Prop) (w₀ : Work) (x : WorkAction α) : Prop :=
  Ensures (EffectsOf allowed w₀) x (fun _ => EffectsOf allowed w₀) (EffectsOf allowed w₀)

variable {P E : Work → Prop}

theorem ensures_check {α : Type} {x : Expected α} (hE : ∀ w, P w → E w):
    Ensures P (Session.check x : WorkAction α) (fun a w => x = .ok a ∧ P w) E :=
  ensures_ofExcept (fun _ _ hx hw => ⟨hx, hw⟩) hE

theorem ensures_mint (hE : ∀ w, P w → E w) : Ensures P (onSession Session.mintId)
      (fun id w => ∃ u, P u ∧ id = u.session.storage.nextId ∧ w = u.minted) E := by
  intro w hw
  unfold onSession zoom Session.mintId
  cases hclosed : w.session.storage.closed with
  | true => simpa [hclosed] using hE w hw
  | false => simpa [hclosed] using ⟨w, hw, rfl, rfl⟩

/-- A load leaves the transaction alone, and what it returns serves the definition from the cache. -/
theorem ensures_load (allowed : SubmissionChange → Prop) (w₀ : Work) {T : Transaction → Prop} (definition : DocumentDefinition)
    (address : DocumentAddress) :
    Ensures (fun w => EffectsOf allowed w₀ w ∧ T w.tx) (onSession (Session.loadDocument definition address))
      (fun found w => (EffectsOf allowed w₀ w ∧ T w.tx) ∧
        ∀ entry ∈ found, Serves w.session definition address entry) (EffectsOf allowed w₀) := by
  refine Ensures.zoom fun t ht => ?_
  have hload := (kept_effects allowed w₀ t.tx).ensures_loadDocument definition address
  refine hload.mono ?_ ?_ fun _ h => h
  · rintro _ rfl
    exact ht.1
  · rintro found s ⟨hs, hserves⟩
    exact ⟨⟨hs, ht.2⟩, hserves⟩

theorem ensures_effect {f : Work → Work} (h : ∀ w, P w → ∃ u, EffectsOf allowed w₀ u ∧ EffectOf allowed u (f w)):
    Ensures P (modify f : WorkAction PUnit) (fun _ => EffectsOf allowed w₀) (EffectsOf allowed w₀) :=
  ensures_modify fun w hw =>
    have ⟨_, hchain, heffect⟩ := h w hw
    hchain.tail heffect

/-- A check whose result nothing depends on. -/
theorem ensures_checked {α : Type} {x : Expected α} (hP : ∀ w, P w → EffectsOf allowed w₀ w) :
    Ensures P (Session.check x : WorkAction α) (fun _ => EffectsOf allowed w₀) (EffectsOf allowed w₀) :=
  ensures_ofExcept (fun _ _ _ => hP _) hP

theorem ensures_pushMinted (write : Int → StorageWrite) (hwrite : ∀ id, IsRecord (write id)) (id : Int) :
    Ensures (fun w => ∃ u, EffectsOf allowed w₀ u ∧ id = u.session.storage.nextId ∧ w = u.minted)
      (Transaction.push [write id]) (fun _ => EffectsOf allowed w₀) (EffectsOf allowed w₀) := by
  apply ensures_effect
  rintro w ⟨u, hu, -, rfl⟩
  exact ⟨u.minted, hu.tail .mint, .record _ (hwrite id)⟩

theorem chains_createConversation : Chains allowed w₀ Transaction.createConversation :=
  (ensures_mint fun _ hw => hw).bind fun id =>
    ensures_pushMinted (fun id => .conversation (some { id := id })) (fun _ => trivial) id

theorem chains_createOwnedConversation (owner : TaskId) : Chains allowed w₀ (Transaction.createOwnedConversation owner) := by
  apply Ensures.getBind
  intro v
  apply (ensures_check fun _ hw => hw.1).bind
  intro found
  apply (ensures_check fun _ hw => hw.2.1).bind
  intro record
  have hmint := ensures_mint (P := fun w => EffectsOf allowed w₀ w) (E := EffectsOf allowed w₀) fun _ hw => hw
  refine (hmint.mono (fun _ hw => hw.2.2.1) (fun _ _ h => h) fun _ h => h).bind fun id => ?_
  exact ensures_pushMinted (fun id => .conversation
    (some { id := id, owner := some ⟨record.conversationId, owner⟩ })) (fun _ => trivial) id

theorem chains_appendEntry (conversationId : ConversationId) (kind : Bytes) (data : Json)
    (head : Option EntryHead) (model : List Json) (byTaskId : Option TaskId) (edits : List ContextEdit) : Chains allowed w₀
      (Transaction.appendEntry conversationId kind data head model byTaskId edits) := by
  apply (ensures_mint fun _ hw => hw).bind
  intro id
  exact ensures_pushMinted (fun id => .entry (some ⟨id, conversationId, kind, data, _, model, edits, byTaskId⟩))
    (fun _ => trivial) id

/-- The copies of a fork take the identities after the ones minted before. -/
theorem ensures_copyWrites (conversation : ConversationId) (copies : List Transaction.Copy)
    (s : Session) (low : Int) (hlow : low ≤ s.storage.nextId) :
    Ensures (fun s' => s' = s) (Transaction.copyWrites conversation copies)
      (fun writes s' => s' = s.advanced copies.length ∧
        ∀ write ∈ writes, IsForkWrite low (s.storage.nextId + copies.length) write)
      (fun s' => ∃ count, s' = s.advanced count) := by
  induction copies generalizing s with
  | nil =>
    apply ensures_pure
    simp [Session.advanced]
  | cons copy rest ih =>
    have hmint : Ensures (fun s' => s' = s) Session.mintId (fun id s' => id = s.storage.nextId ∧ s' = s.advanced 1)
        (fun s' => ∃ count, s' = s.advanced count) := by
      intro s' hs
      subst hs
      unfold Session.mintId
      cases hclosed : s'.storage.closed with
      | true => simpa [hclosed] using ⟨0, by simp [Session.advanced]⟩
      | false => simpa [hclosed] using ⟨rfl, rfl⟩
    apply hmint.bind
    intro id
    apply ensures_assume
    rintro rfl
    have hnext : (s.advanced 1).storage.nextId = s.storage.nextId + 1 := rfl
    have hcount : (s.advanced 1).storage.nextId + (rest.length : Int)
        = s.storage.nextId + ((copy :: rest).length : Int) := by
      rw [hnext, List.length_cons]
      push_cast
      ring
    refine ((ih (s.advanced 1) (by omega)).mono (fun _ h => h) (fun _ _ h => h) ?_).bind ?_
    · rintro _ ⟨count, rfl⟩
      exact ⟨1 + count, Session.advanced_advanced s 1 count⟩
    intro writes
    rintro _ ⟨rfl, hwrites⟩
    refine ⟨?_, ?_⟩
    · rw [Session.advanced_advanced, List.length_cons, Nat.add_comm]
    intro write hwrite
    rcases List.mem_cons.1 hwrite with rfl | hwrite
    · refine Or.inr ⟨_, _, rfl, hlow, ?_, rfl⟩
      change s.storage.nextId < _
      omega
    · rw [← hcount]
      exact hwrites write hwrite

theorem chains_forkConversation (parent : ConversationId) (at_ : EntryId) :
    Chains allowed w₀ (Transaction.forkConversation parent at_) := by
  apply Ensures.getBind
  intro v
  apply (ensures_check fun _ hw => hw.1).bind
  intro copies
  have hmint := ensures_mint (P := fun w => EffectsOf allowed w₀ w) (E := EffectsOf allowed w₀) fun _ hw => hw
  refine (hmint.mono (fun _ hw => hw.2.1) (fun _ _ h => h) fun _ h => h).bind fun id => ?_
  -- the copies run after the mint of the conversation
  have hcopies : Ensures (fun w => ∃ u, EffectsOf allowed w₀ u ∧ id = u.session.storage.nextId ∧ w = u.minted)
      (onSession (Transaction.copyWrites id copies))
      (fun writes w => ∃ u, EffectsOf allowed w₀ u ∧ w = u.advanced (1 + copies.length) ∧
        ∀ write ∈ writes, IsForkWrite u.session.storage.nextId
          (u.session.storage.nextId + (1 + copies.length : Nat)) write) (EffectsOf allowed w₀) := by
    apply Ensures.zoom
    rintro _ ⟨u, hu, -, rfl⟩
    have hnext : u.minted.session.storage.nextId = u.session.storage.nextId + 1 := rfl
    refine (ensures_copyWrites id copies u.minted.session u.session.storage.nextId
      (by omega)).mono (fun _ h => h) ?_ ?_
    · rintro writes _ ⟨rfl, hwrites⟩
      refine ⟨u, hu, ?_, fun write hwrite => ?_⟩
      · rw [Work.advanced, ← Session.advanced_advanced]
        rfl
      have hcount : u.minted.session.storage.nextId + (copies.length : Int)
          = u.session.storage.nextId + (1 + copies.length : Nat) := by
        rw [hnext]
        push_cast
        ring
      rw [← hcount]
      exact hwrites write hwrite
    rintro _ ⟨count, rfl⟩
    have hfork : EffectOf allowed u.minted _ := .fork [] count (by simp)
    rw [List.append_nil] at hfork
    exact (hu.tail .mint).tail hfork
  refine hcopies.bind fun writes => ensures_effect ?_
  rintro w ⟨u, hu, rfl, hwrites⟩
  refine ⟨u, hu, .fork (_ :: writes) (1 + copies.length) fun write hwrite => ?_⟩
  rcases List.mem_cons.1 hwrite with rfl | hwrite
  · exact Or.inl trivial
  · exact hwrites write hwrite

/-- What an acquisition knows about the staged documents of its address. -/
theorem latest_of_loading {latest : Option StagedDocument}
    (hopen : ¬ (latest.any fun staged => !staged.retire && staged.change.isSome) = true)
    (hret : latest.any StagedDocument.retire = false) :
    ∀ staged ∈ latest, staged.retire = false ∧ staged.change = none := by
  rintro staged rfl
  simp only [Option.any_some] at hopen hret
  simpa [hret] using hopen

theorem chains_acquire (definition : DocumentDefinition) (address : DocumentAddress)
    (initial : Value) : Chains allowed w₀ (Transaction.acquire definition address initial) := by
  apply Ensures.getBind
  intro v
  refine (ensures_checked fun _ hw => hw.1).bind fun _ => ?_
  apply Ensures.getBind
  intro v
  dsimp only
  split
  · exact ensures_pure fun _ hw => hw.1
  rename_i hopen
  -- the transaction of `v` is the one that the load leaves behind
  have hload : Ensures (fun w => EffectsOf allowed w₀ w ∧ v = w)
      (Transaction.loadForDraft definition address ((v.tx.latest
        (documentAddressKey definition.kind address)).any StagedDocument.retire))
      (fun found w => EffectsOf allowed w₀ w ∧ ∀ entry ∈ found, Serves w.session definition address entry ∧ w.tx = v.tx ∧
        ((v.tx.latest (documentAddressKey definition.kind address)).any
          StagedDocument.retire) = false) (EffectsOf allowed w₀) := by
    cases hret : (v.tx.latest (documentAddressKey definition.kind address)).any StagedDocument.retire with
    | true => exact ensures_pure fun w hw => ⟨hw.1, by simp⟩
    | false =>
      refine (ensures_load allowed w₀ (T := fun tx => tx = v.tx) definition address).mono ?_ ?_ fun _ h => h
      · rintro w ⟨hw, rfl⟩
        exact ⟨hw, rfl⟩
      · rintro found w ⟨⟨hw, htx⟩, hserves⟩
        exact ⟨hw, fun entry hentry => ⟨hserves entry hentry, htx, rfl⟩⟩
  refine hload.bind fun found => ?_
  cases found with
  | some entry =>
    refine (ensures_check fun _ hw => hw.1).bind fun _ => ?_
    refine (ensures_check fun _ hw => hw.2.1).bind fun _ => ensures_effect ?_
    rintro w ⟨hversion, -, hw, hentry⟩
    obtain ⟨hserves, htx, hret⟩ := hentry entry rfl
    refine ⟨w, hw, .acquireLoaded definition address entry hserves hversion ?_⟩
    rw [htx]
    exact latest_of_loading hopen hret
  | none =>
    refine (ensures_mint fun _ hw => hw.1).bind fun id => ensures_effect ?_
    rintro _ ⟨u, hu, rfl, rfl⟩
    exact ⟨u, hu.1, .acquireCreated definition address initial⟩

theorem chains_doc (definition : DocumentDefinition) (address : DocumentAddress) :
    Chains allowed w₀ (Transaction.doc definition address) := by
  refine (ensures_checked fun _ hw => hw).bind fun _ => ?_
  split
  · exact ensures_throw fun _ hw => hw
  · exact chains_acquire definition address definition.initial

theorem chains_docFrom (definition : DocumentDefinition) (address : DocumentAddress) (seed : Value) :
    Chains allowed w₀ (Transaction.docFrom definition address seed) := by
  refine (ensures_checked fun _ hw => hw).bind fun _ => ?_
  split
  · exact chains_acquire definition address (definition.familyInitial seed)
  · exact ensures_throw fun _ hw => hw

theorem chains_retireLoaded (definition : DocumentDefinition) (address : DocumentAddress) :
    Chains allowed w₀ (Transaction.retireLoaded definition address) := by
  apply Ensures.getBind
  intro v
  refine (ensures_checked fun _ hw => hw.1).bind fun _ => ?_
  have hload := ensures_load allowed w₀ (T := fun _ => True) definition address
  refine (hload.mono (fun _ hw => ⟨hw, trivial⟩) (fun _ _ h => h) fun _ h => h).bind fun found => ?_
  cases found with
  | none => exact ensures_pure fun _ hw => hw.1.1
  | some entry =>
    refine (ensures_check fun _ hw => hw.1.1).bind fun _ => ensures_effect ?_
    rintro w ⟨-, ⟨hw, -⟩, hserves⟩
    exact ⟨w, hw, .retireLoaded definition address entry (hserves entry rfl)⟩

theorem chains_retireDoc (definition : DocumentDefinition) (address : DocumentAddress) :
    Chains allowed w₀ (Transaction.retireDoc definition address) := by
  refine (ensures_checked fun _ hw => hw).bind fun _ => ?_
  apply Ensures.getBind
  intro v
  split
  · rename_i index document hstaged
    have hdoc : v.tx.documents[index]? = some document := by
      simp only [Transaction.stagedAt, Option.bind_eq_some_iff, Option.map_eq_some_iff, Prod.mk.injEq] at hstaged
      obtain ⟨found, -, d, hd, rfl, rfl⟩ := hstaged
      exact hd
    split
    · exact ensures_pure fun _ hw => hw.1
    rename_i hretire
    refine (ensures_check fun _ hw => hw.1).bind fun _ => ensures_effect ?_
    rintro w ⟨-, hw, rfl⟩
    exact ⟨_, hw, .markRetired index document hdoc (by simpa using hretire)⟩
  · exact (chains_retireLoaded definition address).mono (fun _ hw => hw.1) (fun _ _ h => h) fun _ h => h

theorem chains_createTask (definition : TaskDefinition) (input : Json) (options : TaskOptions) :
    Chains allowed w₀ (Transaction.createTask definition input options) := by
  apply Ensures.getBind
  intro v
  refine (ensures_checked fun _ hw => hw.1).bind fun owner => ?_
  refine (ensures_mint fun _ hw => hw).bind fun id => ensures_effect ?_
  rintro _ ⟨u, hu, hid, rfl⟩
  exact ⟨u, hu, .createTask _ hid⟩

theorem chains_createSubmission (submission : SubmissionRecord) :
    Chains allowed w₀ (Transaction.createSubmission submission) := by
  apply Ensures.getBind
  intro v
  refine (ensures_checked fun _ hw => hw.1).bind fun _ => ?_
  refine (ensures_mint fun _ hw => hw).bind fun id => ensures_effect ?_
  rintro _ ⟨u, hu, rfl, rfl⟩
  exact ⟨u, hu, .createSubmission { submission with id := u.session.storage.nextId } rfl⟩

theorem chains_session (c : Session.Call) : Chains allowed w₀ (onSession (Session.call c)) := by
  refine Ensures.zoom fun t ht => ?_
  refine ((kept_effects allowed w₀ t.tx).ensures_call c).mono ?_ (fun _ _ h => h) fun _ h => h
  rintro _ rfl
  exact ht

/-- **A call is a chain of effects.** -/
theorem chains_call (c : Transaction.Call) (hallowed : ∀ change ∈ c.change, allowed change) :
    Chains allowed w₀ (Transaction.call c) := by
  cases c with
  | createRootConversation =>
    exact ensures_effect fun w hw => ⟨w, hw, .record _ trivial⟩
  | createConversation => exact chains_createConversation
  | createOwnedConversation owner => exact chains_createOwnedConversation owner
  | forkConversation parent at_ => exact chains_forkConversation parent at_
  | appendEntry conversationId kind data head model byTaskId edits =>
    exact chains_appendEntry conversationId kind data head model byTaskId edits
  | doc definition address => exact chains_doc definition address
  | docFrom definition address seed => exact chains_docFrom definition address seed
  | draft index op => exact ensures_effect fun w hw => ⟨w, hw, .draft index op⟩
  | retireDoc definition address => exact chains_retireDoc definition address
  | createTask definition input options => exact chains_createTask definition input options
  | setTask task => exact ensures_effect fun w hw => ⟨w, hw, .setTask task⟩
  | createSubmission submission => exact chains_createSubmission submission
  | settleSubmission id settlement =>
    exact ensures_effect fun w hw => ⟨w, hw, .changeSubmission _ (hallowed _ rfl)⟩
  | placeSubmission id entry =>
    exact ensures_effect fun w hw => ⟨w, hw, .changeSubmission _ (hallowed _ rfl)⟩
  | session c => exact chains_session c

/-- **A callback is a chain of effects.** -/
theorem effectsOf_calls (w : Work) (list : List Transaction.Call)
    (hallowed : ∀ c ∈ list, ∀ change ∈ c.change, allowed change) : EffectsOf allowed w (Transaction.calls w list) := by
  induction list generalizing w with
  | nil => exact .refl
  | cons c rest ih =>
    have hcall : EffectsOf allowed w (endState (Transaction.call c) w) :=
      (chains_call c (hallowed c List.mem_cons_self)).endState .refl
    exact hcall.trans (ih _ fun other hmem => hallowed other (List.mem_cons_of_mem _ hmem))

theorem effects_calls (w : Work) (list : List Transaction.Call) : Effects w (Transaction.calls w list) :=
  effectsOf_calls w list fun _ _ _ _ => trivial

theorem effects_call (w : Work) (c : Transaction.Call) : Effects w (endState (Transaction.call c) w) :=
  effects_calls w [c]

end Chains

/-! ## The storage below a callback -/

namespace StorageState

def advanced (s : StorageState) (count : Nat) : StorageState := { s with nextId := s.nextId + count }

theorem advanced_advanced (s : StorageState) (m n : Nat) : (s.advanced m).advanced n = s.advanced (m + n) := by
  simp only [advanced]
  push_cast
  rw [add_assoc]

theorem advanced_zero (s : StorageState) : s.advanced 0 = s := by simp [advanced]

end StorageState

theorem Effect.storage (h : Effect w w') : ∃ count, w'.session.storage = w.session.storage.advanced count := by
  cases h with
  | mint | createTask task hid | createSubmission submission hid | acquireCreated definition address initial =>
    exact ⟨1, rfl⟩
  | fork writes count hwrites => exact ⟨count, rfl⟩
  | _ => exact ⟨0, (StorageState.advanced_zero _).symm⟩

theorem Effects.storage (h : Effects w w') : ∃ count, w'.session.storage = w.session.storage.advanced count := by
  induction h with
  | refl => exact ⟨0, (StorageState.advanced_zero _).symm⟩
  | tail _ hlast ih =>
    obtain ⟨first, hfirst⟩ := ih
    obtain ⟨second, hsnd⟩ := Effect.storage hlast
    exact ⟨first + second, by rw [hsnd, hfirst, StorageState.advanced_advanced]⟩

/-! ## What a commit does -/

namespace Session

@[simp] theorem deliverChange_storage (s : Session) (change : DocumentCommitChange) :
    (s.deliverChange change).storage = s.storage := by
  unfold deliverChange
  dsimp only
  split <;> rfl

@[simp] theorem deliverChange_cached (s : Session) (change : DocumentCommitChange) :
    (s.deliverChange change).cached = s.cached := by
  unfold deliverChange
  dsimp only
  split <;> rfl

@[simp] theorem deliverChange_failed (s : Session) (change : DocumentCommitChange) :
    (s.deliverChange change).failed = s.failed := by
  unfold deliverChange
  dsimp only
  split <;> rfl

theorem deliverChanges_frame (s : Session) (changes : List DocumentCommitChange) :
    (changes.foldl deliverChange s).storage = s.storage ∧ (changes.foldl deliverChange s).cached = s.cached ∧
      (changes.foldl deliverChange s).failed = s.failed := by
  induction changes generalizing s with
  | nil => exact ⟨rfl, rfl, rfl⟩
  | cons change rest ih =>
    obtain ⟨hstor, hcached, hfailed⟩ := ih (s.deliverChange change)
    exact ⟨by simpa using hstor, by simpa using hcached, by simpa using hfailed⟩

@[simp] theorem settle_storage (s : Session) (assembly : Assembly) (seq : Seq) :
    (s.settle assembly seq).storage = s.storage := (deliverChanges_frame _ _).1

@[simp] theorem settle_cached (s : Session) (assembly : Assembly) (seq : Seq) : (s.settle assembly seq).cached
      = assembly.documents.foldl (PreparedDocument.adopt seq) s.cached :=
  (deliverChanges_frame _ _).2.1

/-- A commit that reached the storage and settled. -/
structure Committed (s : Session) (calls : List Transaction.Call) (w : Work) (assembly : Assembly)
    (storage : StorageState) : Prop where
  usable : s.failed = false
  callback : w = Transaction.calls ⟨s, {}⟩ calls
  assembled : Transaction.assemble w = .ok assembly
  nonempty : assembly.writes ≠ []
  applied : w.session.storage.applyNext assembly.writes = .ok storage

def Committed.after {s : Session} {calls : List Transaction.Call} {w : Work} {assembly : Assembly}
    {storage : StorageState} (_ : Committed s calls w assembly storage) : Session :=
  { w.session with storage := storage }.settle assembly w.session.storage.nextSeq

/-- **What a commit does.** It is refused by a failed Session, ends with the Session its callback
left behind, marks that Session as failed, or settles. -/
theorem commitNow_cases (s : Session) (calls : List Transaction.Call) (returned : Expected Unit) :
    (s.failed = true ∧ s.commitNow calls returned = (.rejected sessionFailedError, s)) ∨
      (∃ outcome, (∀ publication, outcome ≠ .committed publication) ∧ ((s.commitNow calls returned)
            = (outcome, (Transaction.calls ⟨s, {}⟩ calls).session) ∨ (s.commitNow calls returned)
            = (outcome, { (Transaction.calls ⟨s, {}⟩ calls).session with failed := true }))) ∨
      (returned = .ok () ∧ ∃ w assembly storage, ∃ h : Committed s calls w assembly storage,
        s.commitNow calls returned = (.committed (assembly.publication w.session.storage.nextSeq), h.after)) := by
  unfold commitNow
  cases hfailed : s.failed with
  | true => exact Or.inl ⟨rfl, by simp⟩
  | false =>
    right
    simp only [Bool.false_eq_true, if_false]
    cases returned with
    | error e => exact Or.inl ⟨_, by simp, Or.inl rfl⟩
    | ok u =>
      cases hassemble : Transaction.assemble (Transaction.calls ⟨s, {}⟩ calls) with
      | error e => exact Or.inl ⟨_, by simp, Or.inl rfl⟩
      | ok assembly =>
        dsimp only
        unfold commitBatch
        cases hwrites : assembly.writes with
        | nil => exact Or.inl ⟨.unchanged, by simp, Or.inl rfl⟩
        | cons write rest =>
          have hne : assembly.writes ≠ [] := by simp [hwrites]
          cases hstor : (Transaction.calls ⟨s, {}⟩ calls).session.storage.applyNext assembly.writes with
          | error e =>
            rw [hwrites] at hstor
            exact Or.inl ⟨.failed e, by simp, Or.inr (by simp [hstor])⟩
          | ok storage =>
            refine Or.inr ⟨rfl, _, assembly, storage, ⟨hfailed, rfl, hassemble, hne, hstor⟩, ?_⟩
            rw [hwrites] at hstor
            simp [hstor, Committed.after]

theorem committed_of_publication {s s' : Session} {calls : List Transaction.Call}
    {returned : Expected Unit} {publication : CommitPublication}
    (h : s.commitNow calls returned = (.committed publication, s')) :
    ∃ w assembly storage, ∃ hc : Committed s calls w assembly storage,
      publication = assembly.publication w.session.storage.nextSeq ∧ s' = hc.after := by
  rcases s.commitNow_cases calls returned with ⟨-, hcase⟩ | ⟨outcome, hne, hcase⟩ |
    ⟨-, w, assembly, storage, hc, hcase⟩
  · rw [hcase] at h
    cases h
  · rcases hcase with hcase | hcase
    · rw [hcase] at h
      exact absurd (congrArg Prod.fst h) (hne publication)
    · rw [hcase] at h
      exact absurd (congrArg Prod.fst h) (hne publication)
  · rw [hcase] at h
    refine ⟨w, assembly, storage, hc, ?_, ?_⟩
    · simpa using (congrArg Prod.fst h).symm
    · exact (congrArg Prod.snd h).symm

theorem call_storage (s : Session) (c : Call) : (endState (call c) s).storage = s.storage := by
  have hkept : Kept fun s' => s'.storage = s.storage := ⟨fun _ _ h => h, fun _ _ _ _ _ h => h, fun _ _ _ h => h⟩
  exact (hkept.ensures_call c).endState rfl

end Session

end CodingHarness.Durable
