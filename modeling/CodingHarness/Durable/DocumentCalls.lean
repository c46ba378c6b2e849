import CodingHarness.Durable.CurrentDocuments
import CodingHarness.Durable.StagedWrites

/-!
# Calls on one document address

Within one transaction a document may be acquired and retired any number of times. `lifecycle` is the sequence of the
successful calls on one address with the draft that each left. `Transaction.view` is what these calls see of the
transaction: a call on another address changes nothing there, and `Acquired` and `Retired` say what the two operations
do.
-/

namespace CodingHarness.Durable

open Library Support Chord
open StorageState (CurrentAt Lifetimes createdRecord)

/-! ## The staged documents of one address -/

/-- The key under which documents of the definition at the address are staged and stored. -/
abbrev DocumentDefinition.keyAt (definition : DocumentDefinition) (address : DocumentAddress) : Bytes :=
  documentAddressKey definition.kind address

/-- A staged document, without the content of its draft. -/
structure StagedView where
  index : Nat
  record : DocumentRecord
  address : DocumentAddress
  kind : Bytes
  created : Bool
  retire : Bool
  drafted : Bool

def StagedDocument.viewAt (index : Nat) (document : StagedDocument) : StagedView :=
  ⟨index, document.record, document.address, document.kind, document.created, document.retire, document.change.isSome⟩

/-- The views of the documents of a key, from a position on. -/
def viewsFrom (key : Bytes) : Nat → List StagedDocument → List StagedView
  | _, [] => []
  | index, document :: rest =>
    if document.key = key then document.viewAt index :: viewsFrom key (index + 1) rest
    else viewsFrom key (index + 1) rest

/-- The staged documents of a key and the newest of them. -/
def Transaction.view (tx : Transaction) (key : Bytes) : List StagedView × Option Nat :=
  (viewsFrom key 0 tx.documents, tx.latestDocuments.find key)

section Views

variable {key : Bytes} {index : Nat} {documents : List StagedDocument}

theorem viewsFrom_append (later : List StagedDocument) : viewsFrom key index (documents ++ later) =
      viewsFrom key index documents ++ viewsFrom key (index + documents.length) later := by
  induction documents generalizing index with
  | nil => rfl
  | cons document rest ih =>
    rw [List.cons_append, viewsFrom, viewsFrom, ih, List.length_cons, Nat.add_assoc, Nat.add_comm 1]
    split <;> rfl

theorem viewsFrom_eq_nil_iff : viewsFrom key index documents = [] ↔ ∀ document ∈ documents, document.key ≠ key := by
  induction documents generalizing index with
  | nil => simp [viewsFrom]
  | cons document rest ih =>
    rw [viewsFrom]
    split
    · rename_i heq
      simp [heq]
    rename_i hne
    rw [ih]
    simp [hne]

theorem viewsFrom_eq_cons {view : StagedView} {views : List StagedView}
    (h : viewsFrom key index documents = view :: views) :
    ∃ before document after, documents = before ++ document :: after ∧ (∀ other ∈ before, other.key ≠ key) ∧
      document.key = key ∧ view = document.viewAt (index + before.length) ∧
      viewsFrom key (index + before.length + 1) after = views := by
  induction documents generalizing index with
  | nil => cases h
  | cons document rest ih =>
    rw [viewsFrom] at h
    split at h
    · rename_i heq
      cases h
      exact ⟨[], document, rest, rfl, by simp, heq, rfl, rfl⟩
    rename_i hne
    obtain ⟨before, first, after, rfl, hprev, hkey, rfl, hviews⟩ := ih h
    refine ⟨document :: before, first, after, rfl, ?_, hkey, ?_, ?_⟩
    · intro other hother
      rcases List.mem_cons.1 hother with rfl | hother
      · exact hne
      · exact hprev other hother
    · rw [List.length_cons, Nat.add_assoc, Nat.add_comm 1]
    · rw [← hviews, List.length_cons]
      congr 1
      omega

theorem viewsFrom_modify {f : StagedDocument → StagedDocument} (hkey : ∀ document, (f document).key = document.key)
    (hview : ∀ document index, (f document).viewAt index = document.viewAt index) (position : Nat) :
    viewsFrom key index (documents.modify position f) = viewsFrom key index documents := by
  induction documents generalizing index position with
  | nil => rw [List.modify_nil]
  | cons document rest ih =>
    cases position with
    | zero =>
      rw [List.modify_zero_cons, viewsFrom, viewsFrom, hkey, hview]
    | succ position =>
      rw [List.modify_succ_cons, viewsFrom, viewsFrom, ih]

variable {document updated : StagedDocument}

theorem viewsFrom_set_other {position : Nat}
    (hdoc : documents[position]? = some document) (hkey : document.key ≠ key) (hupd : updated.key ≠ key) :
    viewsFrom key index (documents.set position updated) = viewsFrom key index documents := by
  induction documents generalizing index position with
  | nil => rfl
  | cons first rest ih =>
    cases position with
    | zero =>
      cases hdoc
      rw [List.set_cons_zero, viewsFrom, viewsFrom, if_neg hkey, if_neg hupd]
    | succ position =>
      rw [List.set_cons_succ, viewsFrom, viewsFrom, ih hdoc]

theorem viewsFrom_set_first {before after : List StagedDocument}
    (hprev : ∀ other ∈ before, other.key ≠ key) (hupd : updated.key = key) :
    viewsFrom key index ((before ++ document :: after).set before.length updated) =
      updated.viewAt (index + before.length) :: viewsFrom key (index + before.length + 1) after := by
  rw [List.set_append_right _ _ (Nat.le_refl _), Nat.sub_self, List.set_cons_zero, viewsFrom_append,
    viewsFrom_eq_nil_iff.2 hprev, List.nil_append, viewsFrom, if_pos hupd]

end Views

/-! ## The calls on an address -/

/-- The two operations on an address. -/
inductive LifecycleCall where
  | doc
  | retireDoc
  deriving DecidableEq

/-- A successful call with the newest staged document of the address after it, whose draft `doc` returns. -/
structure LifecycleEvent where
  call : LifecycleCall
  draft : Option Nat

namespace Transaction

/-- The operation of a call on an address key. -/
def lifecycleCall (key : Bytes) : Call → Option LifecycleCall
  | .doc definition address | .docFrom definition address _ =>
    if definition.keyAt address = key then some .doc else none
  | .retireDoc definition address => if definition.keyAt address = key then some .retireDoc else none
  | _ => none

/-- A call on an address key that succeeds. -/
def lifecycleEvents (key : Bytes) (w : Work) (c : Call) : List LifecycleEvent :=
  match lifecycleCall key c, call c w with
  | some event, .ok _ u => [⟨event, u.tx.latestDocuments.find key⟩]
  | _, _ => []

/-- The successful calls on an address key. -/
def lifecycle (key : Bytes) (w : Work) : List Call → List LifecycleEvent
  | [] => []
  | c :: rest => lifecycleEvents key w c ++ lifecycle key (endState (call c) w) rest

/-! ## What one call does -/

/-- An action that changes nothing at an address. -/
def Frames {α : Type} (key : Bytes) (x : WorkAction α) : Prop :=
  ∀ seen, Ensures (fun w => w.tx.view key = seen) x (fun _ w => w.tx.view key = seen) fun w => w.tx.view key = seen

section Frames

variable {α β : Type} {key : Bytes}

theorem frames_pure (a : α) : Frames key (pure a) := fun _ => ensures_pure fun _ h => h

theorem frames_throw (e : Error) : Frames key (throw e : WorkAction α) := fun _ => ensures_throw fun _ h => h

theorem frames_get : Frames key (get : WorkAction Work) := fun _ => ensures_get fun _ h => h

theorem frames_check (x : Expected α) : Frames key (Session.check x : WorkAction α) :=
  fun _ => ensures_ofExcept (fun _ _ _ h => h) fun _ h => h

theorem Frames.bind {x : WorkAction α} {f : α → WorkAction β} (hx : Frames key x) (hf : ∀ a, Frames key (f a)) :
    Frames key (x >>= f) := fun seen => (hx seen).bind fun a => hf a seen

theorem frames_onSession (x : SessionAction α) : Frames key (onSession x) := by
  intro seen w hw
  unfold onSession zoom
  cases x w.session with
  | ok a s | error e s => exact hw

theorem frames_modify {f : Work → Work} (h : ∀ w, (f w).tx.view key = w.tx.view key) :
    Frames key (modify f : WorkAction PUnit) := fun _ => ensures_modify fun w hw => (h w).trans hw

theorem view_withDocument (tx : Transaction) (document : StagedDocument) :
    (tx.withDocument document).view key = if document.key = key then
        ((tx.view key).1 ++ [document.viewAt tx.documents.length], some tx.documents.length)
      else tx.view key := by
  simp only [view, withDocument, viewsFrom_append, viewsFrom, Nat.zero_add, OrdMap.find_insert]
  split
  · rename_i heq
    rw [if_pos heq.symm]
  · rename_i hne
    rw [if_neg (Ne.symm hne), List.append_nil]

variable {document : StagedDocument}

theorem frames_stage (h : document.key ≠ key) : Frames key (stage document) := by
  refine frames_modify fun w => ?_
  change (w.tx.withDocument document).view key = _
  rw [view_withDocument, if_neg h]

theorem frames_markRetired {index : Nat} (h : document.key ≠ key) {seen : Transaction}
    (hdoc : seen.documents[index]? = some document) :
    Ensures (fun w => w.tx = seen) (markRetired index document) (fun _ w => w.tx.view key = seen.view key)
      fun w => w.tx.view key = seen.view key := by
  refine ensures_modify fun w hw => ?_
  subst hw
  simp only [view]
  rw [viewsFrom_set_other hdoc h (show ({ document with retire := true } : StagedDocument).key ≠ key from h),
    OrdMap.find_insert, if_neg (Ne.symm h)]

variable {address : DocumentAddress}

theorem key_of_stagedAt {tx : Transaction} {kind : Bytes} {index : Nat}
    (h : tx.stagedAt kind address = some (index, document)) :
    tx.documents[index]? = some document ∧ document.key = documentAddressKey kind address := by
  obtain ⟨position, hpos, hfound⟩ := Option.bind_eq_some_iff.1 h
  obtain ⟨found, hdoc, heq⟩ := Option.map_eq_some_iff.1 hfound
  cases heq
  have hmatch := (List.findIdx?_eq_some_iff_getElem.1 hpos)
  obtain ⟨hlt, hsame, -⟩ := hmatch
  rw [List.getElem?_eq_getElem hlt, Option.some.injEq] at hdoc
  rw [hdoc] at hsame
  simp only [Bool.and_eq_true, beq_iff_eq] at hsame
  refine ⟨by rw [List.getElem?_eq_getElem hlt, hdoc], ?_⟩
  rw [StagedDocument.key, hsame.1, hsame.2]

variable {definition : DocumentDefinition}

theorem frames_acquire (initial : Value)
    (h : definition.keyAt address ≠ key) : Frames key (acquire definition address initial) := by
  refine frames_get.bind fun w => (frames_check _).bind fun _ => frames_get.bind fun w => ?_
  dsimp only
  split
  · exact frames_pure _
  refine Frames.bind ?_ fun loaded => ?_
  · unfold loadForDraft
    split
    · exact frames_pure _
    · exact frames_onSession _
  cases loaded with
  | some entry => exact (frames_check _).bind fun _ => (frames_check _).bind fun _ => frames_stage h
  | none => exact (frames_onSession _).bind fun _ => frames_stage h

theorem frames_retireDoc (h : definition.keyAt address ≠ key) : Frames key (retireDoc definition address) := by
  refine (frames_check _).bind fun _ seen => Ensures.getBind fun w => ?_
  split
  · rename_i index document hstaged
    obtain ⟨hdoc, hkey⟩ := key_of_stagedAt hstaged
    split
    · exact ensures_pure fun _ hw => hw.1
    refine (ensures_check fun _ hw => hw.1).bind fun _ => ?_
    rintro u ⟨-, hseen, rfl⟩
    have hother : document.key ≠ key := by
      rw [hkey]
      exact h
    have hmark := frames_markRetired hother hdoc w rfl
    rw [hseen] at hmark
    exact hmark
  have hloaded : Frames key (retireLoaded definition address) := by
    refine frames_get.bind fun w => (frames_check _).bind fun _ => (frames_onSession _).bind fun loaded => ?_
    cases loaded with
    | none => exact frames_pure _
    | some entry => exact (frames_check _).bind fun _ => frames_stage h
  exact (hloaded seen).mono (fun _ hw => hw.1) (fun _ _ hw => hw) fun _ hw => hw

theorem frames_call {c : Call} (h : lifecycleCall key c = none) : Frames key (call c) := by
  have hquiet : ∀ {f : Work → Work}, (∀ w, (f w).tx.documents = w.tx.documents ∧
      (f w).tx.latestDocuments = w.tx.latestDocuments) → Frames key (modify f : WorkAction PUnit) := by
    intro f hf
    refine frames_modify fun w => ?_
    rw [view, view, (hf w).1, (hf w).2]
  have hpush : ∀ writes, Frames key (push writes) := fun writes => hquiet fun _ => ⟨rfl, rfl⟩
  cases c with
  | createRootConversation => exact hpush _
  | createConversation => exact (frames_onSession _).bind fun id => hpush _
  | createOwnedConversation owner =>
    exact frames_get.bind fun _ => (frames_check _).bind fun _ => (frames_check _).bind fun _ =>
      (frames_onSession _).bind fun id => hpush _
  | forkConversation parent at_ =>
    exact frames_get.bind fun _ => (frames_check _).bind fun _ => (frames_onSession _).bind fun _ =>
      (frames_onSession _).bind fun _ => hpush _
  | appendEntry conversationId kind data head model byTaskId edits =>
    exact (frames_onSession _).bind fun id => hpush _
  | doc definition address =>
    have hkey : definition.keyAt address ≠ key := by
      intro heq
      simp [lifecycleCall, heq] at h
    refine (frames_check _).bind fun _ => ?_
    split
    · exact frames_throw _
    · exact frames_acquire _ hkey
  | docFrom definition address seed =>
    have hkey : definition.keyAt address ≠ key := by
      intro heq
      simp [lifecycleCall, heq] at h
    refine (frames_check _).bind fun _ => ?_
    split
    · exact frames_acquire _ hkey
    · exact frames_throw _
  | draft index op =>
    refine frames_modify fun w => ?_
    simp only [view]
    rw [viewsFrom_modify]
    · exact fun document => rfl
    · simp [StagedDocument.viewAt]
  | retireDoc definition address =>
    have hkey : definition.keyAt address ≠ key := by
      intro heq
      simp [lifecycleCall, heq] at h
    exact frames_retireDoc hkey
  | createTask definition input options | createSubmission record =>
    exact frames_get.bind fun _ => (frames_check _).bind fun _ => (frames_onSession _).bind fun _ =>
      hquiet fun _ => ⟨rfl, rfl⟩
  | setTask record | settleSubmission id settlement | placeSubmission id entry => exact hquiet fun _ => ⟨rfl, rfl⟩
  | session sessionCall => exact frames_onSession _

end Frames

/-! ## The specification of the two operations -/

/-- What a load finds is the current incarnation; nothing is found when there is none. -/
def Found (storage : StorageState) (key : Bytes) (found : Option CachedDocument) : Prop :=
  (∀ entry, found = some entry → entry.record.addressKey = key ∧ CurrentAt storage key entry.record.id) ∧
    (found = none → ∀ id, ¬ CurrentAt storage key id)

end Transaction

theorem Session.ensures_loadCurrent {s : Session} (h : s.Coherent) (definition : DocumentDefinition)
    (address : DocumentAddress) : Ensures (fun t => t = s) (Session.loadDocument definition address)
      (fun found _ => Transaction.Found s.storage (definition.keyAt address) found) fun _ => True := by
  obtain ⟨bound, -, hlife⟩ := h.lifetimes
  apply Ensures.bind (ensures_get (G := fun t t' => t = s ∧ t' = s) fun t ht => ⟨ht, ht⟩)
  intro t
  apply ensures_assume
  rintro rfl
  dsimp only
  split
  · rename_i hcached
    rintro _ -
    refine ⟨fun entry hentry => h.cached _ entry hentry, fun hnone => ?_⟩
    rw [hnone] at hcached
    cases hcached
  refine Ensures.bind (ensures_modify (G := fun _ t' => t'.storage = t.storage) fun t' ht' => by rw [ht']) ?_
  intro _
  apply Ensures.bind (ensures_get (G := fun (u t' : Session) => u.storage = t.storage ∧ t'.storage = t.storage)
    fun t' ht' => ⟨ht', ht'⟩)
  intro u
  apply ensures_assume
  intro hu
  refine Ensures.bind (ensures_ofExcept (Q := fun found _ =>
    Session.readDocument t.storage definition address = .ok found)
    (fun found _ hread _ => hu ▸ hread) fun _ _ => trivial) fun found => ?_
  cases found with
  | none =>
    exact fun _ hread => Session.readDocument_current hlife hread
  | some entry =>
    exact fun _ hread => Session.readDocument_current hlife hread

namespace Transaction

section Operations

variable {low : Int} {w : Work} (definition : DocumentDefinition) (address : DocumentAddress)

/-- A staged document of the definition at the address. -/
structure Here (document : StagedDocument) : Prop where
  address : document.address = address
  kind : document.kind = definition.kind

theorem Here.key {definition : DocumentDefinition} {address : DocumentAddress} {document : StagedDocument}
    (h : Here definition address document) : document.key = definition.keyAt address := by
  rw [StagedDocument.key, h.address, h.kind]

/-- A successful `doc`: the open draft again, a draft of the current incarnation, or a new incarnation. -/
inductive Acquired (w u : Work) : Prop where
  | again (document : StagedDocument)
      (hlatest : w.tx.latest (definition.keyAt address) = some document)
      (hretire : document.retire = false) (hdraft : document.change.isSome) (htx : u.tx = w.tx)
  | loaded (document : StagedDocument) (hhere : Here definition address document)
      (hlatest : ∀ staged ∈ w.tx.latest (definition.keyAt address), staged.retire = false ∧ staged.change = none)
      (hcreated : document.created = false) (hretire : document.retire = false) (hdraft : document.change.isSome)
      (hcurrent : CurrentAt w.session.storage (definition.keyAt address) document.record.id)
      (htx : u.tx = w.tx.withDocument document)
  | created (document : StagedDocument) (hhere : Here definition address document)
      (hlatest : ∀ staged ∈ w.tx.latest (definition.keyAt address), staged.retire = true ∨ staged.change = none)
      (hcreated : document.created = true) (hretire : document.retire = false) (hdraft : document.change.isSome)
      (hfree : (∃ staged, w.tx.latest (definition.keyAt address) = some staged ∧ staged.retire = true) ∨
        ∀ id, ¬ CurrentAt w.session.storage (definition.keyAt address) id)
      (htx : u.tx = w.tx.withDocument document)

/-- A successful `retire_doc`: the first staged document of the address decides. -/
inductive Retired (w u : Work) : Prop where
  | already (index : Nat) (document : StagedDocument)
      (hstaged : w.tx.stagedAt definition.kind address = some (index, document)) (hretire : document.retire = true)
      (htx : u.tx = w.tx)
  | marked (index : Nat) (document : StagedDocument)
      (hstaged : w.tx.stagedAt definition.kind address = some (index, document)) (hretire : document.retire = false)
      (htx : u.tx = { w.tx with
        documents := w.tx.documents.set index { document with retire := true }
        latestDocuments := w.tx.latestDocuments.insert document.key index })
  | absent (hstaged : w.tx.stagedAt definition.kind address = none)
      (hnone : ∀ id, ¬ CurrentAt w.session.storage (definition.keyAt address) id) (htx : u.tx = w.tx)
  | loaded (document : StagedDocument) (hhere : Here definition address document)
      (hstaged : w.tx.stagedAt definition.kind address = none) (hcreated : document.created = false)
      (hretire : document.retire = true)
      (hcurrent : CurrentAt w.session.storage (definition.keyAt address) document.record.id)
      (htx : u.tx = w.tx.withDocument document)

theorem ensures_loadFound (h : Staged low w) :
    Ensures (fun u => u = w) (onSession (Session.loadDocument definition address))
      (fun found u => u.tx = w.tx ∧ Found w.session.storage (definition.keyAt address) found)
      fun u => u.tx = w.tx := by
  refine Ensures.zoom ?_
  rintro t rfl
  exact (Session.ensures_loadCurrent (Session.coherent_of_staged h) definition address).mono (fun _ hs => hs)
    (fun _ _ hfound => ⟨rfl, hfound⟩) fun _ _ => rfl

theorem ensures_stage (document : StagedDocument) :
    Ensures (fun u => u.tx = w.tx) (stage document) (fun _ u => u.tx = w.tx.withDocument document)
      fun u => u.tx = w.tx := by
  refine ensures_modify fun u hu => ?_
  rw [← hu]
  rfl

theorem ensures_stageCreated (initial : Value) : Ensures (fun u => u.tx = w.tx) (do
        let id ← onSession Session.mintId
        stage (stagedDraft definition address (definition.documentCreateRecord address id) initial.1 true
          definition.version 0))
      (fun _ u => ∃ document, Here definition address document ∧ document.created = true ∧ document.retire = false ∧
        document.change.isSome ∧ u.tx = w.tx.withDocument document)
      fun u => u.tx = w.tx := by
  refine Ensures.bind (Q := fun _ u => u.tx = w.tx) ?_ fun id => ?_
  · exact (ensures_mint fun _ hu => hu).mono (fun _ hu => hu) (fun id u ⟨v, hv, _, hu⟩ => by rw [hu]; exact hv)
      fun _ hu => hu
  · exact (ensures_stage _).mono (fun _ hu => hu) (fun _ u hu => ⟨_, ⟨rfl, rfl⟩, rfl, rfl, rfl, hu⟩) fun _ hu => hu

/-- The end of an acquisition: the loaded incarnation is staged, or a new one. -/
def stageLoaded (initial : Value) : Option CachedDocument → WorkAction Unit
  | some entry => do
      Session.check (checkRecordScope definition entry.record)
      Session.check (checkRecordVersion definition entry.record entry.storedVersion)
      stage (stagedDraft definition address entry.record entry.value false entry.storedVersion entry.deltasSinceBase)
  | none => do
      let id ← onSession Session.mintId
      stage (stagedDraft definition address (definition.documentCreateRecord address id) initial.1 true
        definition.version 0)

/-- Nothing open is staged: the current incarnation is loaded, or a first one is created. -/
theorem ensures_loadOrCreate (h : Staged low w) (initial : Value)
    (hlatest : ∀ staged ∈ w.tx.latest (definition.keyAt address),
      staged.retire = false ∧ staged.change = none) : Ensures (fun u => u = w)
      (onSession (Session.loadDocument definition address) >>= stageLoaded definition address initial)
      (fun _ u => Acquired definition address w u) fun u => u.tx = w.tx := by
  refine (ensures_loadFound definition address h).bind fun found => ?_
  rintro t ⟨htx, hfound⟩
  cases found with
  | some entry =>
    have hstage : Ensures (fun t => t.tx = w.tx) (stageLoaded definition address initial (some entry))
        (fun _ v => v.tx = w.tx.withDocument (stagedDraft definition address entry.record entry.value false
          entry.storedVersion entry.deltasSinceBase)) fun v => v.tx = w.tx := by
      refine (ensures_check fun _ ht => ht).bind fun _ => (ensures_check fun _ ht => ht.2).bind fun _ => ?_
      exact (ensures_stage _).mono (fun _ ht => ht.2.2) (fun _ _ ht => ht) fun _ ht => ht
    refine hstage.mono (fun _ ht => ht) (fun _ v hv => ?_) (fun _ ht => ht) t htx
    exact Acquired.loaded (stagedDraft definition address entry.record entry.value false entry.storedVersion
      entry.deltasSinceBase) ⟨rfl, rfl⟩ hlatest rfl rfl rfl (hfound.1 entry rfl).2 hv
  | none =>
    exact (ensures_stageCreated definition address initial).mono (fun _ ht => ht)
      (fun _ v ⟨document, hhere, hmade, hretire, hdraft, hv⟩ => Acquired.created document hhere
        (fun staged hstaged => .inr (hlatest staged hstaged).2) hmade hretire hdraft (.inr (hfound.2 rfl)) hv)
      (fun _ ht => ht) t htx

theorem ensures_acquire (h : Staged low w) (initial : Value) :
    Ensures (fun u => u = w) (acquire definition address initial) (fun _ u => Acquired definition address w u)
      fun u => u.tx = w.tx := by
  have hsame : ∀ u : Work, u = w → u.tx = w.tx := fun u hu => by rw [hu]
  refine Ensures.getBind fun v => (ensures_check fun u hu => hsame u hu.1).bind fun _ => Ensures.getBind fun v' => ?_
  intro u hu
  obtain rfl : w = u := hu.1.2.1.symm
  obtain rfl : w = v' := hu.2.symm
  cases hlatest : w.tx.latest (definition.keyAt address) with
  | none => exact ensures_loadOrCreate definition address h initial (by simp [hlatest]) w rfl
  | some staged =>
    cases hretire : staged.retire with
    | true =>
      simp only [Option.any_some, hretire, Bool.not_true, Bool.false_and, Bool.false_eq_true, if_false]
      refine (ensures_stageCreated definition address initial).mono (fun _ ht => ht) ?_ (fun _ ht => ht) w rfl
      rintro _ v ⟨document, hhere, hmade, hlive, hdraft, hv⟩
      refine Acquired.created document hhere ?_ hmade hlive hdraft (.inl ⟨staged, hlatest, hretire⟩) hv
      intro other hother
      cases hlatest.symm.trans hother
      exact .inl hretire
    | false =>
      cases hchange : staged.change with
      | some change =>
        simp only [Option.any_some, hretire, hchange, Option.isSome_some, Bool.not_false, Bool.and_true, if_true]
        exact Acquired.again staged hlatest hretire (by rw [hchange]; rfl) rfl
      | none =>
        simp only [Option.any_some, hretire, hchange, Option.isSome_none, Bool.and_false, Bool.false_eq_true,
          if_false]
        refine ensures_loadOrCreate definition address h initial ?_ w rfl
        intro other hother
        cases hlatest.symm.trans hother
        exact ⟨hretire, hchange⟩

theorem ensures_retireDoc (h : Staged low w) :
    Ensures (fun u => u = w) (retireDoc definition address) (fun _ u => Retired definition address w u)
      fun u => u.tx = w.tx := by
  have hsame : ∀ u : Work, u = w → u.tx = w.tx := fun u hu => by rw [hu]
  refine (ensures_check hsame).bind fun _ => Ensures.getBind fun v => ?_
  intro u hu
  obtain rfl : w = u := hu.1.2.symm
  obtain rfl : w = v := hu.2.symm
  cases hstaged : w.tx.stagedAt definition.kind address with
  | some found =>
    obtain ⟨index, document⟩ := found
    dsimp only
    cases hretire : document.retire with
    | true => exact Retired.already index document hstaged hretire rfl
    | false =>
      refine ((ensures_check hsame).bind fun _ => ensures_modify fun t ht => ?_) w rfl
      rw [ht.2]
      exact Retired.marked index document hstaged hretire rfl
  | none =>
    refine Ensures.getBind (P := fun t => t = w) (fun t => (ensures_check fun t ht => hsame t ht.1).bind fun _ => ?_) w rfl
    refine Ensures.bind (((ensures_loadFound definition address h).mono (fun t ht => ht.2.1) (fun _ _ ht => ht)
      fun _ ht => ht)) fun found => ?_
    rintro t ⟨htx, hfound⟩
    cases found with
    | none => exact Retired.absent hstaged (hfound.2 rfl) htx
    | some entry =>
      refine ((ensures_check (P := fun t => t.tx = w.tx) fun _ ht => ht).bind fun _ =>
        ((ensures_stage _).mono (fun _ ht => ht.2) (fun _ v hv => ?_) fun _ ht => ht)) t htx
      exact Retired.loaded _ ⟨rfl, rfl⟩ hstaged rfl rfl (hfound.1 entry rfl).2 hv

end Operations

end Transaction

end CodingHarness.Durable
