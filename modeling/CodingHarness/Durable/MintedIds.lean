import CodingHarness.Durable.JsonlIds
import CodingHarness.Durable.SqliteStorage

/-!
# Minted identities

`mint_id` promises an identity greater than every one minted or stored before, also across a reopen.
The JSONL backend keeps the next identity in memory and rebuilds it from the records of its log, so
a reopen forgets an identity that was minted and not stored. The SQLite backend keeps it in the
metadata row, which a mint advances and a commit raises for every record but a task and a copied
document.

`minted_ids_new` carries the promise over the runs of both backends whose calls stay clear of these
cases; `forgetfulRuns_reuse` are two runs that do not.
-/

namespace CodingHarness.Durable

open Library Support Chord

/-! ## Calls and what they leave -/

/-- A call on a storage. -/
inductive StorageCall where
  | mintId
  | commit (writes : List StorageWrite)
  | close
  | reopen
  deriving DecidableEq

/-- What a successful call leaves: a minted identity, or a committed batch. -/
inductive StorageEvent where
  | minted (id : Int)
  | committed (writes : List StorageWrite)
  deriving DecidableEq

namespace StorageEvent

def ids : StorageEvent → List Int
  | .minted id => [id]
  | .committed writes => recordIds writes

/-- An event that mints, mints an identity greater than `x`. -/
def Exceeds : StorageEvent → Int → Prop
  | .minted id, x => x < id
  | .committed _, _ => True

instance (event : StorageEvent) (x : Int) : Decidable (event.Exceeds x) := match event with
  | .minted id => inferInstanceAs (Decidable (x < id))
  | .committed _ => inferInstanceAs (Decidable True)

end StorageEvent

/-- Every minted identity is greater than all that came before it. -/
def NeverReused (history : List StorageEvent) : Prop :=
  history.Pairwise fun earlier later => ∀ x ∈ earlier.ids, later.Exceeds x

instance (history : List StorageEvent) : Decidable (NeverReused history) :=
  inferInstanceAs (Decidable (List.Pairwise _ _))

/-- A storage backend, as its callers see it. -/
structure Backend (B : Type) where
  mintId : B → Expected (B × Int)
  commit : B → List StorageWrite → Expected (B × Seq)
  close : B → B
  reopen : B → Expected B

namespace Backend

variable {B : Type} (backend : Backend B)

/-- One call: the storage after it and what it leaves. A call that fails leaves nothing. -/
def step (storage : B) : StorageCall → B × List StorageEvent
  | .mintId =>
    match backend.mintId storage with
    | .ok (next, id) => (next, [.minted id])
    | .error _ => (storage, [])
  | .commit writes =>
    match backend.commit storage writes with
    | .ok (next, _) => (next, [.committed writes])
    | .error _ => (storage, [])
  | .close => (backend.close storage, [])
  | .reopen =>
    match backend.reopen storage with
    | .ok next => (next, [])
    | .error _ => (storage, [])

def run : B → List StorageCall → List StorageEvent
  | _, [] => []
  | storage, call :: rest =>
    (backend.step storage call).2 ++ run (backend.step storage call).1 rest

/-- Every call of a run after `history` meets a condition on the storage and the history before
it. -/
def RunMeets (condition : B → List StorageEvent → StorageCall → Prop) :
    B → List StorageEvent → List StorageCall → Prop
  | _, _, [] => True
  | storage, history, call :: rest =>
    condition storage history call ∧ RunMeets condition (backend.step storage call).1
        (history ++ (backend.step storage call).2) rest

instance decidableRunMeets (condition : B → List StorageEvent → StorageCall → Prop)
    [∀ storage history call, Decidable (condition storage history call)] (storage : B)
    (history : List StorageEvent) (calls : List StorageCall) :
    Decidable (backend.RunMeets condition storage history calls) :=
  match calls with
  | [] => inferInstanceAs (Decidable True)
  | call :: rest =>
    have := decidableRunMeets condition (backend.step storage call).1
      (history ++ (backend.step storage call).2) rest
    inferInstanceAs (Decidable (_ ∧ _))

/-- A backend allocates under a condition when an invariant puts every used identity below the next
one and every call that meets the condition keeps the invariant. -/
structure Allocates (condition : B → List StorageEvent → StorageCall → Prop)
    (Inv : B → List StorageEvent → Prop) : Prop where
  minted : ∀ storage history next id, Inv storage history → condition storage history .mintId →
    backend.mintId storage = .ok (next, id) →
      (∀ event ∈ history, ∀ x ∈ event.ids, x < id) ∧ Inv next (history ++ [.minted id])
  committed : ∀ storage history writes next seq, Inv storage history →
    condition storage history (.commit writes) → backend.commit storage writes = .ok (next, seq) →
      Inv next (history ++ [.committed writes])
  closed : ∀ storage history, Inv storage history → Inv (backend.close storage) history
  reopened : ∀ storage history next, Inv storage history → condition storage history .reopen →
    backend.reopen storage = .ok next → Inv next history

variable {backend} {condition : B → List StorageEvent → StorageCall → Prop}
  {Inv : B → List StorageEvent → Prop}

variable {history : List StorageEvent}

theorem Allocates.step (h : backend.Allocates condition Inv) {storage : B}
    {call : StorageCall} (hinv : Inv storage history)
    (hnew : NeverReused history) (hcall : condition storage history call) :
    Inv (backend.step storage call).1 (history ++ (backend.step storage call).2) ∧
      NeverReused (history ++ (backend.step storage call).2) := by
  cases call with
  | mintId =>
    rw [Backend.step]
    cases hmint : backend.mintId storage with
    | error e => simpa using ⟨hinv, hnew⟩
    | ok minted =>
      obtain ⟨next, id⟩ := minted
      obtain ⟨habove, hnext⟩ := h.minted storage history next id hinv hcall hmint
      refine ⟨hnext, List.pairwise_append.2 ⟨hnew, List.pairwise_singleton _ _, ?_⟩⟩
      intro event hevent later hlater x hx
      rw [List.mem_singleton.1 hlater]
      exact habove event hevent x hx
  | commit writes =>
    rw [Backend.step]
    cases hcommit : backend.commit storage writes with
    | error e => simpa using ⟨hinv, hnew⟩
    | ok committed =>
      obtain ⟨next, seq⟩ := committed
      refine ⟨h.committed storage history writes next seq hinv hcall hcommit,
        List.pairwise_append.2 ⟨hnew, List.pairwise_singleton _ _, ?_⟩⟩
      intro event _ later hlater x _
      rw [List.mem_singleton.1 hlater]
      exact trivial
  | close => simpa [Backend.step] using ⟨h.closed storage history hinv, hnew⟩
  | reopen =>
    rw [Backend.step]
    cases hreopen : backend.reopen storage with
    | error e => simpa using ⟨hinv, hnew⟩
    | ok next => simpa using ⟨h.reopened storage history next hinv hcall hreopen, hnew⟩

theorem Allocates.run (h : backend.Allocates condition Inv) {storage : B}
    {calls : List StorageCall} (hinv : Inv storage history)
    (hnew : NeverReused history) (hcalls : backend.RunMeets condition storage history calls) :
    NeverReused (history ++ backend.run storage calls) := by
  induction calls generalizing storage history with
  | nil => simpa [Backend.run] using hnew
  | cons call rest ih =>
    obtain ⟨hinv', hnew'⟩ := h.step hinv hnew hcalls.1
    have hrest := ih hinv' hnew' hcalls.2
    rwa [Backend.run, ← List.append_assoc]

end Backend

/-! ## The two backends -/

/-- The JSONL backend; a reopen recovers its directory. -/
def jsonlBackend : Backend JsonlStorage where
  mintId := JsonlStorage.mintId
  commit := JsonlStorage.commit
  close := JsonlStorage.close
  reopen storage := JsonlStorage.recover storage.directory

/-- The SQLite backend; a reopen recovers its database. -/
def sqliteBackend : Backend SqliteStorage where
  mintId := SqliteStorage.mintId
  commit := SqliteStorage.commit
  close := SqliteStorage.close
  reopen storage := SqliteStorage.recover storage.database

/-- The greatest 64-bit identity, which has no successor. -/
def maxId : Int := 2 ^ 63 - 1

/-- The identities that a history minted. -/
def mintedIds (history : List StorageEvent) : List Int := history.filterMap fun event =>
    match event with
    | .minted id => some id
    | .committed _ => none

/-- The identities of the records that a history stored. -/
def storedIds (history : List StorageEvent) : List Int := history.flatMap fun event =>
    match event with
    | .minted _ => []
    | .committed writes => recordIds writes

/-- A call after which the JSONL backend still knows every identity: it reopens only when every
minted identity was stored or passed by a stored one, and it stores only identities that survive the
number format, with copies that find their source. -/
def JsonlStorage.Allocating (storage : JsonlStorage) (history : List StorageEvent) : StorageCall → Prop
  | .mintId => storage.state.nextId < maxId
  | .commit writes =>
    (∀ id ∈ recordIds writes, id < maxId ∧ Survives id) ∧
      ∀ write ∈ writes, copyReadable storage.directory write = true
  | .close => True
  | .reopen => ∀ id ∈ mintedIds history, ∃ stored ∈ storedIds history, id ≤ stored

/-- The identity of a record for which a commit leaves the metadata row where it is. -/
def unraisedId : StorageWrite → Option Int
  | .task record => record.map TaskRecord.id
  | .documentCopy record _ => record.map DocumentRecord.id
  | _ => none

/-- A call after which the SQLite backend still knows every identity: the tasks and the copied
documents of a commit have identities below the metadata row. -/
def SqliteStorage.Allocating (storage : SqliteStorage) (_ : List StorageEvent) : StorageCall → Prop
  | .mintId => storage.database.nextId < maxId
  | .commit writes =>
    (∀ id ∈ recordIds writes, id < maxId) ∧ ∀ id ∈ writes.filterMap unraisedId, id < storage.database.nextId
  | .close => True
  | .reopen => True

instance (storage : JsonlStorage) (history : List StorageEvent) (call : StorageCall) :
    Decidable (storage.Allocating history call) :=
  match call with
  | .mintId => inferInstanceAs (Decidable (_ < _))
  | .commit _ => inferInstanceAs (Decidable (_ ∧ _))
  | .close => inferInstanceAs (Decidable True)
  | .reopen => inferInstanceAs (Decidable (∀ id ∈ mintedIds history, _))

instance (storage : SqliteStorage) (history : List StorageEvent) (call : StorageCall) :
    Decidable (storage.Allocating history call) :=
  match call with
  | .mintId => inferInstanceAs (Decidable (_ < _))
  | .commit _ => inferInstanceAs (Decidable (_ ∧ _))
  | .close => inferInstanceAs (Decidable True)
  | .reopen => inferInstanceAs (Decidable True)

/-- Every identity of the history is below the next one. -/
def UsedBelow (next : Int) (history : List StorageEvent) : Prop := ∀ event ∈ history, ∀ x ∈ event.ids, x < next

theorem UsedBelow.append {next next' : Int} {history : List StorageEvent} {event : StorageEvent}
    (h : UsedBelow next history) (hle : next ≤ next') (hevent : ∀ x ∈ event.ids, x < next') :
    UsedBelow next' (history ++ [event]) := by
  intro other hother x hx
  rcases List.mem_append.1 hother with hother | hother
  · exact lt_of_lt_of_le (h other hother x hx) hle
  · rw [List.mem_singleton.1 hother] at hx
    exact hevent x hx

/-- The log of a JSONL storage names every committed record. -/
structure JsonlStorage.Accounts (storage : JsonlStorage) (history : List StorageEvent) : Prop where
  below : UsedBelow storage.state.nextId history
  logged : ∃ markers, Logged storage.directory markers ∧
    (∀ marker ∈ markers, ∀ id ∈ marker.recordIds, Survives id) ∧
    ∀ id ∈ storedIds history, ∃ marker ∈ markers, id ∈ marker.recordIds

theorem jsonl_allocates : jsonlBackend.Allocates JsonlStorage.Allocating JsonlStorage.Accounts where
  minted := by
    intro storage history next id hinv _ hmint
    simp only [jsonlBackend, JsonlStorage.mintId] at hmint
    split at hmint
    · cases hmint
    cases hmint
    refine ⟨hinv.below, ?_, ?_⟩
    · refine hinv.below.append (le_of_lt (lt_add_one _)) ?_
      intro x hx
      rw [List.mem_singleton.1 hx]
      exact lt_add_one _
    obtain ⟨markers, hlog, hn, hcommitted⟩ := hinv.logged
    refine ⟨markers, hlog, hn, ?_⟩
    rw [storedIds, List.flatMap_append, List.flatMap_singleton, List.append_nil]
    exact hcommitted
  committed := by
    intro storage history writes next seq hinv hcall hcommit
    have hstate : storage.state.nextId ≤ next.state.nextId ∧ ∀ id ∈ recordIds writes, id < next.state.nextId := by
      have h := hcommit
      simp only [jsonlBackend, JsonlStorage.commit, bind_eq_ok] at h
      obtain ⟨state, happly, h⟩ := h
      have hraise := StorageState.applyBatch_recordIds happly
      split at h
      · rename_i hempty
        obtain ⟨rfl, -⟩ := h
        rw [List.isEmpty_iff.1 hempty]
        exact ⟨le_refl _, by rintro _ ⟨⟩⟩
      · obtain ⟨rfl, -⟩ := h
        exact hraise
    obtain ⟨markers, hlog, hn, hcommitted⟩ := hinv.logged
    obtain ⟨added, hadded, hids, hnamed⟩ := commit_logged hlog hcall.2 hcommit
    refine ⟨hinv.below.append hstate.1 hstate.2, markers ++ added, hadded, ?_, ?_⟩
    · intro marker hmark id hid
      rcases List.mem_append.1 hmark with hmark | hmark
      · exact hn marker hmark id hid
      · rw [hids marker hmark] at hid
        exact (hcall.1 id hid).2
    intro id hid
    rw [storedIds, List.flatMap_append, List.mem_append, List.flatMap_singleton] at hid
    rcases hid with hid | hid
    · obtain ⟨marker, hmark, hin⟩ := hcommitted id hid
      exact ⟨marker, List.mem_append_left _ hmark, hin⟩
    · obtain ⟨marker, hmark, hin⟩ := hnamed id hid
      exact ⟨marker, List.mem_append_right _ hmark, hin⟩
  closed := fun storage history hinv => ⟨hinv.below, hinv.logged⟩
  reopened := by
    intro storage history next hinv hcall hreopen
    obtain ⟨markers, hlog, hn, hcommitted⟩ := hinv.logged
    obtain ⟨hnext, hbelow⟩ := recover_recordIds hlog hn hreopen
    have hstored : ∀ id ∈ storedIds history, id < next.state.nextId := by
      intro id hid
      obtain ⟨marker, hmark, hin⟩ := hcommitted id hid
      exact hbelow marker hmark id hin
    refine ⟨?_, markers, hnext, hn, hcommitted⟩
    intro event hevent x hx
    cases event with
    | committed writes => exact hstored x (List.mem_flatMap.2 ⟨_, hevent, hx⟩)
    | minted id =>
      rw [List.mem_singleton.1 hx]
      obtain ⟨stored, hmem, hle⟩ := hcall id (List.mem_filterMap.2 ⟨_, hevent, rfl⟩)
      exact lt_of_le_of_lt hle (hstored stored hmem)

namespace Database

variable {seq : Seq} {db db' : Database}

theorem claim_nextId {id : Int} {type : RecordType} (h : db.claim id type = .ok db') : db'.nextId = db.nextId := by
  simp only [claim, bind_eq_ok, pure_eq_ok] at h
  obtain ⟨_, -, rfl⟩ := h
  rfl

theorem claimOrIgnore_nextId (id : Int) (type : RecordType) : (db.claimOrIgnore id type).nextId = db.nextId := by
  rw [claimOrIgnore]
  split
  · rfl
  · rfl

theorem insertRevision_nextId {id : DocumentId} {row : RevisionRow}
    (h : db.insertRevision seq id row = .ok db') : db'.nextId = db.nextId := by
  simp only [insertRevision, bind_eq_ok, pure_eq_ok] at h
  obtain ⟨_, -, rfl⟩ := h
  rfl

/-- A written record is below the metadata row, but for a task and a copy. -/
theorem insertWrite_nextId {write : StorageWrite}
    (hcreate : ∀ record version, write ≠ .documentCreate record version none)
    (h : db.insertWrite seq write = .ok db') :
    db.nextId ≤ db'.nextId ∧ ∀ id, write.recordId = some id → id < db'.nextId ∨ unraisedId write = some id := by
  have hraise : ∀ id : Int, db.nextId ≤ max db.nextId (id + 1) ∧ id < max db.nextId (id + 1) :=
    fun id => ⟨le_max_left _ _, lt_of_lt_of_le (lt_add_one id) (le_max_right _ _)⟩
  match write with
  | .conversation none | .entry none | .documentCreate none _ (some _) | .documentCopy none _
  | .documentChange none _ _ _ | .documentRetire none | .task none | .submission none | .unknown =>
    cases h
    exact ⟨le_refl _, by rintro _ ⟨⟩⟩
  | .documentCreate record version none => exact absurd rfl (hcreate record version)
  | .documentCopy (some record) source =>
    cases h
    exact ⟨le_refl _, fun id hid => Or.inr hid⟩
  | .conversation (some record) =>
    simp only [insertWrite, insertConversation, bind_eq_ok, pure_eq_ok] at h
    obtain ⟨claimed, hclaim, _, -, rfl⟩ := h
    have hid := hraise record.id
    rw [← claim_nextId hclaim] at hid ⊢
    exact ⟨hid.1, fun id hrec => Or.inl (Option.some.inj hrec ▸ hid.2)⟩
  | .entry (some record) =>
    simp only [insertWrite, insertEntry, bind_eq_ok, pure_eq_ok] at h
    obtain ⟨claimed, hclaim, _, -, rfl⟩ := h
    have hid := hraise record.id
    rw [← claim_nextId hclaim] at hid ⊢
    exact ⟨hid.1, fun id hrec => Or.inl (Option.some.inj hrec ▸ hid.2)⟩
  | .documentCreate (some record) version (some value) =>
    simp only [insertWrite, insertDocument, bind_eq_ok] at h
    obtain ⟨claimed, hclaim, _, -, hrev⟩ := h
    have hid := hraise record.id
    rw [← claim_nextId hclaim] at hid ⊢
    rw [insertRevision_nextId hrev]
    exact ⟨hid.1, fun id hrec => Or.inl (Option.some.inj hrec ▸ hid.2)⟩
  | .documentChange (some document) version value ops =>
    exact ⟨le_of_eq (insertRevision_nextId h).symm, by rintro _ ⟨⟩⟩
  | .documentRetire (some document) =>
    simp only [insertWrite, retireDocument, bind_eq_ok, pure_eq_ok] at h
    obtain ⟨row, -, rfl⟩ := h
    exact ⟨le_refl _, by rintro _ ⟨⟩⟩
  | .task (some task) =>
    simp only [insertWrite, upsertTask, bind_eq_ok, pure_eq_ok] at h
    obtain ⟨_, -, rfl⟩ := h
    rw [claimOrIgnore_nextId]
    exact ⟨le_refl _, fun id hid => Or.inr hid⟩
  | .submission (some submission) =>
    simp only [insertWrite, upsertSubmission, bind_eq_ok, pure_eq_ok] at h
    obtain ⟨_, -, rfl⟩ := h
    have hid := hraise submission.id
    rw [← claimOrIgnore_nextId submission.id .submission] at hid
    rw [← claimOrIgnore_nextId submission.id .submission]
    exact ⟨hid.1, fun id hrec => Or.inl (Option.some.inj hrec ▸ hid.2)⟩

theorem insertWrites_nextId {writes : List StorageWrite}
    (hcreate : ∀ record version, .documentCreate record version none ∉ writes)
    (h : db.insertWrites seq writes = .ok db') : db.nextId ≤ db'.nextId ∧ ∀ id ∈ Durable.recordIds writes,
      id < db'.nextId ∨ id ∈ writes.filterMap unraisedId := by
  induction writes generalizing db with
  | nil =>
    cases h
    exact ⟨le_refl _, by rintro _ ⟨⟩⟩
  | cons write rest ih =>
    simp only [insertWrites, bind_eq_ok] at h
    obtain ⟨updated, hwrite, hrest⟩ := h
    obtain ⟨hle, hbelow⟩ := insertWrite_nextId
      (fun record version heq => hcreate record version (heq ▸ List.mem_cons_self)) hwrite
    obtain ⟨hle', hbelow'⟩ := ih
      (fun record version hmem => hcreate record version (List.mem_cons_of_mem _ hmem)) hrest
    refine ⟨le_trans hle hle', ?_⟩
    intro id hid
    obtain ⟨other, hother, hrec⟩ := List.mem_filterMap.1 hid
    rcases List.mem_cons.1 hother with rfl | hother
    · rcases hbelow id hrec with hlt | hunraised
      · exact Or.inl (lt_of_lt_of_le hlt hle')
      · exact Or.inr (List.mem_filterMap.2 ⟨other, List.mem_cons_self, hunraised⟩)
    rcases hbelow' id (List.mem_filterMap.2 ⟨other, hother, hrec⟩) with hlt | hunraised
    · exact Or.inl hlt
    · obtain ⟨found, hfound, hid⟩ := List.mem_filterMap.1 hunraised
      exact Or.inr (List.mem_filterMap.2 ⟨found, List.mem_cons_of_mem _ hfound, hid⟩)

end Database

theorem sqlite_allocates : sqliteBackend.Allocates SqliteStorage.Allocating
      (fun storage history => UsedBelow storage.database.nextId history) where
  minted := by
    intro storage history next id hinv _ hmint
    simp only [sqliteBackend, SqliteStorage.mintId] at hmint
    split at hmint
    · cases hmint
    simp only [bind_eq_ok, pure_eq_ok, Prod.mk.injEq] at hmint
    obtain ⟨state, -, rfl, rfl⟩ := hmint
    refine ⟨hinv, hinv.append (le_of_lt (lt_add_one _)) ?_⟩
    intro x hx
    rw [List.mem_singleton.1 hx]
    exact lt_add_one _
  committed := by
    intro storage history writes next seq hinv hcall hcommit
    simp only [sqliteBackend, SqliteStorage.commit] at hcommit
    split at hcommit
    · cases hcommit
    simp only [bind_eq_ok, pure_eq_ok, Prod.mk.injEq] at hcommit
    obtain ⟨_, -, state, happly, written, hwrote, rfl, -⟩ := hcommit
    obtain ⟨-, after, hwrites, -⟩ := StorageState.applyBatch_eq_ok.1 happly
    obtain ⟨hle, hbelow⟩ := Database.insertWrites_nextId (applyWrites_complete hwrites).1 hwrote
    refine hinv.append hle fun x hx => ?_
    rcases hbelow x hx with hlt | hunraised
    · exact hlt
    · exact lt_of_lt_of_le (hcall.2 x hunraised) hle
  closed := fun storage history hinv => hinv
  reopened := by
    intro storage history next hinv _ hreopen
    simp only [sqliteBackend, SqliteStorage.recover, bind_eq_ok, pure_eq_ok] at hreopen
    obtain ⟨_, -, _, -, _, -, _, -, _, -, _, -, _, -, _, -, _, -, rfl⟩ := hreopen
    intro event hevent x hx
    exact lt_of_lt_of_le (hinv event hevent x hx) (le_max_left _ _)

/-- **A minted identity is new.** In every run of the JSONL backend and of the SQLite backend whose
calls keep every identity known, `mint_id` returns identities greater than all that were minted or
stored before, across every close and reopen. -/
theorem minted_ids_new (calls : List StorageCall) : (jsonlBackend.RunMeets JsonlStorage.Allocating {} [] calls →
      NeverReused (jsonlBackend.run {} calls)) ∧
    (sqliteBackend.RunMeets SqliteStorage.Allocating {} [] calls → NeverReused (sqliteBackend.run {} calls)) := by
  constructor
  · intro hcalls
    have hstart : JsonlStorage.Accounts {} [] := ⟨nofun, [], rfl, nofun, nofun⟩
    exact jsonl_allocates.run hstart List.Pairwise.nil hcalls
  intro hcalls
  have hstart : UsedBelow ({} : SqliteStorage).database.nextId [] := nofun
  exact sqlite_allocates.run hstart List.Pairwise.nil hcalls

def pendingTask (id : TaskId) : TaskRecord where
  id := id
  conversationId := 2
  state := { status := "pending" }

/-- A JSONL run that stores what it minted before it reopens, and an SQLite run that reopens with an
identity that was not stored. -/
theorem storedRuns_new :
    NeverReused (jsonlBackend.run {} [.mintId, .commit [.conversation (some { id := 2 })], .close,
      .reopen, .mintId]) ∧
    NeverReused (sqliteBackend.run {} [.mintId, .commit [.task (some (pendingTask 2))], .mintId,
      .close, .reopen, .mintId]) :=
  ⟨(minted_ids_new _).1 (by decide +kernel), (minted_ids_new _).2 (by decide +kernel)⟩

/-- A JSONL run that reopens with an identity that was not stored mints it again, and an SQLite run
that stores a task it did not mint comes to mint identities below it. -/
theorem forgetfulRuns_reuse : ¬ NeverReused (jsonlBackend.run {} [.mintId, .close, .reopen, .mintId]) ∧
      ¬ NeverReused (sqliteBackend.run {} [.commit [.task (some (pendingTask 5))], .mintId]) := by
  constructor
  · decide +kernel
  · decide +kernel

end CodingHarness.Durable
