import CodingHarness.Durable.TerminalRecords

/-!
# The publication of a commit

`settle` reads the table changes of a publication off the batch, but it builds the document changes
from the staged documents: every staged document publishes a change, whether it wrote anything or
not, and the copies of a fork, which have no staged document, publish none. `PublishesExactly` says what a
publication is to contain, and `publication_exact_iff` says when it does: the batch copies no
document, every staged document writes, and no incarnation is staged twice.
-/

namespace CodingHarness.Durable

open Library Support Chord
open OrdMap (find_erase find_insert find_insert_cases)

/-! ## Exact publications -/

/-- The incarnation that a write creates, copies, changes or retires. -/
def touchedDocument : StorageWrite → Option DocumentId
  | .documentCreate record _ _ | .documentCopy record _ => record.map DocumentRecord.id
  | .documentChange id _ _ _ | .documentRetire id => id
  | _ => none

namespace CommitChange

def asTable : CommitChange → Option CommitChange
  | .document _ => none
  | change => some change

/-- The incarnation of a document change. -/
def documentId : CommitChange → Option DocumentId
  | .document change => some change.record.id
  | _ => none

end CommitChange

/-- A publication that says of a batch what it is to say: one change for each table and submission
write, and one for each incarnation that the batch touches. -/
structure PublishesExactly (batch : List StorageWrite) (publication : CommitPublication) : Prop where
  tables : publication.changes.filterMap CommitChange.asTable = batch.filterMap tableChange
  once : (publication.changes.filterMap CommitChange.documentId).Nodup
  documents : ∀ id, id ∈ publication.changes.filterMap CommitChange.documentId ↔
    id ∈ batch.filterMap touchedDocument

/-- A staged document that the assembly will write. -/
def StagedDocument.Writes (document : StagedDocument) : Prop := document.created = true ∨ document.retire = true ∨
    document.storedVersion < document.definitionVersion ∨
    ∃ change, document.change = some change ∧ change.preparedOps ≠ []

/-- A transaction that copies no document, writes every document it staged and stages no
incarnation twice. -/
structure Transaction.Publishable (tx : Transaction) : Prop where
  uncopied : ∀ write ∈ tx.writes, copiedId write = none
  writes : ∀ document ∈ tx.documents, document.Writes
  distinct : (tx.documents.map fun document => document.record.id).Nodup

/-! ## Prepared documents -/

def preparedOf (change : ChangeState) : Prepared :=
  ⟨change.base, if change.preparedOps.isEmpty then change.base else change.candidate, change.preparedOps⟩

theorem prepareDocument_eq_ok {document : StagedDocument} {p : PreparedDocument}
    (h : prepareDocument document = .ok p) : p.document = document ∧ p.prepared = document.change.map preparedOf := by
  unfold prepareDocument at h
  cases hchange : document.change with
  | none =>
    rw [hchange] at h
    cases h
    exact ⟨rfl, rfl⟩
  | some change =>
    rw [hchange] at h
    simp only [bind_eq_ok, pure_eq_ok] at h
    obtain ⟨⟨result, settled⟩, hres, rfl⟩ := h
    unfold ChangeState.prepare at hres
    split at hres
    · split at hres <;> cases hres
    · cases hres
      exact ⟨rfl, rfl⟩

/-- Preparing keeps the staged documents in order and prepares their changes. -/
theorem prepareDocuments_eq_ok {documents : List StagedDocument} {prepared : List PreparedDocument}
    (h : prepareDocuments documents = .ok prepared) : prepared.map PreparedDocument.document = documents ∧
      ∀ p ∈ prepared, p.prepared = p.document.change.map preparedOf := by
  induction documents generalizing prepared with
  | nil =>
    cases h
    simp
  | cons document rest ih =>
    simp only [prepareDocuments, bind_eq_ok, pure_eq_ok] at h
    obtain ⟨first, hfirst, later, hlater, rfl⟩ := h
    obtain ⟨hdoc, hchange⟩ := prepareDocument_eq_ok hfirst
    obtain ⟨hdocs, hprep⟩ := ih hlater
    refine ⟨by rw [List.map_cons, hdocs, hdoc], fun p hp => ?_⟩
    rcases List.mem_cons.1 hp with rfl | hp
    · rw [hdoc]
      exact hchange
    · exact hprep p hp

namespace PreparedDocument

variable {p : PreparedDocument}

theorem written_iff (hprep : p.prepared = p.document.change.map preparedOf) :
    p.written = true ↔ p.document.Writes := by
  have hops : (!p.ops.isEmpty) = true ↔ ∃ change, p.document.change = some change ∧ change.preparedOps ≠ [] := by
    rw [ops, hprep]
    cases p.document.change with
    | none => simp
    | some change => simp [preparedOf]
  unfold written StagedDocument.Writes migrationOnly
  rw [Bool.or_eq_true, Bool.or_eq_true, Bool.or_eq_true, hops]
  cases p.document.created <;> simp [or_assoc]

theorem touchedDocument_contentWrite : touchedDocument p.contentWrite = some p.document.record.id := by
  unfold contentWrite
  split
  · split <;> rfl
  · rfl

theorem mem_touched {id : DocumentId} :
    id ∈ p.writes.filterMap touchedDocument ↔ p.written = true ∧ p.document.record.id = id := by
  have hretire : touchedDocument (.documentRetire (some p.document.record.id)) = some p.document.record.id := rfl
  unfold writes
  cases hwrote : p.written with
  | false => simp
  | true =>
    simp only [Bool.not_true, Bool.false_eq_true, if_false, true_and]
    split
    · simp [hretire, eq_comm]
    split
    · simp [hretire, touchedDocument_contentWrite, eq_comm]
    · simp [touchedDocument_contentWrite, eq_comm]

theorem change_eq_some (h : p.document.retire = true ∨ p.prepared.isSome) (seq : Seq) :
    ∃ change, p.change seq = some change ∧ change.record.id = p.document.record.id := by
  unfold change
  split
  · exact ⟨_, rfl, rfl⟩
  rename_i hretire
  obtain ⟨prepared, hprep⟩ := Option.isSome_iff_exists.1 (h.resolve_left hretire)
  rw [hprep, Option.map_some]
  split
  · exact ⟨_, rfl, rfl⟩
  · exact ⟨_, rfl, rfl⟩

end PreparedDocument

/-! ## Identities of a transaction -/

/-- The incarnations a Session knows lie below the next identity. -/
structure Session.Bounded (s : Session) : Prop where
  stored : ∀ id stored, s.storage.documents.find id = some stored → stored.record.id < s.storage.nextId
  cached : ∀ key entry, s.cached.find key = some entry → entry.record.id < s.storage.nextId

/-- The identities of a callback that started with the next identity `low`. -/
structure Identified (low : Int) (w : Work) : Prop where
  later : low ≤ w.session.storage.nextId
  stored : ∀ id stored, w.session.storage.documents.find id = some stored → stored.record.id < low
  cached : ∀ key entry, w.session.cached.find key = some entry → entry.record.id < low
  changed : ∀ document ∈ w.tx.documents, document.change = none → document.retire = true
  touched : ∀ write ∈ w.tx.writes, ∀ id, touchedDocument write = some id →
    copiedId write = some id ∧ low ≤ id ∧ id < w.session.storage.nextId
  staged : ∀ document ∈ w.tx.documents, document.record.id < w.session.storage.nextId
  apart : ∀ write ∈ w.tx.writes, ∀ document ∈ w.tx.documents, copiedId write ≠ some document.record.id

theorem Session.Bounded.identified {s : Session} (h : s.Bounded) : Identified s.storage.nextId ⟨s, {}⟩ where
  later := le_refl _
  stored := h.stored
  cached := h.cached
  changed _ h := by cases h
  touched _ h := by cases h
  staged _ h := by cases h
  apart _ h := by cases h

variable {entry : CachedDocument}

theorem Session.stored_of_read {storage : StorageState} {definition : DocumentDefinition} {address : DocumentAddress}
    (h : Session.readDocument storage definition address = .ok (some entry)) :
    ∃ id stored, storage.documents.find id = some stored ∧ stored.record = entry.record := by
  obtain ⟨record, committed, value, -, hread, -, rfl⟩ := Session.readDocument_eq_ok h
  simp only [StorageState.document, StorageState.reading] at hread
  split at hread
  · cases hread
  split at hread
  · cases hread
  rename_i stored hstored
  refine ⟨record.id, stored, hstored, ?_⟩
  unfold materialize at hread
  split at hread
  · cases hread
  split at hread
  · cases hread
  split at hread
  · cases hread
  simp only [bind_eq_ok, pure_eq_ok, Option.some.injEq] at hread
  obtain ⟨content, -, rfl⟩ := hread
  rfl

section Identified

variable {low : Int} {w w' : Work}

theorem Identified.below (h : Identified low w) (htx : w'.tx = w.tx)
    (hnext : w.session.storage.nextId ≤ w'.session.storage.nextId)
    (hdocs : w'.session.storage.documents = w.session.storage.documents)
    (hcached : ∀ key entry, w'.session.cached.find key = some entry → entry.record.id < low) : Identified low w' where
  later := h.later.trans hnext
  stored := by
    rw [hdocs]
    exact h.stored
  cached := hcached
  changed := by
    rw [htx]
    exact h.changed
  touched write hwrite id hid := by
    rw [htx] at hwrite
    obtain ⟨hcopied, hlow, hhigh⟩ := h.touched write hwrite id hid
    exact ⟨hcopied, hlow, lt_of_lt_of_le hhigh hnext⟩
  staged document hdoc := by
    rw [htx] at hdoc
    exact lt_of_lt_of_le (h.staged document hdoc) hnext
  apart := by
    rw [htx]
    exact h.apart

theorem Identified.push (h : Identified low w) (writes : List StorageWrite) (count : Nat)
    (hwrites : ∀ write ∈ writes, ∀ id, touchedDocument write = some id →
      copiedId write = some id ∧ w.session.storage.nextId ≤ id ∧ id < w.session.storage.nextId + count)
    (hcopied : ∀ write ∈ writes, ∀ id, copiedId write = some id → touchedDocument write = some id) :
    Identified low { w.advanced count with tx := { w.tx with writes := w.tx.writes ++ writes } } := by
  have hbelow : Identified low (w.advanced count) :=
    h.below rfl (w.session.storage.nextId_le_advanced count) rfl h.cached
  refine { hbelow with touched := fun write hmem id hid => ?_, apart := fun write hmem document
    hdoc hid => ?_ }
  · rcases List.mem_append.1 hmem with hmem | hmem
    · exact hbelow.touched write hmem id hid
    · obtain ⟨hcopy, hlow, hhigh⟩ := hwrites write hmem id hid
      exact ⟨hcopy, h.later.trans hlow, hhigh⟩
  rcases List.mem_append.1 hmem with hmem | hmem
  · exact h.apart write hmem document hdoc hid
  · obtain ⟨-, hlow, -⟩ := hwrites write hmem _ (hcopied write hmem _ hid)
    exact absurd (h.staged document hdoc) (not_lt.2 hlow)

theorem Identified.withDocument (h : Identified low w) {document : StagedDocument}
    (hchanged : document.change = none → document.retire = true)
    (hid : document.record.id < low ∨ document.record.id + 1 = w.session.storage.nextId ∧
      ∀ write ∈ w.tx.writes, copiedId write ≠ some document.record.id) :
    Identified low { w with tx := w.tx.withDocument document } where
  later := h.later
  stored := h.stored
  cached := h.cached
  changed other hother := by
    rcases List.mem_append.1 hother with hother | hother
    · exact h.changed other hother
    rw [List.mem_singleton] at hother
    subst hother
    exact hchanged
  touched := h.touched
  staged other hother := by
    rcases List.mem_append.1 hother with hother | hother
    · exact h.staged other hother
    rw [List.mem_singleton] at hother
    subst hother
    rcases hid with hid | ⟨hid, -⟩
    · exact lt_of_lt_of_le hid h.later
    · rw [← hid]
      exact lt_add_one _
  apart write hwrite other hother := by
    rcases List.mem_append.1 hother with hother | hother
    · exact h.apart write hwrite other hother
    rw [List.mem_singleton] at hother
    subst hother
    rcases hid with hid | ⟨-, hid⟩
    · intro hcopied
      cases write with
      | documentCopy record source =>
        obtain ⟨-, hlow, -⟩ := h.touched _ hwrite _ hcopied
        exact absurd hid (not_lt.2 hlow)
      | _ => cases hcopied
    · exact hid write hwrite

theorem Identified.documents (h : Identified low w) {documents : List StagedDocument} (latest : OrdMap Bytes Nat)
    (hdocs : ∀ document ∈ documents, ∃ before ∈ w.tx.documents,
      document.record = before.record ∧ (document.change = none → before.change = none) ∧
      (before.retire = true → document.retire = true)) : Identified low { w with tx := { w.tx with
      documents := documents, latestDocuments := latest } } where
  later := h.later
  stored := h.stored
  cached := h.cached
  changed document hdoc hchange := by
    obtain ⟨before, hprev, -, hnone, hretire⟩ := hdocs document hdoc
    exact hretire (h.changed before hprev (hnone hchange))
  touched := h.touched
  staged document hdoc := by
    obtain ⟨before, hprev, hrec, -⟩ := hdocs document hdoc
    rw [hrec]
    exact h.staged before hprev
  apart write hwrite document hdoc := by
    obtain ⟨before, hprev, hrec, -⟩ := hdocs document hdoc
    rw [hrec]
    exact h.apart write hwrite before hprev

theorem mem_modify {α : Type} {f : α → α} {index : Nat} {l : List α} {a : α}
    (h : a ∈ l.modify index f) : a ∈ l ∨ ∃ b ∈ l, a = f b := by
  obtain ⟨i, hi⟩ := List.mem_iff_getElem?.1 h
  rw [List.getElem?_modify] at hi
  cases hl : l[i]? with
  | none => simp [hl] at hi
  | some b =>
    have hb := List.mem_of_getElem? hl
    rw [hl] at hi
    split at hi
    · exact Or.inr ⟨b, hb, (Option.some.inj hi).symm⟩
    · exact Or.inl (Option.some.inj hi ▸ hb)

variable {write : StorageWrite}

theorem IsRecord.untouched (h : IsRecord write) : touchedDocument write = none ∧ copiedId write = none := by
  cases write with
  | conversation record | entry record => exact ⟨rfl, rfl⟩
  | _ => exact h.elim

theorem copiedId_touched {id : DocumentId} (h : copiedId write = some id) : touchedDocument write = some id := by
  cases write with
  | documentCopy record source => exact h
  | _ => cases h

theorem Effect.identified (hw : Effect w w') (h : Identified low w) : Identified low w' := by
  have hmint : w.session.storage.nextId ≤ w.minted.session.storage.nextId := w.session.storage.nextId_le_advanced 1
  cases hw with
  | mint => exact h.below rfl hmint rfl h.cached
  | evict key =>
    refine h.below rfl (le_refl _) rfl fun other entry hentry => ?_
    rw [find_erase] at hentry
    split at hentry
    · cases hentry
    · exact h.cached other entry hentry
  | load definition address entry hread =>
    refine h.below rfl (le_refl _) rfl fun other found hfound => ?_
    rcases find_insert_cases hfound with ⟨-, rfl⟩ | hfound
    · obtain ⟨id, stored, hstored, hrec⟩ := Session.stored_of_read hread
      rw [← hrec]
      exact h.stored id stored hstored
    · exact h.cached other found hfound
  | watch watches handles => exact h.below rfl (le_refl _) rfl h.cached
  | record write hwrite =>
    have hpush := h.push [write] 0 (fun other hother id hid => by
        rw [List.mem_singleton.1 hother, hwrite.untouched.1] at hid
        cases hid)
      fun other hother id hid => copiedId_touched hid
    exact hpush.below rfl (by change _ + ((0 : Nat) : Int) ≤ _; simp) rfl h.cached
  | fork writes count hwrites =>
    refine h.push writes count (fun write hwrite id hid => ?_) fun write hwrite id hid => copiedId_touched hid
    rcases hwrites write hwrite with hrec | ⟨record, source, rfl, hlow, hhigh, -⟩
    · rw [hrec.untouched.1] at hid
      cases hid
    · cases hid
      exact ⟨rfl, hlow, hhigh⟩
  | setTask task =>
    refine { h with touched := fun write hmem id hid => ?_, apart := fun write hmem => ?_ }
    · rcases List.mem_append.1 hmem with hmem | hmem
      · exact h.touched write hmem id hid
      · rw [List.mem_singleton.1 hmem] at hid
        cases hid
    rcases List.mem_append.1 hmem with hmem | hmem
    · exact h.apart write hmem
    · rw [List.mem_singleton.1 hmem]
      exact fun _ _ => nofun
  | createTask task hid =>
    have hbelow : Identified low w.minted := h.below rfl hmint rfl h.cached
    refine { hbelow with touched := fun write hmem id hid => ?_, apart := fun write hmem => ?_ }
    · rcases List.mem_append.1 hmem with hmem | hmem
      · exact hbelow.touched write hmem id hid
      · rw [List.mem_singleton.1 hmem] at hid
        cases hid
    rcases List.mem_append.1 hmem with hmem | hmem
    · exact h.apart write hmem
    · rw [List.mem_singleton.1 hmem]
      exact fun _ _ => nofun
  | createSubmission submission hid =>
    have hbelow : Identified low w.minted := h.below rfl hmint rfl h.cached
    exact { hbelow with }
  | changeSubmission change _ => exact { h with }
  | draft index op =>
    refine h.documents w.tx.latestDocuments fun document hdoc => ?_
    rcases mem_modify hdoc with hdoc | ⟨before, hprev, rfl⟩
    · exact ⟨document, hdoc, rfl, id, id⟩
    · exact ⟨before, hprev, rfl, by simp, id⟩
  | acquireLoaded definition address entry hserves hversion hlatest =>
    exact h.withDocument (by simp [Transaction.stagedDraft]) (Or.inl (h.cached _ _ hserves.1))
  | acquireCreated definition address initial =>
    have hbelow : Identified low w.minted := h.below rfl hmint rfl h.cached
    have hid : (definition.documentCreateRecord address w.session.storage.nextId).id = w.session.storage.nextId := by
      unfold DocumentDefinition.documentCreateRecord
      split <;> rfl
    refine hbelow.withDocument (by simp [Transaction.stagedDraft]) (Or.inr ⟨?_, ?_⟩)
    · change (definition.documentCreateRecord address w.session.storage.nextId).id + 1 = _
      rw [hid]
      rfl
    intro write hwrite hcopied
    obtain ⟨-, -, hhigh⟩ := h.touched write hwrite _ (copiedId_touched hcopied)
    change (definition.documentCreateRecord address w.session.storage.nextId).id < _ at hhigh
    rw [hid] at hhigh
    exact lt_irrefl _ hhigh
  | markRetired index document hdoc hretire =>
    refine h.documents _ fun other hother => ?_
    rcases List.mem_or_eq_of_mem_set hother with hother | rfl
    · exact ⟨other, hother, rfl, id, id⟩
    · exact ⟨document, List.mem_of_getElem? hdoc, rfl, id, fun _ => rfl⟩
  | retireLoaded definition address entry hserves =>
    exact h.withDocument (fun _ => rfl) (Or.inl (h.cached _ _ hserves.1))

end Identified

/-! ## Runs -/

namespace StorageState

/-- The stored incarnations lie below the next identity. -/
def DocumentsMinted (s : StorageState) : Prop :=
  ∀ id stored, s.documents.find id = some stored → stored.record.id < s.nextId

section Below

variable {documents : OrdMap DocumentId StoredDocumentState} {batch : List StorageWrite} {seq : Seq}
  {consumeSeq : Bool} {next next' : StorageState}

theorem documentsMinted_addDocument (hbelow : next.DocumentsMinted) (record : DocumentRecord)
    (version : Nat) (value : Json) : (addDocument seq next record version value).DocumentsMinted := by
  intro id stored hfind
  change (next.documents.insert record.id _).find id = some stored at hfind
  rcases find_insert_cases hfind with ⟨-, rfl⟩ | hfind
  · exact lt_of_lt_of_le (lt_add_one _) (le_max_right _ _)
  · exact lt_of_lt_of_le (hbelow id stored hfind) (le_max_left _ _)

theorem applyWrite_documentsMinted {write : StorageWrite}
    (h : applyWrite documents batch seq consumeSeq next write = .ok next')
    (hbelow : next.DocumentsMinted) : next'.DocumentsMinted := by
  have hnext := applyWrite_nextId h
  -- an incarnation that is rewritten in place keeps its identity
  have hrewrite : ∀ id (stored replaced : StoredDocumentState),
      next.documents.find id = some stored → replaced.record.id = stored.record.id →
      ∀ other found, (next.documents.insert id replaced).find other = some found → found.record.id < next.nextId := by
    intro id stored replaced hstored hid other found hfound
    rcases find_insert_cases hfound with ⟨-, rfl⟩ | hfound
    · rw [hid]
      exact hbelow id stored hstored
    · exact hbelow other found hfound
  cases applied h
  case documentCreate r version value hnew hfree => exact documentsMinted_addDocument hbelow r version value
  case documentCopy r source content hnew hfree =>
    exact documentsMinted_addDocument hbelow r content.version content.value
  case documentChange id version value ops stored revisions hstored hlive hrevs =>
    exact hrewrite id stored _ hstored rfl
  case documentRetire id stored hstored hlive => exact hrewrite id stored _ hstored rfl
  all_goals exact fun id stored hfind => lt_of_lt_of_le (hbelow id stored hfind) hnext

end Below

theorem applyNext_documentsMinted {s s' : StorageState} {writes : List StorageWrite}
    (h : s.applyNext writes = .ok s') (hbelow : s.DocumentsMinted) : s'.DocumentsMinted ∧ s.nextId ≤ s'.nextId := by
  obtain ⟨-, next, hwrites, rfl⟩ := applyBatch_eq_ok.1 h
  have hnext := applyWrites_induction (P := fun n => n.DocumentsMinted ∧ s.nextId ≤ n.nextId) (fun _ _ _ _ hok ha =>
      ⟨applyWrite_documentsMinted hok ha.1, ha.2.trans (applyWrite_nextId hok)⟩)
    ⟨hbelow, le_refl _⟩ hwrites
  exact hnext

end StorageState

theorem cached_adopt {documents : List PreparedDocument} {seq : Seq}
    {cached : OrdMap Bytes CachedDocument} {key : Bytes}
    (h : (documents.foldl (PreparedDocument.adopt seq) cached).find key = some entry) :
    cached.find key = some entry ∨ ∃ p ∈ documents, entry.record.id = p.document.record.id := by
  induction documents generalizing cached with
  | nil => exact Or.inl h
  | cons p rest ih =>
    rcases ih h with hfind | ⟨q, hq, hid⟩
    · unfold PreparedDocument.adopt at hfind
      split at hfind
      · exact Or.inl hfind
      rename_i change hchange
      split at hfind
      · rw [find_erase] at hfind
        split at hfind
        · cases hfind
        · exact Or.inl hfind
      rename_i hretire
      rcases find_insert_cases hfind with ⟨-, rfl⟩ | hfind
      · refine Or.inr ⟨p, List.mem_cons_self, ?_⟩
        unfold PreparedDocument.change at hchange
        rw [if_neg hretire] at hchange
        obtain ⟨prepared, -, rfl⟩ := Option.map_eq_some_iff.1 hchange
        split <;> rfl
      · exact Or.inl hfind
    · exact Or.inr ⟨q, List.mem_cons_of_mem _ hq, hid⟩

namespace Session

variable {w : Work}

theorem bounded_of_identified {low : Int} (h : Identified low w) : w.session.Bounded where
  stored id stored hfind := lt_of_lt_of_le (h.stored id stored hfind) h.later
  cached key entry hfind := lt_of_lt_of_le (h.cached key entry hfind) h.later

variable {s : Session} {calls : List Transaction.Call} {storage : StorageState} {assembly : Assembly}

theorem Committed.identified (h : Committed s calls w assembly storage)
    (hbounded : s.Bounded) : Identified s.storage.nextId w :=
  h.effects.invariant (fun _ _ heffect hw => heffect.identified hw) hbounded.identified

theorem Committed.bounded (h : Committed s calls w assembly storage) (hbounded : s.Bounded) : h.after.Bounded := by
  have hw := h.identified hbounded
  obtain ⟨hbelow, hnext⟩ := StorageState.applyNext_documentsMinted h.applied
    fun id stored hfind => lt_of_lt_of_le (hw.stored id stored hfind) hw.later
  obtain ⟨resolved, ha⟩ := assemble_eq_ok h.assembled
  obtain ⟨hdocs, -⟩ := prepareDocuments_eq_ok ha.prepared
  have hstor : h.after.storage = storage := by rw [Committed.after, settle_storage]
  refine ⟨by rw [hstor]; exact hbelow, fun key entry hfind => ?_⟩
  rw [hstor]
  rw [Committed.after, settle_cached] at hfind
  rcases cached_adopt hfind with hfind | ⟨p, hp, hid⟩
  · exact lt_of_lt_of_le (hw.cached key entry hfind) (hw.later.trans hnext)
  have hstaged : p.document ∈ w.tx.documents := by
    rw [← hdocs]
    exact List.mem_map_of_mem hp
  rw [hid]
  exact lt_of_lt_of_le (hw.staged _ hstaged) hnext

theorem kept_bounded : Kept Bounded where
  evict s key h := by
    refine ⟨h.stored, fun other entry hentry => ?_⟩
    rw [find_erase] at hentry
    split at hentry
    · cases hentry
    · exact h.cached other entry hentry
  load s definition address entry hread h := by
    refine ⟨h.stored, fun other found hfound => ?_⟩
    rcases find_insert_cases hfound with ⟨-, rfl⟩ | hfound
    · obtain ⟨id, stored, hstored, hrec⟩ := stored_of_read hread
      rw [← hrec]
      exact h.stored id stored hstored
    · exact h.cached other found hfound
  watch s watches handles h := ⟨h.stored, h.cached⟩

/-- **One step.** -/
theorem step_bounded (h : s.Bounded) (move : Step) : (s.step move).Bounded := by
  cases move with
  | commit calls returned =>
    have hcb : (Transaction.calls ⟨s, {}⟩ calls).session.Bounded :=
      bounded_of_identified ((effects_calls ⟨s, {}⟩ calls).invariant
        (fun _ _ heffect hw => heffect.identified hw) h.identified)
    rcases s.commitNow_cases calls returned with ⟨-, hcase⟩ | ⟨outcome, -, hcase⟩ |
      ⟨-, w, assembly, storage, hc, hcase⟩
    · rw [step, hcase]
      exact h
    · rcases hcase with hcase | hcase
      · rw [step, hcase]
        exact hcb
      · rw [step, hcase]
        exact ⟨hcb.stored, hcb.cached⟩
    · rw [step, hcase]
      exact hc.bounded h
  | call c => exact (kept_bounded.ensures_call c).endState h
  | reopen => exact ⟨h.stored, fun _ _ hfind => by cases hfind⟩

/-- **A run.** -/
theorem bounded_run (h : s.Bounded) (steps : List Step) : (s.run steps).Bounded := by
  induction steps generalizing s with
  | nil => exact h
  | cons move rest ih => exact ih (step_bounded h move)

end Session

/-! ## When a publication is exact -/

section Exactness

variable {w : Work} {assembly : Assembly} {resolved : OrdMap SubmissionId SubmissionRecord} {low : Int}

theorem publishedIds (ha : Assembled w assembly resolved) (hw : Identified low w) (seq : Seq) :
    (assembly.publication seq).changes.filterMap CommitChange.documentId
      = w.tx.documents.map fun document => document.record.id := by
  obtain ⟨hdocs, hprep⟩ := prepareDocuments_eq_ok ha.prepared
  have htables : (assembly.writes.filterMap tableChange).filterMap CommitChange.documentId = [] := by
    rw [List.filterMap_filterMap, List.filterMap_eq_nil_iff]
    intro write _
    cases write <;> simp [tableChange, CommitChange.documentId]
  have hchanges : ∀ documents : List PreparedDocument, (∀ p ∈ documents, p ∈ assembly.documents) →
      ((documents.filterMap fun p => p.change seq).map CommitChange.document).filterMap
          CommitChange.documentId
        = documents.map fun p => p.document.record.id := by
    intro documents hmem
    induction documents with
    | nil => rfl
    | cons p rest ih =>
      have hp := hmem p List.mem_cons_self
      have hstaged : p.document ∈ w.tx.documents := by
        rw [← hdocs]
        exact List.mem_map_of_mem hp
      have hpublishes : p.document.retire = true ∨ p.prepared.isSome := by
        rw [hprep p hp]
        cases hchange : p.document.change with
        | none => exact Or.inl (hw.changed _ hstaged hchange)
        | some change => exact Or.inr rfl
      obtain ⟨change, hchange, hid⟩ := p.change_eq_some hpublishes seq
      have hrest := ih fun q hq => hmem q (List.mem_cons_of_mem _ hq)
      simp only [List.filterMap_cons, hchange, List.map_cons, CommitChange.documentId, hrest, hid]
  rw [Assembly.publication, List.filterMap_append, htables, List.nil_append,
    Assembly.documentChanges, hchanges _ fun p hp => hp, ← hdocs, List.map_map]
  rfl

theorem mem_touched_batch (ha : Assembled w assembly resolved) (hw : Identified low w) {id : DocumentId} :
    id ∈ assembly.writes.filterMap touchedDocument ↔ (∃ write ∈ w.tx.writes, copiedId write = some id) ∨
        ∃ document ∈ w.tx.documents, document.Writes ∧ document.record.id = id := by
  obtain ⟨hdocs, hprep⟩ := prepareDocuments_eq_ok ha.prepared
  have hsubs : (resolved.values.map fun record =>
      StorageWrite.submission (some record)).filterMap touchedDocument = [] := by
    rw [List.filterMap_eq_nil_iff]
    intro write hwrite
    obtain ⟨record, -, rfl⟩ := List.mem_map.1 hwrite
    rfl
  rw [ha.writes, List.filterMap_append, List.filterMap_append, hsubs, List.append_nil, List.mem_append]
  refine or_congr ?_ ?_
  · rw [List.mem_filterMap]
    constructor
    · rintro ⟨write, hwrite, htouched⟩
      exact ⟨write, hwrite, (hw.touched write hwrite id htouched).1⟩
    · rintro ⟨write, hwrite, hcopied⟩
      exact ⟨write, hwrite, copiedId_touched hcopied⟩
  rw [List.filterMap_flatMap, List.mem_flatMap, ← hdocs]
  constructor
  · rintro ⟨p, hp, hid⟩
    obtain ⟨hwrote, hid⟩ := PreparedDocument.mem_touched.1 hid
    exact ⟨p.document, List.mem_map_of_mem hp, (PreparedDocument.written_iff (hprep p hp)).1 hwrote, hid⟩
  rintro ⟨document, hdoc, hwrites, hid⟩
  obtain ⟨p, hp, rfl⟩ := List.mem_map.1 hdoc
  exact ⟨p, hp, PreparedDocument.mem_touched.2 ⟨(PreparedDocument.written_iff (hprep p hp)).2 hwrites, hid⟩⟩

theorem publishedTables (seq : Seq) : (assembly.publication seq).changes.filterMap CommitChange.asTable
      = assembly.writes.filterMap tableChange := by
  have htables : ∀ write change, tableChange write = some change → CommitChange.asTable change = some change := by
    intro write change h
    cases write with
    | conversation record | entry record | task record | submission record => cases record <;> cases h; rfl
    | _ => cases h
  have hdocs : ((assembly.documentChanges seq).map CommitChange.document).filterMap CommitChange.asTable = [] := by
    rw [List.filterMap_eq_nil_iff]
    intro change hchange
    obtain ⟨document, -, rfl⟩ := List.mem_map.1 hchange
    rfl
  rw [Assembly.publication, List.filterMap_append, hdocs, List.append_nil, List.filterMap_filterMap]
  congr 1
  funext write
  cases hchange : tableChange write with
  | none => rfl
  | some change => exact htables write change hchange

/-- The publication of an assembly is exact when its transaction is publishable, and only then. -/
theorem exact_iff_publishable (ha : Assembled w assembly resolved) (hw : Identified low w) (seq : Seq) :
    PublishesExactly assembly.writes (assembly.publication seq) ↔ w.tx.Publishable := by
  constructor
  · rintro ⟨-, honce, hdocs⟩
    rw [publishedIds ha hw] at honce hdocs
    refine ⟨fun write hwrite => ?_, fun document hdoc => ?_, honce⟩
    · -- a copy is touched and not published
      cases hcopied : copiedId write with
      | none => rfl
      | some id =>
        have hpublished := (hdocs id).2 ((mem_touched_batch ha hw).2 (Or.inl ⟨write, hwrite, hcopied⟩))
        obtain ⟨document, hdoc, rfl⟩ := List.mem_map.1 hpublished
        exact absurd hcopied (hw.apart write hwrite document hdoc)
    -- a staged document is published, so its incarnation is touched, and only by itself
    have htouched := (hdocs document.record.id).1 (List.mem_map.2 ⟨document, hdoc, rfl⟩)
    rcases (mem_touched_batch ha hw).1 htouched with ⟨write, hwrite, hcopied⟩ | ⟨other, hother, hwrites, hid⟩
    · exact absurd hcopied (hw.apart write hwrite document hdoc)
    · rwa [← List.inj_on_of_nodup_map honce hother hdoc hid]
  · rintro ⟨huncopied, hwrites, hdist⟩
    refine ⟨publishedTables seq, ?_, fun id => ?_⟩
    · rwa [publishedIds ha hw]
    rw [publishedIds ha hw, mem_touched_batch ha hw, List.mem_map]
    constructor
    · rintro ⟨document, hdoc, hid⟩
      exact Or.inr ⟨document, hdoc, hwrites document hdoc, hid⟩
    rintro (⟨write, hwrite, hcopied⟩ | ⟨document, hdoc, -, hid⟩)
    · rw [huncopied write hwrite] at hcopied
      cases hcopied
    · exact ⟨document, hdoc, hid⟩

end Exactness

/-- **When the publication of a commit is exact.** After every run over a storage whose incarnations
lie below its next identity, the publication of a committed transaction is exact if and only if the
transaction copies no document, writes every document it staged and stages no incarnation twice. -/
theorem Session.publication_exact_iff (storage : StorageState) (hstorage : storage.DocumentsMinted)
    (before : List Session.Step) (calls : List Transaction.Call) (publication : CommitPublication)
    (after : Session) (assembly : Assembly)
    (hcommit : (Session.run { storage := storage } before).commitNow calls (.ok ()) = (.committed publication, after))
    (hassembly : Transaction.assemble
      (Transaction.calls ⟨Session.run { storage := storage } before, {}⟩ calls) = .ok assembly) :
    PublishesExactly assembly.writes publication ↔
      (Transaction.calls ⟨Session.run { storage := storage } before, {}⟩ calls).tx.Publishable := by
  have hstart : Session.Bounded { storage := storage } := ⟨hstorage, fun _ _ hfind => by cases hfind⟩
  have hbounded := Session.bounded_run hstart before
  obtain ⟨w, assembled, committed, hc, rfl, -⟩ := Session.committed_of_publication hcommit
  rw [← hc.callback] at hassembly ⊢
  rw [hc.assembled] at hassembly
  cases hassembly
  obtain ⟨resolved, ha⟩ := assemble_eq_ok hc.assembled
  exact exact_iff_publishable ha (hc.identified hbounded) _

/-- A Session document that starts as an empty object. -/
def note : DocumentDefinition := { kind := "note", initial := ⟨.object [], Json.wf_empty⟩ }

/-- The Session after the note and the root conversation are committed. -/
def noteSession : Session :=
  Session.run { storage := {} } [.commit [.createRootConversation, .doc note {}] (.ok ())]

def writeNote : List Transaction.Call :=
  [.doc note {}, .draft 0 (.set [.key "text"] ⟨.null, Json.wf_null⟩)]

/-- The note is acquired and left alone beside a new conversation. -/
def readNote : List Transaction.Call := [.doc note {}, .createConversation]

theorem StorageState.documentsMinted_empty : ({} : StorageState).DocumentsMinted := fun _ _ hfind => by cases hfind

/-- A changed note is published with the write it makes. -/
theorem writeNote_exact : ∃ assembly publication after,
    Transaction.assemble (Transaction.calls ⟨noteSession, {}⟩ writeNote) = .ok assembly ∧
      noteSession.commitNow writeNote (.ok ()) = (.committed publication, after) ∧
      PublishesExactly assembly.writes publication := by
  refine ⟨_, _, _, rfl, rfl, ?_⟩
  refine (Session.publication_exact_iff {} StorageState.documentsMinted_empty
    [.commit [.createRootConversation, .doc note {}] (.ok ())] writeNote _ _ _ rfl rfl).2 ?_
  refine ⟨by decide, fun document hdocument => ?_, by decide⟩
  change document ∈ [_] at hdocument
  rw [List.mem_singleton] at hdocument
  subst hdocument
  exact Or.inr (Or.inr (Or.inr ⟨_, rfl, by decide⟩))

/-- The note that was left alone is published although the batch does not touch it. -/
theorem readNote_inexact : ∃ assembly publication after,
    Transaction.assemble (Transaction.calls ⟨noteSession, {}⟩ readNote) = .ok assembly ∧
      noteSession.commitNow readNote (.ok ()) = (.committed publication, after) ∧
      ¬ PublishesExactly assembly.writes publication := by
  refine ⟨_, _, _, rfl, rfl, fun h => ?_⟩
  have hpublished := (h.documents 2).1 (by decide)
  exact absurd hpublished (by decide)

end CodingHarness.Durable
