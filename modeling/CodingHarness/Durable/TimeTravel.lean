import CodingHarness.Durable.StorageState

/-!
# Reading documents in the past

A rewindable document answers for every commit of the past. `Coherent` is the invariant of a revision
list: it starts with a base and every delta continues the revision before it, so replaying from the
newest base gives the newest cached value. `After` compares a state with a later one: later commits
only append revisions, retirements and incarnations with later sequences. Together they make the past
stable (`document_asOf_stable`).
-/

namespace CodingHarness.Durable

open Library Support Chord

/-! ## Revision lists -/

/-- A revision that is a base, or a delta that turns the value before it into its own. -/
def Continues (previous revision : DocumentRevision) : Prop := revision.base = true ∨
    (revision.version = previous.version ∧ applyImmutable previous.value revision.ops = .ok revision.value)

/-- A revision list, newest first, that starts with a base and continues from there. -/
def Coherent : List DocumentRevision → Prop
  | [] => False
  | [first] => first.base = true
  | revision :: previous :: older => Continues previous revision ∧ Coherent (previous :: older)

theorem Coherent.cons {revision : DocumentRevision} {older : List DocumentRevision}
    (h : Coherent older) (hnext : ∀ previous, older.head? = some previous →
      Continues previous revision) : Coherent (revision :: older) := by
  cases older with
  | nil => exact h.elim
  | cons previous older => exact ⟨hnext previous rfl, h⟩

variable {newest : DocumentRevision}

/-- Replaying from the newest base reaches the newest value, in the newest version. -/
theorem newestBase_of_coherent {older : List DocumentRevision}
    (h : Coherent (newest :: older)) (batches : List OpBatch) :
    ∃ base replay, newestBase (newest :: older) batches = some (base, replay) ∧ base.version = newest.version ∧
      applyImmutableBatches base.value replay = applyImmutableBatches newest.value batches := by
  induction older generalizing newest batches with
  | nil =>
    have hbase : newest.base = true := h
    exact ⟨newest, batches, by simp [newestBase, hbase], rfl, rfl⟩
  | cons previous older ih =>
    obtain ⟨hnext, hrest⟩ := h
    by_cases hbase : newest.base = true
    · exact ⟨newest, batches, by simp [newestBase, hbase], rfl, rfl⟩
    obtain ⟨hversion, happly⟩ := hnext.resolve_left hbase
    obtain ⟨base, replay, hfind, hbaseVersion, hvalue⟩ := ih hrest (newest.ops :: batches)
    refine ⟨base, replay, ?_, by rw [hbaseVersion, hversion], ?_⟩
    · rw [newestBase, if_neg hbase]
      exact hfind
    · rw [hvalue, applyImmutableBatches, happly]
      rfl

variable {stored : StoredDocumentState}

/-- The current content of a coherent unretired document is its newest revision. -/
theorem materialize_current
    (hlive : stored.record.retiredAt = none) (hcoh : Coherent stored.revisions.reverse)
    (hnewest : stored.revisions.getLast? = some newest) :
    ∃ deltas, materialize stored none = .ok (some ⟨stored.record, newest.version, newest.value, deltas⟩) := by
  obtain ⟨older, hsplit⟩ : ∃ older, stored.revisions.reverse = newest :: older := by
    rw [← List.head?_reverse] at hnewest
    exact ⟨_, List.eq_cons_of_mem_head? hnewest⟩
  rw [hsplit] at hcoh
  obtain ⟨base, replay, hfind, hversion, hvalue⟩ := newestBase_of_coherent hcoh []
  refine ⟨replay.length, ?_⟩
  have halive : isAliveAt stored.record none = true := by simp [isAliveAt, hlive]
  simp only [materialize, halive, selectedRevisions, hsplit, hfind, hvalue, hversion]
  rfl

namespace StorageState

/-! ## What a write does to the documents -/

/-- The record a write creates a document with. -/
def createdRecord : StorageWrite → Option DocumentRecord
  | .documentCreate record _ _ | .documentCopy record _ => record
  | _ => none

section Step

variable {documents : OrdMap DocumentId StoredDocumentState} {batch : List StorageWrite} {seq : Seq}
  {consumeSeq : Bool} {next next' : StorageState}

/-- A write leaves the documents alone, adds an incarnation with one base, extends the revisions of
an unretired incarnation or retires one. -/
theorem applyWrite_documents {write : StorageWrite}
    (h : applyWrite documents batch seq consumeSeq next write = .ok next') :
    next'.documents = next.documents ∨ (∃ record version value, createdRecord write = some record ∧
        next.documents.find record.id = none ∧ next'.documents = next.documents.insert record.id
          ⟨{ record with createdAt := seq }, [⟨seq, version, true, value, []⟩]⟩) ∨
      (∃ id stored version content ops revisions, next.documents.find id = some stored ∧
        stored.record.retiredAt = none ∧
        changedRevisions seq stored version content ops = .ok revisions ∧
        next'.documents = next.documents.insert id ⟨stored.record, revisions⟩) ∨
      (∃ id stored, next.documents.find id = some stored ∧ stored.record.retiredAt = none ∧
        next'.documents = next.documents.insert id
          ⟨{ stored.record with retiredAt := some seq }, keptRevisions stored⟩) := by
  cases applied h
  case documentCreate r version value hnew hfree =>
    rw [OrdMap.contains_eq_false_iff] at hnew
    exact Or.inr (Or.inl ⟨r, version, value, rfl, hnew, rfl⟩)
  case documentCopy r source content hnew hfree =>
    rw [OrdMap.contains_eq_false_iff] at hnew
    exact Or.inr (Or.inl ⟨r, _, _, rfl, hnew, rfl⟩)
  case documentChange id version value ops stored revisions hfind hlive hchanged =>
    exact Or.inr (Or.inr (Or.inl ⟨id, stored, _, _, _, revisions, hfind, hlive, hchanged, rfl⟩))
  case documentRetire id stored hfind hlive =>
    exact Or.inr (Or.inr (Or.inr ⟨id, stored, hfind, hlive, rfl⟩))
  all_goals exact Or.inl rfl

/-- A change keeps a coherent list coherent and only appends revisions of its own sequence. -/
theorem changedRevisions_spec {version : Nat}
    {content : Option Json} {ops : OpBatch} {revisions : List DocumentRevision}
    (hcoh : Coherent stored.revisions.reverse) (h : changedRevisions seq stored version content ops = .ok revisions) :
    Coherent revisions.reverse ∧ ∃ kept revision, revisions = kept ++ [revision] ∧ revision.seq = seq ∧
        (kept = stored.revisions ∨ (documentIsCurrentOnly stored.record = true ∧ kept = [])) := by
  rcases changedRevisions_eq_ok.1 h with ⟨-, value, -, rfl⟩ | ⟨-, newest, applied, hnewest, hversion, happly, rfl⟩
  · rw [keptRevisions]
    split
    · rename_i hcur
      exact ⟨rfl, [], _, rfl, rfl, Or.inr ⟨hcur, rfl⟩⟩
    refine ⟨?_, stored.revisions, _, rfl, rfl, Or.inl rfl⟩
    rw [List.reverse_append]
    exact hcoh.cons fun _ _ => Or.inl rfl
  refine ⟨?_, stored.revisions, _, rfl, rfl, Or.inl rfl⟩
  rw [List.reverse_append]
  refine hcoh.cons fun previous hprevious => Or.inr ?_
  rw [List.head?_reverse, hnewest] at hprevious
  cases hprevious
  exact ⟨hversion.symm, happly⟩

end Step

/-! ## The document invariant -/

/-- Every stored document dates from before `bound`, and an unretired one is coherent. -/
structure DocumentsBelow (bound : Seq) (s : StorageState) : Prop where
  created : ∀ id stored, s.documents.find id = some stored → stored.record.createdAt < bound
  retired : ∀ id stored r, s.documents.find id = some stored → stored.record.retiredAt = some r → r < bound
  revised : ∀ id stored, s.documents.find id = some stored → ∀ revision ∈ stored.revisions, revision.seq < bound
  coherent : ∀ id stored, s.documents.find id = some stored → stored.record.retiredAt = none →
    Coherent stored.revisions.reverse

theorem DocumentsBelow.mono {a b : Seq} {s : StorageState} (h : DocumentsBelow a s) (hab : a ≤ b) :
    DocumentsBelow b s where
  created id stored hs := lt_of_lt_of_le (h.created id stored hs) hab
  retired id stored r hs hr := lt_of_lt_of_le (h.retired id stored r hs hr) hab
  revised id stored hs revision hr := lt_of_lt_of_le (h.revised id stored hs revision hr) hab
  coherent := h.coherent

theorem DocumentsBelow.insert {bound : Seq} {next next' : StorageState} (h : DocumentsBelow bound next)
    {id : DocumentId} (heq : next'.documents = next.documents.insert id stored)
    (hmade : stored.record.createdAt < bound) (hret : ∀ r, stored.record.retiredAt = some r → r < bound)
    (hrevised : ∀ revision ∈ stored.revisions, revision.seq < bound)
    (hcoh : stored.record.retiredAt = none → Coherent stored.revisions.reverse) : DocumentsBelow bound next' := by
  have hcases : ∀ id' stored', next'.documents.find id' = some stored' →
      stored' = stored ∨ next.documents.find id' = some stored' := by
    intro id' stored' hfind
    rw [heq, OrdMap.find_insert] at hfind
    split at hfind
    · exact Or.inl (Option.some.inj hfind).symm
    · exact Or.inr hfind
  refine ⟨?_, ?_, ?_, ?_⟩
  · intro id' stored' hfind
    rcases hcases id' stored' hfind with rfl | hold
    · exact hmade
    · exact h.created id' stored' hold
  · intro id' stored' r hfind hr
    rcases hcases id' stored' hfind with rfl | hold
    · exact hret r hr
    · exact h.retired id' stored' r hold hr
  · intro id' stored' hfind
    rcases hcases id' stored' hfind with rfl | hold
    · exact hrevised
    · exact h.revised id' stored' hold
  · intro id' stored' hfind hlive
    rcases hcases id' stored' hfind with rfl | hold
    · exact hcoh hlive
    · exact h.coherent id' stored' hold hlive

/-- A created record that carries a retirement carries one that is over by its commit; the source
stamps `created_at` on it and keeps the `retired_at` of its caller. -/
def Stamped (seq : Seq) (write : StorageWrite) : Prop := ∀ record, createdRecord write = some record →
    ∀ retired, record.retiredAt = some retired → retired ≤ seq

/-- A run of stamped batches; the first one has sequence `seq`. -/
def StampedRun : Seq → List (List StorageWrite) → Prop
  | _, [] => True
  | seq, batch :: rest => (∀ write ∈ batch, Stamped seq write) ∧ StampedRun (seq + 1) rest

section Step

variable {documents : OrdMap DocumentId StoredDocumentState} {batch : List StorageWrite} {seq : Seq}
  {consumeSeq : Bool} {next next' : StorageState}

theorem DocumentsBelow.applyWrite {write : StorageWrite} (hwrite : Stamped seq write)
    (hinv : DocumentsBelow (seq + 1) next) (h : applyWrite documents batch seq consumeSeq next write = .ok next') :
    DocumentsBelow (seq + 1) next' := by
  rcases applyWrite_documents h with hsame | ⟨record, version, value, hmade, -, heq⟩ |
    ⟨id, stored, version, content, ops, revisions, hfind, hlive, hchanged, heq⟩ |
    ⟨id, stored, hfind, hlive, heq⟩
  · exact ⟨by rw [hsame]; exact hinv.created, by rw [hsame]; exact hinv.retired,
      by rw [hsame]; exact hinv.revised, by rw [hsame]; exact hinv.coherent⟩
  · refine hinv.insert heq (by simp) ?_ (by simp) (fun _ => rfl)
    intro r hr
    exact Int.lt_add_one_iff.2 (hwrite record hmade r hr)
  · obtain ⟨hcoh, kept, revision, rfl, hseq, hkept⟩ :=
      changedRevisions_spec (hinv.coherent id stored hfind hlive) hchanged
    refine hinv.insert heq (hinv.created id stored hfind) (hinv.retired id stored · hfind) ?_ (fun _ => hcoh)
    intro r hr
    rcases List.mem_append.1 hr with hr | hr
    · rcases hkept with rfl | ⟨-, rfl⟩
      · exact hinv.revised id stored hfind r hr
      · cases hr
    · rw [List.mem_singleton.1 hr, hseq]
      exact lt_add_one seq
  · refine hinv.insert heq (hinv.created id stored hfind) ?_ ?_ ?_
    · intro r hr
      cases hr
      exact lt_add_one seq
    · intro revision hr
      rw [keptRevisions] at hr
      split at hr
      · cases hr
      · exact hinv.revised id stored hfind revision hr
    · intro hnone
      cases hnone

end Step

/-! ## Later states -/

/-- What later commits may do to one document: nothing they do dates from `point` or before. -/
inductive AfterDocument (point : Seq) : Option StoredDocumentState → Option StoredDocumentState → Prop
  | absent : AfterDocument point none none
  | created {b : StoredDocumentState} (later : point < b.record.createdAt) :
      AfterDocument point none (some b)
  | kept {a b : StoredDocumentState} (createdAt : b.record.createdAt = a.record.createdAt)
      (currentOnly : documentIsCurrentOnly b.record = documentIsCurrentOnly a.record)
      (retired : b.record.retiredAt = a.record.retiredAt ∨
        (a.record.retiredAt = none ∧ ∃ r, b.record.retiredAt = some r ∧ point < r))
      (revisions : documentIsCurrentOnly a.record = false →
        ∃ later, b.revisions = a.revisions ++ later ∧ ∀ revision ∈ later, point < revision.seq) :
      AfterDocument point (some a) (some b)

theorem AfterDocument.refl (point : Seq) (a : Option StoredDocumentState) : AfterDocument point a a := by
  cases a with
  | none => exact .absent
  | some a => exact .kept rfl rfl (Or.inl rfl) fun _ => ⟨[], by simp, by simp⟩

/-- Every document of `u` is a later form of the document of `t`. -/
def After (point : Seq) (t u : StorageState) : Prop :=
  ∀ id, AfterDocument point (t.documents.find id) (u.documents.find id)

section Step

variable {documents : OrdMap DocumentId StoredDocumentState} {batch : List StorageWrite} {seq point : Seq}
  {consumeSeq : Bool} {t next next' : StorageState}

theorem After.applyWrite {write : StorageWrite} (hpoint : point < seq) (hafter : After point t next)
    (hinv : DocumentsBelow (seq + 1) next) (h : applyWrite documents batch seq consumeSeq next write = .ok next') :
    After point t next' := by
  intro id
  rcases applyWrite_documents h with hsame | ⟨record, version, value, -, hnew, heq⟩ |
    ⟨id', stored, version, content, ops, revisions, hfind, hlive, hchanged, heq⟩ |
    ⟨id', stored, hfind, hlive, heq⟩
  · rw [hsame]
    exact hafter id
  · rw [heq, OrdMap.find_insert]
    split
    · rename_i hid
      have hold := hafter id
      rw [hid, hnew] at hold
      rw [hid]
      generalize t.documents.find record.id = a at hold
      cases hold
      exact .created hpoint
    · exact hafter id
  · rw [heq, OrdMap.find_insert]
    split
    · rename_i hid
      have hold := hafter id
      rw [hid, hfind] at hold
      rw [hid]
      obtain ⟨-, kept, revision, rfl, hseq, hkept⟩ :=
        changedRevisions_spec (hinv.coherent id' stored hfind hlive) hchanged
      generalize t.documents.find id' = a at hold
      cases hold with
      | created later => exact .created later
      | @kept a _ createdAt currentOnly retired hrevs =>
        refine .kept createdAt currentOnly retired ?_
        intro hrewind
        obtain ⟨later, hlater, hseqs⟩ := hrevs hrewind
        have hkept' : kept = stored.revisions := by
          rcases hkept with hkept | ⟨hcur, -⟩
          · exact hkept
          · rw [currentOnly, hrewind] at hcur
            cases hcur
        refine ⟨later ++ [revision], by simp [hkept', hlater], ?_⟩
        intro r hr
        rcases List.mem_append.1 hr with hr | hr
        · exact hseqs r hr
        · rw [List.mem_singleton.1 hr, hseq]
          exact hpoint
    · exact hafter id
  · rw [heq, OrdMap.find_insert]
    split
    · rename_i hid
      have hold := hafter id
      rw [hid, hfind] at hold
      rw [hid]
      generalize t.documents.find id' = a at hold
      cases hold with
      | created later => exact .created later
      | @kept a _ createdAt currentOnly retired hrevs =>
        have hunretired : a.record.retiredAt = none := by
          rcases retired with hr | ⟨hr, -⟩
          · rw [← hr, hlive]
          · exact hr
        refine .kept createdAt ?_ (Or.inr ⟨hunretired, seq, rfl, hpoint⟩) ?_
        · rw [← currentOnly]
          rfl
        intro hrewind
        rw [keptRevisions, currentOnly, hrewind]
        exact hrevs hrewind
    · exact hafter id

end Step

/-! ## Runs of commits -/

/-- A run of `apply_next` batches. -/
inductive Commits : StorageState → List (List StorageWrite) → StorageState → Prop where
  | done (s : StorageState) : Commits s [] s
  | step {s s' s'' : StorageState} {batch : List StorageWrite} {rest : List (List StorageWrite)}
      (ok : s.applyNext batch = .ok s') (run : Commits s' rest s'') : Commits s (batch :: rest) s''

variable {batch : List StorageWrite} {s s' : StorageState}

theorem applyNext_nextSeq (h : s.applyNext batch = .ok s') : s'.nextSeq = s.nextSeq + 1 := by
  obtain ⟨-, next, -, rfl⟩ := applyBatch_eq_ok.1 h
  exact max_eq_right (le_of_lt (lt_add_one s.nextSeq))

theorem DocumentsBelow.applyNext
    (hwrites : ∀ write ∈ batch, Stamped s.nextSeq write) (hinv : DocumentsBelow s.nextSeq s)
    (h : s.applyNext batch = .ok s') : DocumentsBelow s'.nextSeq s' := by
  rw [applyNext_nextSeq h]
  obtain ⟨-, next, hnext, rfl⟩ := applyBatch_eq_ok.1 h
  have hbelow : DocumentsBelow (s.nextSeq + 1) next :=
    applyWrites_induction (fun write hmem _ _ hok hinv => hinv.applyWrite (hwrites write hmem) hok)
      (hinv.mono (le_of_lt (lt_add_one s.nextSeq))) hnext
  exact ⟨hbelow.created, hbelow.retired, hbelow.revised, hbelow.coherent⟩

variable {point : Seq}

theorem After.applyNext {t s s' : StorageState}
    (hwrites : ∀ write ∈ batch, Stamped s.nextSeq write) (hpoint : point < s.nextSeq)
    (hinv : DocumentsBelow s.nextSeq s) (hafter : After point t s) (h : s.applyNext batch = .ok s') :
    After point t s' := by
  obtain ⟨-, next, hnext, rfl⟩ := applyBatch_eq_ok.1 h
  have hstart : DocumentsBelow (s.nextSeq + 1) s := hinv.mono (le_of_lt (lt_add_one s.nextSeq))
  have hboth : DocumentsBelow (s.nextSeq + 1) next ∧ After point t next :=
    applyWrites_induction (P := fun n => DocumentsBelow (s.nextSeq + 1) n ∧ After point t n)
      (fun write hmem _ _ hok hinv =>
        ⟨hinv.1.applyWrite (hwrites write hmem) hok, hinv.2.applyWrite hpoint hinv.1 hok⟩)
      ⟨hstart, hafter⟩ hnext
  exact hboth.2

variable {batches : List (List StorageWrite)}

theorem Commits.documentsBelow {s u : StorageState}
    (run : Commits s batches u) (hstamp : StampedRun s.nextSeq batches)
    (hinv : DocumentsBelow s.nextSeq s) : DocumentsBelow u.nextSeq u := by
  induction run with
  | done s => exact hinv
  | step ok run ih =>
    apply ih
    · rw [applyNext_nextSeq ok]
      exact hstamp.2
    · exact hinv.applyNext hstamp.1 ok

theorem Commits.stamped_append {s t : StorageState} {before after : List (List StorageWrite)}
    (run : Commits s before t) (hstamp : StampedRun s.nextSeq (before ++ after)) :
    StampedRun s.nextSeq before ∧ StampedRun t.nextSeq after := by
  induction run with
  | done s => exact ⟨trivial, hstamp⟩
  | step ok run ih =>
    rw [applyNext_nextSeq ok] at ih
    obtain ⟨hprev, hafter⟩ := ih hstamp.2
    exact ⟨⟨hstamp.1, hprev⟩, hafter⟩

theorem Commits.after {t s u : StorageState} (run : Commits s batches u) (hstamp : StampedRun s.nextSeq batches)
    (hpoint : point < s.nextSeq) (hinv : DocumentsBelow s.nextSeq s) (hafter : After point t s) :
    After point t u := by
  induction run with
  | done s => exact hafter
  | step ok run ih =>
    apply ih
    · rw [applyNext_nextSeq ok]
      exact hstamp.2
    · rw [applyNext_nextSeq ok]
      exact lt_trans hpoint (lt_add_one _)
    · exact hinv.applyNext hstamp.1 ok
    · exact hafter.applyNext hstamp.1 hpoint hinv ok

theorem documentsBelow_initial (closedMessage : Bytes) : DocumentsBelow 1 { closedMessage := closedMessage } := by
  refine ⟨?_, ?_, ?_, ?_⟩ <;> intro id stored <;> simp

/-! ## The past is stable -/

/-- What a read says about the content: absence, or version and value. -/
def content (read : Expected (Option StoredDocument)) : Expected (Option (Nat × Json)) :=
  read.map fun stored => stored.map fun document => (document.version, document.value)

theorem takeWhile_append_later {revisions later : List DocumentRevision}
    (hold : ∀ revision ∈ revisions, revision.seq ≤ point) (hlater : ∀ revision ∈ later, point < revision.seq) :
    (revisions ++ later).takeWhile (fun revision => decide (revision.seq ≤ point)) = revisions := by
  rw [List.takeWhile_append_of_pos (by simpa using hold)]
  cases later with
  | nil => simp
  | cons revision rest =>
    have := hlater revision List.mem_cons_self
    rw [List.takeWhile_cons_of_neg (by simpa using this), List.append_nil]

theorem AfterDocument.content_eq {a b : StoredDocumentState}
    (h : AfterDocument point (some a) (some b)) (hmade : a.record.createdAt ≤ point)
    (hret : ∀ r, a.record.retiredAt = some r → r ≤ point) (hrevised : ∀ revision ∈ a.revisions, revision.seq ≤ point)
    (hcoh : a.record.retiredAt = none → Coherent a.revisions.reverse)
    (hrewind : documentIsCurrentOnly b.record = false) :
    content (materialize b (some point)) = content (materialize a none) := by
  cases h with
  | kept createdAt currentOnly retired hrevs =>
    rw [currentOnly] at hrewind
    obtain ⟨later, hlater, hseqs⟩ := hrevs hrewind
    have halive : isAliveAt b.record (some point) = isAliveAt a.record none := by
      rw [isAliveAt, isAliveAt, createdAt, decide_eq_true hmade, Bool.true_and]
      rcases retired with hr | ⟨hnone, r, hr, hpoint⟩
      · rw [hr]
        cases hra : a.record.retiredAt with
        | none => rfl
        | some r =>
          have := hret r hra
          simpa using this
      · rw [hr, hnone]
        simpa using hpoint
    have hselected : selectedRevisions b.revisions (some point) = selectedRevisions a.revisions none := by
      rw [selectedRevisions, selectedRevisions, hlater]
      exact takeWhile_append_later hrevised hseqs
    have hcur : documentIsCurrentOnly b.record = false := by rw [currentOnly, hrewind]
    simp only [materialize, hcur, halive, hselected, Bool.and_false, Option.isSome_none, Bool.false_and]
    cases hlive : isAliveAt a.record none with
    | false => rfl
    | true =>
      have hnone : a.record.retiredAt = none := by simpa [isAliveAt] using hlive
      obtain ⟨newest, older, hsplit⟩ : ∃ newest older, a.revisions.reverse = newest :: older := by
        cases hrev : a.revisions.reverse with
        | nil =>
          have := hcoh hnone
          rw [hrev] at this
          exact this.elim
        | cons newest older => exact ⟨newest, older, rfl⟩
      have hchain := hcoh hnone
      rw [hsplit] at hchain
      obtain ⟨base, replay, hfind, -, hvalue⟩ := newestBase_of_coherent hchain []
      simp only [selectedRevisions, hsplit, hfind, hvalue]
      rfl

theorem After.content_document {t u : StorageState} (hafter : After point t u)
    (hbelow : DocumentsBelow (point + 1) t) (ht : t.closed = false) (hu : u.closed = false)
    {id : DocumentId} (hrewind : ∀ stored, u.documents.find id = some stored →
      documentIsCurrentOnly stored.record = false) :
    content (u.document id (some point)) = content (t.document id none) := by
  have hdoc := hafter id
  have hrewind' := hrewind
  simp only [document, reading, ht, hu]
  cases hfindU : u.documents.find id with
  | none =>
    rw [hfindU] at hdoc
    generalize t.documents.find id = a at hdoc
    cases hdoc
    rfl
  | some b =>
    have hb := hrewind b hfindU
    rw [hfindU] at hdoc
    cases hfindT : t.documents.find id with
    | none =>
      rw [hfindT] at hdoc
      cases hdoc with
      | created later =>
        have hdead : isAliveAt b.record (some point) = false := by
          rw [isAliveAt, decide_eq_false (not_le.2 later), Bool.false_and]
        simp [materialize, hb, hdead]
    | some a =>
      rw [hfindT] at hdoc
      exact hdoc.content_eq (Int.lt_add_one_iff.1 (hbelow.created id a hfindT))
        (fun r hr => Int.lt_add_one_iff.1 (hbelow.retired id a r hfindT hr))
        (fun r hr => Int.lt_add_one_iff.1 (hbelow.revised id a hfindT r hr))
        (hbelow.coherent id a hfindT) hb

theorem Commits.isOpen {s u : StorageState} (run : Commits s batches u) (hopen : s.closed = false) :
    u.closed = false := by
  induction run with
  | done s => exact hopen
  | step ok run ih => exact ih (applyBatch_closed ok)

/-- **The past is stable and the present is the newest revision.** After any further commits, a
rewindable document read at the sequence of an earlier commit has the content it currently had right
after that commit; and in every state of the run the current content of an unretired document is its
newest revision. -/
theorem document_asOf_stable {closedMessage : Bytes} {before after : List (List StorageWrite)}
    {batch : List StorageWrite} {s t u : StorageState} (hbefore : Commits { closedMessage := closedMessage } before s)
    (hbatch : s.applyNext batch = .ok t) (hafter : Commits t after u)
    (hstamp : StampedRun 1 (before ++ batch :: after)) :
    (∀ id, (∀ stored, u.documents.find id = some stored → documentIsCurrentOnly stored.record = false) →
      content (u.document id (some s.nextSeq)) = content (t.document id none)) ∧
    ∀ id stored, u.documents.find id = some stored → stored.record.retiredAt = none →
      ∃ newest deltas, stored.revisions.getLast? = some newest ∧
        u.document id none = .ok (some ⟨stored.record, newest.version, newest.value, deltas⟩) := by
  obtain ⟨hstampBefore, hstampBatch, hstampAfter⟩ := hbefore.stamped_append hstamp
  have hs : DocumentsBelow s.nextSeq s := hbefore.documentsBelow hstampBefore (documentsBelow_initial closedMessage)
  have ht : DocumentsBelow t.nextSeq t := hs.applyNext hstampBatch hbatch
  have htOpen : t.closed = false := applyBatch_closed hbatch
  have huOpen : u.closed = false := hafter.isOpen htOpen
  have hseq := applyNext_nextSeq hbatch
  rw [← hseq] at hstampAfter
  refine ⟨?_, ?_⟩
  · intro id hrewind
    have hlater : After s.nextSeq t u := hafter.after hstampAfter (by rw [hseq]; exact lt_add_one _) ht
        (fun id => AfterDocument.refl _ _)
    exact hlater.content_document (by rw [← hseq]; exact ht) htOpen huOpen hrewind
  intro id stored hfind hlive
  have hcoherent := (hafter.documentsBelow hstampAfter ht).coherent id stored hfind hlive
  obtain ⟨newest, hnewest⟩ : ∃ newest, stored.revisions.getLast? = some newest := by
    cases hlast : stored.revisions.getLast? with
    | some newest => exact ⟨newest, rfl⟩
    | none =>
      rw [List.getLast?_eq_none_iff.1 hlast] at hcoherent
      exact hcoherent.elim
  obtain ⟨deltas, hread⟩ := materialize_current hlive hcoherent hnewest
  exact ⟨newest, deltas, hnewest, by simp [document, reading, huOpen, hfind, hread]⟩

/-- A rewindable note written once and then changed by a delta. -/
def noteRun : List (List StorageWrite) := [[.conversation (some { id := 2 }),
      .documentCreate (some { id := 3, conversationId := some 2, history := .rewindable }) 1
        (some (.object [("text", .string "a")]))],
    [.documentChange (some 3) 1 none [.append [.key "text"] "b"]],
    [.documentRetire (some 3)]]

/-- A state after a batch, or the initial state when the batch is rejected. -/
def committed (s : StorageState) (batch : List StorageWrite) : StorageState := match s.applyNext batch with
  | .ok s' => s'
  | .error _ => {}

/-- The note at its first commit, read after the change and the retirement. -/
theorem noteRun_asOf_first :
    content ((((committed {} noteRun[0]).committed noteRun[1]).committed noteRun[2]).document 3 (some 1))
      = content ((committed {} noteRun[0]).document 3 none) := by
  have h₀ : StorageState.applyNext {} noteRun[0] = .ok (committed {} noteRun[0]) := by decide
  have h₁ : (committed {} noteRun[0]).applyNext noteRun[1]
      = .ok ((committed {} noteRun[0]).committed noteRun[1]) := by decide
  have h₂ : ((committed {} noteRun[0]).committed noteRun[1]).applyNext noteRun[2]
      = .ok (((committed {} noteRun[0]).committed noteRun[1]).committed noteRun[2]) := by decide
  have hstamp : StampedRun 1 ([] ++ noteRun[0] :: [noteRun[1], noteRun[2]]) := by
    refine ⟨?_, ?_, ?_, trivial⟩
    · intro write hwrite record hrecord retired hretired
      simp only [noteRun, List.getElem_cons_zero, List.mem_cons, List.not_mem_nil, or_false] at hwrite
      rcases hwrite with rfl | rfl
      · cases hrecord
      · cases hrecord
        cases hretired
    · intro write hwrite record hrecord
      cases List.mem_singleton.1 hwrite
      cases hrecord
    · intro write hwrite record hrecord
      cases List.mem_singleton.1 hwrite
      cases hrecord
  have hstable := @document_asOf_stable [] [] _ _ _ _ _ (.done _) h₀ (.step h₁ (.step h₂ (.done _))) hstamp
  refine hstable.1 3 ?_
  intro stored hstored
  have hrewind : ((((committed {} noteRun[0]).committed noteRun[1]).committed
      noteRun[2]).documents.find 3).all (fun stored => !documentIsCurrentOnly stored.record) = true := by
    decide
  rw [hstored] at hrewind
  simpa using hrewind

/-- A rewindable note whose record claims a retirement at sequence 100. -/
def presetNote : List StorageWrite := [.conversation (some { id := 2 }), .documentCreate (some
      { id := 3, conversationId := some 2, history := .rewindable, retiredAt := some 100 }) 1
      (some .null)]

/-- Right after its commit the note reads as absent now and as present at its commit. -/
theorem presetNote_asOf_differs : StorageState.applyNext {} presetNote = .ok (committed {} presetNote) ∧
      (∀ stored, (committed {} presetNote).documents.find 3 = some stored →
        documentIsCurrentOnly stored.record = false) ∧ content ((committed {} presetNote).document 3 (some 1))
        ≠ content ((committed {} presetNote).document 3 none) := by
  refine ⟨by decide, ?_, by decide⟩
  intro stored hstored
  have hrewind : ((committed {} presetNote).documents.find 3).all
      (fun stored => !documentIsCurrentOnly stored.record) = true := by decide
  rw [hstored] at hrewind
  simpa using hrewind

end StorageState

end CodingHarness.Durable
