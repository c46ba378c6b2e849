import CodingHarness.Durable.TimeTravel

/-!
# One incarnation per address and time

An address may be retired and taken again, also within one batch, and `apply` checks a new
incarnation against the retirements of its whole batch before it has applied them. `Lifetimes` is the
invariant that survives the write loop: the index lists exactly the stored incarnations of each key,
and of two incarnations at one key one ends by the start of the other, where an incarnation that the
batch has still to retire already counts as ended. At the end of the batch nothing is left to retire
and the lifetimes are disjoint, so a point has one living incarnation (`oneIncarnation`).

`apply` stamps `created_at` on a created record and keeps the `retired_at` its caller put there. A
preset retirement after the commit leaves the address free while the incarnation is alive
(`presetRetirement_two_alive`), so the run theorem asks that every preset retirement is over by its
commit (`StampedRun`).
-/

namespace CodingHarness.Durable

open Library Support Chord
open OrdMap (find_insert find_insert_cases)

/-- The key an incarnation is indexed under. -/
def DocumentRecord.addressKey (record : DocumentRecord) : Bytes := documentAddressKey record.kind record.address

namespace StorageState

/-! ## Lifetimes -/

/-- The incarnation ends by `bound`: it is retired by then, or the batch with sequence `seq` has
still to retire it. -/
def EndsBy (pending : List DocumentId) (seq : Seq) (record : DocumentRecord) (bound : Seq) : Prop :=
  (∃ retired, record.retiredAt = some retired ∧ retired ≤ bound) ∨
    (record.retiredAt = none ∧ record.id ∈ pending ∧ seq ≤ bound)

/-- The lifetimes of the stored incarnations, inside the batch with sequence `seq` whose retirements
are `pending`. -/
structure Lifetimes (pending : List DocumentId) (seq : Seq) (s : StorageState) : Prop where
  named : ∀ id stored, s.documents.find id = some stored → stored.record.id = id
  indexed : ∀ key id, id ∈ s.documentIds key ↔
    ∃ stored, s.documents.find id = some stored ∧ stored.record.addressKey = key
  created : ∀ id stored, s.documents.find id = some stored → stored.record.createdAt ≤ seq
  retired : ∀ id stored, s.documents.find id = some stored →
    ∀ retired, stored.record.retiredAt = some retired → retired ≤ seq
  apart : ∀ a b stored stored', a ≠ b → s.documents.find a = some stored →
    s.documents.find b = some stored' → stored.record.addressKey = stored'.record.addressKey →
    EndsBy pending seq stored.record stored'.record.createdAt ∨
      EndsBy pending seq stored'.record stored.record.createdAt

theorem lifetimes_initial (closedMessage : Bytes) (seq : Seq) :
    Lifetimes [] seq { closedMessage := closedMessage } where
  named id stored h := by cases h
  indexed key id := by
    constructor
    · intro h
      cases h
    · rintro ⟨stored, h, -⟩
      cases h
  created id stored h := by cases h
  retired id stored h := by cases h
  apart a b stored stored' _ h := by cases h

variable {seq bound : Seq} {pending : List DocumentId}

theorem EndsBy.of_settled {seq' : Seq} {record : DocumentRecord}
    (h : EndsBy [] seq record bound) : EndsBy pending seq' record bound := by
  rcases h with h | ⟨-, hmem, -⟩
  · exact Or.inl h
  · cases hmem

variable {s : StorageState}

theorem Lifetimes.start {seq' : Seq}
    (h : Lifetimes [] seq s) (hle : seq ≤ seq') : Lifetimes pending seq' s where
  named := h.named
  indexed := h.indexed
  created id stored hs := le_trans (h.created id stored hs) hle
  retired id stored hs r hr := le_trans (h.retired id stored hs r hr) hle
  apart a b stored stored' hne ha hb hkey := by
    rcases h.apart a b stored stored' hne ha hb hkey with hend | hend
    · exact Or.inl hend.of_settled
    · exact Or.inr hend.of_settled

theorem Lifetimes.settle (h : Lifetimes pending seq s)
    (hdone : ∀ id ∈ pending, ∃ stored, s.documents.find id = some stored ∧
      stored.record.retiredAt.isSome) : Lifetimes [] seq s := by
  have hsettled : ∀ id stored bound, s.documents.find id = some stored →
      EndsBy pending seq stored.record bound → EndsBy [] seq stored.record bound := by
    intro id stored bound hs hend
    rcases hend with hend | ⟨hlive, hmem, -⟩
    · exact Or.inl hend
    rw [h.named id stored hs] at hmem
    obtain ⟨stored', hs', hret⟩ := hdone id hmem
    rw [hs] at hs'
    cases hs'
    rw [hlive] at hret
    cases hret
  refine { h with apart := ?_ }
  intro a b stored stored' hne ha hb hkey
  rcases h.apart a b stored stored' hne ha hb hkey with hend | hend
  · exact Or.inl (hsettled a stored _ ha hend)
  · exact Or.inr (hsettled b stored' _ hb hend)

section Step

variable {documents : OrdMap DocumentId StoredDocumentState} {batch : List StorageWrite} {consumeSeq : Bool}
  {next next' : StorageState} {id : DocumentId} {record : DocumentRecord}

/-- Where the check finds the address free, every incarnation there has ended by the commit. -/
theorem Lifetimes.endsBy_of_free (h : Lifetimes (retiredInBatch batch) seq next)
    (hfree : addressOccupied batch next record = false)
    {stored : StoredDocumentState} (hs : next.documents.find id = some stored)
    (hkey : stored.record.addressKey = record.addressKey) : EndsBy (retiredInBatch batch) seq stored.record seq := by
  cases hret : stored.record.retiredAt with
  | some retired => exact Or.inl ⟨retired, hret, h.retired id stored hs retired hret⟩
  | none =>
    -- The check passes over an unretired incarnation only for a retirement of the batch.
    have hmem : id ∈ next.documentIds record.addressKey := (h.indexed _ id).2 ⟨stored, hs, hkey⟩
    have hpassed := List.any_eq_false.1 hfree id hmem
    simp only [hs, Option.any_some, hret, Option.isNone_none, Bool.true_and,
      Bool.not_eq_true', List.contains_eq_mem, Bool.not_eq_false, decide_eq_true_eq] at hpassed
    refine Or.inr ⟨hret, ?_, le_rfl⟩
    rw [h.named id stored hs]
    exact hpassed

theorem documentIds_addDocument {version : Nat} {value : Json}
    (key : Bytes) : (addDocument seq next record version value).documentIds key =
      if key = record.addressKey then next.documentIds key ++ [record.id]
      else next.documentIds key := by
  rw [documentIds, StorageState.addDocument, find_insert]
  by_cases hkey : key = record.addressKey
  · rw [if_pos hkey, if_pos (show key = documentAddressKey record.kind record.address from hkey), hkey]
    rfl
  · rw [if_neg hkey, if_neg (show key ≠ documentAddressKey record.kind record.address from hkey)]
    rfl

theorem Lifetimes.addDocument {version : Nat} {value : Json} (h : Lifetimes (retiredInBatch batch) seq next)
    (hnew : next.documents.contains record.id = false) (hfree : addressOccupied batch next record = false)
    (hstamp : ∀ retired, record.retiredAt = some retired → retired ≤ seq) :
    Lifetimes (retiredInBatch batch) seq (StorageState.addDocument seq next record version value) := by
  rw [OrdMap.contains_eq_false_iff] at hnew
  have hfind : ∀ id, (StorageState.addDocument seq next record version value).documents.find id =
      if id = record.id then
        some ⟨{ record with createdAt := seq }, [⟨seq, version, true, value, []⟩]⟩
      else next.documents.find id := by
    intro id
    exact find_insert _ _ _ _
  refine ⟨?_, ?_, ?_, ?_, ?_⟩
  · intro id stored hs
    rw [hfind] at hs
    split at hs
    · rename_i heq
      cases hs
      exact heq.symm
    · exact h.named id stored hs
  · intro key id
    rw [documentIds_addDocument, hfind]
    by_cases hid : id = record.id
    · -- The new identity is listed at the record's own key and nowhere else.
      subst hid
      have habsent : ∀ key', record.id ∉ next.documentIds key' := by
        intro key' hmem
        obtain ⟨stored, hs, -⟩ := (h.indexed key' record.id).1 hmem
        rw [hnew] at hs
        cases hs
      by_cases hkey : key = record.addressKey
      · simp only [if_pos hkey, if_pos]
        constructor
        · intro _
          exact ⟨_, rfl, hkey.symm⟩
        · simp
      simp only [if_neg hkey, if_pos]
      constructor
      · intro hmem
        exact absurd hmem (habsent key)
      rintro ⟨stored, hs, hkey'⟩
      cases hs
      exact absurd hkey'.symm hkey
    · rw [if_neg hid, ← h.indexed key id]
      split
      · simp [hid]
      · rfl
  · intro id stored hs
    rw [hfind] at hs
    split at hs
    · cases hs
      exact le_rfl
    · exact h.created id stored hs
  · intro id stored hs
    rw [hfind] at hs
    split at hs
    · cases hs
      exact hstamp
    · exact h.retired id stored hs
  · intro a b stored stored' hne ha hb hkey
    rw [hfind] at ha hb
    by_cases haid : a = record.id
    · rw [if_pos haid] at ha
      rw [if_neg (fun hbid => hne (haid.trans hbid.symm))] at hb
      cases ha
      exact Or.inr (h.endsBy_of_free hfree hb hkey.symm)
    rw [if_neg haid] at ha
    split at hb
    · cases hb
      exact Or.inl (h.endsBy_of_free hfree ha hkey)
    · exact h.apart a b stored stored' hne ha hb hkey

theorem Lifetimes.rewrite {stored updated : StoredDocumentState} (h : Lifetimes pending seq next)
    (hs : next.documents.find id = some stored) (hid : updated.record.id = stored.record.id)
    (hkey : updated.record.addressKey = stored.record.addressKey)
    (hmade : updated.record.createdAt = stored.record.createdAt)
    (hret : ∀ r, updated.record.retiredAt = some r → r ≤ seq)
    (hends : ∀ bound, EndsBy pending seq stored.record bound → EndsBy pending seq updated.record bound) :
    Lifetimes pending seq { next with documents := next.documents.insert id updated } := by
  have hfind : ∀ other found, (next.documents.insert id updated).find other = some found →
      ∃ before, next.documents.find other = some before ∧ found.record.id = before.record.id ∧
        found.record.addressKey = before.record.addressKey ∧
        found.record.createdAt = before.record.createdAt ∧
        (∀ bound, EndsBy pending seq before.record bound → EndsBy pending seq found.record bound) ∧
        ∀ r, found.record.retiredAt = some r → r ≤ seq := by
    intro other found hfound
    rcases find_insert_cases hfound with ⟨rfl, rfl⟩ | hfound
    · exact ⟨stored, hs, hid, hkey, hmade, hends, hret⟩
    · exact ⟨found, hfound, rfl, rfl, rfl, fun _ hend => hend, h.retired other found hfound⟩
  refine ⟨?_, ?_, ?_, ?_, ?_⟩
  · intro other found hfound
    obtain ⟨before, hprev, hname, -⟩ := hfind other found hfound
    rw [hname]
    exact h.named other before hprev
  · intro key other
    refine (h.indexed key other).trans ?_
    constructor
    · rintro ⟨before, hprev, hbeforeKey⟩
      by_cases hother : other = id
      · subst hother
        rw [hs] at hprev
        cases hprev
        exact ⟨updated, by simp, hkey.trans hbeforeKey⟩
      · exact ⟨before, by simpa [hother] using hprev, hbeforeKey⟩
    rintro ⟨found, hfound, hfoundKey⟩
    obtain ⟨before, hprev, -, hsame, -⟩ := hfind other found hfound
    exact ⟨before, hprev, hsame.symm.trans hfoundKey⟩
  · intro other found hfound
    obtain ⟨before, hprev, -, -, hstart, -⟩ := hfind other found hfound
    rw [hstart]
    exact h.created other before hprev
  · intro other found hfound
    obtain ⟨before, -, -, -, -, -, hend⟩ := hfind other found hfound
    exact hend
  · intro a b found found' hne ha hb hsame
    obtain ⟨before, hprev, -, hbeforeKey, hstart, hend, -⟩ := hfind a found ha
    obtain ⟨before', hprev', -, hbeforeKey', hstart', hend', -⟩ := hfind b found' hb
    rw [hstart, hstart']
    have hkeys : before.record.addressKey = before'.record.addressKey := by
      rw [← hbeforeKey, ← hbeforeKey']
      exact hsame
    rcases h.apart a b before before' hne hprev hprev' hkeys with h' | h'
    · exact Or.inl (hend _ h')
    · exact Or.inr (hend' _ h')

theorem Lifetimes.frame (h : Lifetimes pending seq next) (hdocs : next'.documents = next.documents)
    (hindex : next'.documentIdsByAddress = next.documentIdsByAddress) : Lifetimes pending seq next' := by
  refine ⟨?_, ?_, ?_, ?_, ?_⟩
  · rw [hdocs]
    exact h.named
  · intro key id
    rw [hdocs, documentIds, hindex]
    exact h.indexed key id
  · rw [hdocs]
    exact h.created
  · rw [hdocs]
    exact h.retired
  · rw [hdocs]
    exact h.apart

theorem mem_retiredInBatch : id ∈ retiredInBatch batch ↔ StorageWrite.documentRetire (some id) ∈ batch := by
  rw [retiredInBatch, List.mem_filterMap]
  constructor
  · rintro ⟨write, hmem, heq⟩
    cases write with
    | documentRetire target =>
      cases heq
      exact hmem
    | _ => cases heq
  · intro hmem
    exact ⟨_, hmem, rfl⟩

variable {write : StorageWrite}

theorem Lifetimes.applyWrite (h : Lifetimes (retiredInBatch batch) seq next) (hmem : write ∈ batch)
    (hstamp : Stamped seq write) (hok : applyWrite documents batch seq consumeSeq next write = .ok next') :
    Lifetimes (retiredInBatch batch) seq next' := by
  cases applied hok
  case documentCreate r version value hnew hfree => exact h.addDocument hnew hfree (hstamp r rfl)
  case documentCopy r source content hnew hfree => exact h.addDocument hnew hfree (hstamp r rfl)
  case documentChange id version value ops stored revisions hs hlive hrevs =>
    exact h.rewrite hs rfl rfl rfl (h.retired id stored hs) fun _ hend => hend
  case documentRetire id stored hs hlive =>
    refine h.rewrite hs rfl rfl rfl ?_ ?_
    · rintro r ⟨⟩
      exact le_rfl
    -- The batch counted the incarnation as ended at its own sequence already.
    intro bound hend
    rcases hend with ⟨r, hr, -⟩ | ⟨-, -, hle⟩
    · rw [hlive] at hr
      cases hr
    · exact Or.inl ⟨seq, rfl, hle⟩
  all_goals exact h.frame rfl rfl

theorem retired_applyWrite (hok : applyWrite documents batch seq consumeSeq next write = .ok next')
    (h : ∃ stored, next.documents.find id = some stored ∧ stored.record.retiredAt.isSome) :
    ∃ stored, next'.documents.find id = some stored ∧ stored.record.retiredAt.isSome := by
  obtain ⟨stored, hs, hret⟩ := h
  rcases applyWrite_documents hok with heq | ⟨record, version, value, -, hnew, heq⟩ |
    ⟨other, found, -, -, -, revisions, hfound, hlive, -, heq⟩ | ⟨other, found, hfound, hlive, heq⟩
  · exact ⟨stored, by rw [heq]; exact hs, hret⟩
  · refine ⟨stored, ?_, hret⟩
    have hne : id ≠ record.id := by
      rintro rfl
      rw [hnew] at hs
      cases hs
    rw [heq, find_insert, if_neg hne]
    exact hs
  · refine ⟨stored, ?_, hret⟩
    have hne : id ≠ other := by
      rintro rfl
      rw [hfound] at hs
      cases hs
      rw [hlive] at hret
      cases hret
    rw [heq, find_insert, if_neg hne]
    exact hs
  · refine ⟨stored, ?_, hret⟩
    have hne : id ≠ other := by
      rintro rfl
      rw [hfound] at hs
      cases hs
      rw [hlive] at hret
      cases hret
    rw [heq, find_insert, if_neg hne]
    exact hs

/-- After the write loop every retirement of its writes has been applied. -/
theorem retired_applyWrites {writes : List StorageWrite}
    (hok : applyWrites documents batch seq consumeSeq next writes = .ok next')
    (hmem : StorageWrite.documentRetire (some id) ∈ writes) :
    ∃ stored, next'.documents.find id = some stored ∧ stored.record.retiredAt.isSome := by
  induction writes generalizing next with
  | nil => cases hmem
  | cons write rest ih =>
    obtain ⟨updated, hwrite, hrest⟩ := applyWrites_cons_eq_ok.1 hok
    rcases List.mem_cons.1 hmem with rfl | hmem
    · obtain ⟨i, stored, hi, hs, -, rfl⟩ := applyDocumentRetire_eq_ok.1 hwrite
      cases hi
      refine applyWrites_induction (P := fun n => ∃ stored, n.documents.find id = some stored ∧
        stored.record.retiredAt.isSome) (fun _ _ _ _ hok' hP => retired_applyWrite hok' hP) ?_ hrest
      exact ⟨_, OrdMap.find_insert_self _ _ _, rfl⟩
    · exact ih hrest hmem

theorem Lifetimes.applyNext {s s' : StorageState} (h : Lifetimes [] bound s)
    (hbound : bound ≤ s.nextSeq) (hstamp : ∀ write ∈ batch, Stamped s.nextSeq write)
    (hok : s.applyNext batch = .ok s') : Lifetimes [] s.nextSeq s' := by
  obtain ⟨-, last, hwrites, rfl⟩ := applyBatch_eq_ok.1 hok
  have hlast : Lifetimes (retiredInBatch batch) s.nextSeq last := applyWrites_induction
      (fun write hmem _ _ hok' h' => h'.applyWrite hmem (hstamp write hmem) hok')
      (h.start hbound) hwrites
  have hsettled : Lifetimes [] s.nextSeq last := by
    apply hlast.settle
    intro id hid
    exact retired_applyWrites hwrites (mem_retiredInBatch.1 hid)
  exact hsettled.frame rfl rfl

end Step

/-! ## Points with one living incarnation -/

/-- The incarnations of a key that are alive at a point. -/
def AliveAt (s : StorageState) (key : Bytes) (point : DocumentPoint) (record : DocumentRecord) : Prop :=
  ∃ stored, s.documents.find record.id = some stored ∧ stored.record = record ∧
    record.addressKey = key ∧ isAliveAt record point = true

variable {point : DocumentPoint}

/-- An incarnation that has ended by the start of another is not alive together with it. -/
theorem not_alive_together {earlier later : DocumentRecord}
    (hend : EndsBy [] seq earlier later.createdAt) (hearlier : isAliveAt earlier point = true)
    (hlater : isAliveAt later point = true) : False := by
  rcases hend with ⟨retired, hret, hle⟩ | ⟨-, hmem, -⟩
  · cases point with
    | none => simp [isAliveAt, hret] at hearlier
    | some at_ =>
      simp only [isAliveAt, hret, Option.all_some, Bool.and_eq_true, decide_eq_true_eq] at hearlier hlater
      exact absurd (lt_of_lt_of_le hearlier.2 (le_trans hle hlater.1)) (lt_irrefl _)
  · cases hmem

theorem Lifetimes.unique (h : Lifetimes [] seq s) {key : Bytes} {a b : DocumentRecord} (ha : AliveAt s key point a)
    (hb : AliveAt s key point b) : a = b := by
  obtain ⟨stored, hs, rfl, hkey, halive⟩ := ha
  obtain ⟨stored', hs', rfl, hkey', halive'⟩ := hb
  by_cases hid : stored.record.id = stored'.record.id
  · rw [hid, hs'] at hs
    cases hs
    rfl
  rcases h.apart _ _ stored stored' hid hs hs' (hkey.trans hkey'.symm) with hend | hend
  · exact (not_alive_together hend halive halive').elim
  · exact (not_alive_together hend halive' halive).elim

/-- What `find_document` returns is alive, and it returns something when anything is alive. -/
theorem Lifetimes.findDocument (h : Lifetimes [] seq s)
    (hopen : s.closed = false) (kind : Bytes) (address : DocumentAddress) (point : DocumentPoint) :
    ∃ found, s.findDocument kind address point = .ok found ∧
      ∀ record, found = some record ↔ AliveAt s (documentAddressKey kind address) point record := by
  refine ⟨_, by rw [StorageState.findDocument, reading, hopen]; rfl, ?_⟩
  intro record
  have hlisted : ∀ candidate : DocumentRecord,
      candidate ∈ ((s.documentIds (documentAddressKey kind address)).reverse.filterMap
        s.documents.find).map StoredDocumentState.record ↔
      ∃ stored, s.documents.find candidate.id = some stored ∧ stored.record = candidate ∧
        candidate.addressKey = documentAddressKey kind address := by
    intro candidate
    simp only [List.mem_map, List.mem_filterMap, List.mem_reverse]
    constructor
    · rintro ⟨stored, ⟨id, hid, hs⟩, rfl⟩
      obtain ⟨stored', hs', hkey⟩ := (h.indexed _ id).1 hid
      rw [hs] at hs'
      cases hs'
      exact ⟨stored, by rw [h.named id stored hs]; exact hs, rfl, hkey⟩
    · rintro ⟨stored, hs, rfl, hkey⟩
      exact ⟨stored, ⟨stored.record.id, (h.indexed _ _).2 ⟨stored, hs, hkey⟩, hs⟩, rfl⟩
  constructor
  · intro hfound
    obtain ⟨stored, hs, hrec, hkey⟩ := (hlisted record).1 (List.mem_of_find?_eq_some hfound)
    exact ⟨stored, hs, hrec, hkey, by simpa using List.find?_some hfound⟩
  intro halive
  obtain ⟨stored, hs, hrec, hkey, hpoint⟩ := halive
  have hmem := (hlisted record).2 ⟨stored, hs, hrec, hkey⟩
  cases hfound : (((s.documentIds (documentAddressKey kind address)).reverse.filterMap
      s.documents.find).map StoredDocumentState.record).find? fun candidate => isAliveAt candidate point with
  | none => exact absurd hpoint (List.find?_eq_none.1 hfound record hmem)
  | some candidate =>
    obtain ⟨stored', hs', hrec', hkey'⟩ := (hlisted candidate).1 (List.mem_of_find?_eq_some hfound)
    have hcand : AliveAt s (documentAddressKey kind address) point candidate :=
      ⟨stored', hs', hrec', hkey', by simpa using List.find?_some hfound⟩
    rw [h.unique hcand ⟨stored, hs, hrec, hkey, hpoint⟩]

/-! ## Runs -/

theorem Commits.lifetimes {u : StorageState} {batches : List (List StorageWrite)}
    (run : Commits s batches u) (h : Lifetimes [] bound s) (hbound : bound < s.nextSeq)
    (hopen : s.closed = false) (hstamp : StampedRun s.nextSeq batches) :
    u.closed = false ∧ ∃ bound', Lifetimes [] bound' u := by
  induction run generalizing bound with
  | done s => exact ⟨hopen, bound, h⟩
  | step ok run ih =>
    have hnext := h.applyNext (le_of_lt hbound) hstamp.1 ok
    refine ih hnext ?_ (applyBatch_closed ok) ?_
    · rw [applyNext_nextSeq ok]
      exact lt_add_one _
    · rw [applyNext_nextSeq ok]
      exact hstamp.2

/-- **One incarnation per address and time.** In every state that a run of commits reaches, an
address key has at most one incarnation alive at a point, and `find_document` returns it exactly when
there is one, provided no created record carries a retirement later than its commit. -/
theorem oneIncarnation {closedMessage : Bytes} {batches : List (List StorageWrite)}
    {s : StorageState} (run : Commits { closedMessage := closedMessage } batches s)
    (hstamp : StampedRun 1 batches) (kind : Bytes) (address : DocumentAddress)
    (point : DocumentPoint) :
    (∀ a b, AliveAt s (documentAddressKey kind address) point a →
      AliveAt s (documentAddressKey kind address) point b → a = b) ∧
    ∃ found, s.findDocument kind address point = .ok found ∧ ∀ record, found = some record ↔
        AliveAt s (documentAddressKey kind address) point record := by
  obtain ⟨hopen, bound, h⟩ := Commits.lifetimes run (lifetimes_initial closedMessage 0) Int.one_pos rfl hstamp
  exact ⟨fun a b ha hb => h.unique ha hb, h.findDocument hopen kind address point⟩

/-- A Session note that is created, and then retired and recreated by one batch that creates the new
incarnation first. -/
def recreated : List (List StorageWrite) :=
  [[.documentCreate (some { id := 2, kind := "note" }) 1 (some .null)],
    [.documentCreate (some { id := 3, kind := "note" }) 1 (some .null), .documentRetire (some 2)]]

/-- The recreated note has one incarnation at each of its commits and now. -/
theorem recreated_oneIncarnation :
    ((committed {} recreated[0]).committed recreated[1]).findDocument "note" {} (some 1)
        = .ok (some { id := 2, kind := "note", createdAt := 1, retiredAt := some 2 }) ∧
      ∀ a b, AliveAt ((committed {} recreated[0]).committed recreated[1]) (documentAddressKey "note" {}) (some 1) a →
        AliveAt ((committed {} recreated[0]).committed recreated[1])
          (documentAddressKey "note" {}) (some 1) b → a = b := by
  have h₀ : StorageState.applyNext {} recreated[0] = .ok (committed {} recreated[0]) := by decide
  have h₁ : (committed {} recreated[0]).applyNext recreated[1]
      = .ok ((committed {} recreated[0]).committed recreated[1]) := by decide
  have hstamp : StampedRun 1 recreated := by
    refine ⟨?_, ?_, trivial⟩
    · intro write hwrite record hrecord retired hretired
      cases List.mem_singleton.1 hwrite
      cases hrecord
      cases hretired
    intro write hwrite record hrecord retired hretired
    simp only [List.mem_cons, List.not_mem_nil, or_false] at hwrite
    rcases hwrite with rfl | rfl
    · cases hrecord
      cases hretired
    · cases hrecord
  have hrun : Commits {} recreated ((committed {} recreated[0]).committed recreated[1]) :=
    .step h₀ (.step h₁ (.done _))
  exact ⟨by decide, (@oneIncarnation [] _ _ hrun hstamp "note" {} (some 1)).1⟩

/-- A note whose record claims a retirement at sequence 100, and another note at its address. -/
def presetRetirement : List (List StorageWrite) :=
  [[.documentCreate (some { id := 2, kind := "note", retiredAt := some 100 }) 1 (some .null)],
    [.documentCreate (some { id := 3, kind := "note" }) 1 (some .null)]]

/-- Both notes are alive at sequence 2: the preset retirement freed the address at once. -/
theorem presetRetirement_two_alive : ∃ s, Commits {} presetRetirement s ∧
      AliveAt s (documentAddressKey "note" {}) (some 2)
        { id := 2, kind := "note", createdAt := 1, retiredAt := some 100 } ∧
      AliveAt s (documentAddressKey "note" {}) (some 2)
        { id := 3, kind := "note", createdAt := 2 } := by
  have h₀ : StorageState.applyNext {} presetRetirement[0] = .ok (committed {} presetRetirement[0]) := by decide
  have h₁ : (committed {} presetRetirement[0]).applyNext presetRetirement[1]
      = .ok ((committed {} presetRetirement[0]).committed presetRetirement[1]) := by decide
  refine ⟨_, .step h₀ (.step h₁ (.done _)), ?_, ?_⟩
  · exact ⟨⟨_, [⟨1, 1, true, .null, []⟩]⟩, by decide, rfl, rfl, by decide⟩
  · exact ⟨⟨_, [⟨2, 1, true, .null, []⟩]⟩, by decide, rfl, rfl, by decide⟩

end StorageState

end CodingHarness.Durable
