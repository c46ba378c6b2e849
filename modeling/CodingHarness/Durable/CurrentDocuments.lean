import CodingHarness.Durable.Incarnations
import CodingHarness.Durable.Publication

/-!
# Current incarnations of a Session

The cache of a Session and the documents that a transaction stages name incarnations by their records, and the
storage holds the truth about them. `Staged` says what holds of a transaction while its callback runs: every staged
document belongs to its address, a loaded one is the current incarnation there, a created one is new, and a loaded one
that is not retired is the first of its address. `Session.coherent_run` follows: in every run the cache names the
current incarnation of each address it knows.
-/

namespace CodingHarness.Durable

open Library Support Chord
open OrdMap (find_insert find_insert_cases)

namespace StorageState

/-! ## What a batch does to the current incarnations -/

/-- An incarnation that is current at an address key. -/
def CurrentAt (s : StorageState) (key : Bytes) (id : DocumentId) : Prop :=
  ∃ stored, s.documents.find id = some stored ∧ stored.record.addressKey = key ∧ stored.record.retiredAt = none

theorem CurrentAt.congr {s s' : StorageState} {key : Bytes} {id : DocumentId} (h : CurrentAt s key id)
    (hdocs : s'.documents = s.documents) : CurrentAt s' key id := by
  rw [CurrentAt, hdocs]
  exact h

theorem Lifetimes.currentAt_unique {bound : Seq} {s : StorageState} (h : Lifetimes [] bound s) {key : Bytes}
    {a b : DocumentId} (ha : CurrentAt s key a) (hb : CurrentAt s key b) : a = b := by
  obtain ⟨stored, hs, hkey, hlive⟩ := ha
  obtain ⟨stored', hs', hkey', hlive'⟩ := hb
  have hone : AliveAt s key none stored.record :=
    ⟨stored, by rw [h.named a stored hs]; exact hs, rfl, hkey, by rw [isAliveAt, hlive]; rfl⟩
  have hother : AliveAt s key none stored'.record :=
    ⟨stored', by rw [h.named b stored' hs']; exact hs', rfl, hkey', by rw [isAliveAt, hlive']; rfl⟩
  rw [← h.named a stored hs, ← h.named b stored' hs', h.unique hone hother]

/-- What `find_document` returns is the current incarnation, and it misses none. -/
theorem Lifetimes.findDocument_current {bound : Seq} {s : StorageState} (h : Lifetimes [] bound s)
    {kind : Bytes} {address : DocumentAddress} {found : Option DocumentRecord}
    (hfound : s.findDocument kind address none = .ok found) :
    (∀ record, found = some record → record.addressKey = documentAddressKey kind address ∧
        CurrentAt s (documentAddressKey kind address) record.id) ∧
      (found = none → ∀ id, ¬ CurrentAt s (documentAddressKey kind address) id) := by
  have hopen : s.closed = false := by
    cases hclosed : s.closed with
    | false => rfl
    | true => simp [StorageState.findDocument, reading, hclosed] at hfound
  obtain ⟨found', hfound', halive⟩ := h.findDocument hopen kind address none
  cases hfound.symm.trans hfound'
  refine ⟨fun record hrec => ?_, fun hnone id hcur => ?_⟩
  · obtain ⟨stored, hs, rfl, hkey, hlive⟩ := (halive record).1 hrec
    exact ⟨hkey, stored, hs, hkey, by simpa [isAliveAt] using hlive⟩
  obtain ⟨stored, hs, hkey, hlive⟩ := hcur
  have hsome := (halive stored.record).2
    ⟨stored, by rw [h.named id stored hs]; exact hs, rfl, hkey, by rw [isAliveAt, hlive]; rfl⟩
  rw [hnone] at hsome
  cases hsome

section Writes

variable {documents : OrdMap DocumentId StoredDocumentState} {batch writes : List StorageWrite} {seq : Seq}
  {consumeSeq : Bool} {next next' : StorageState} {key : Bytes} {id : DocumentId} {write : StorageWrite}

theorem currentAt_applyWrite (hok : applyWrite documents batch seq consumeSeq next write = .ok next')
    (hwrite : write ≠ .documentRetire (some id)) (h : CurrentAt next key id) : CurrentAt next' key id := by
  obtain ⟨stored, hs, hkey, hlive⟩ := h
  have hother : ∀ (other : DocumentId) (found : StoredDocumentState), other ≠ id →
      (next.documents.insert other found).find id = some stored := by
    intro other found hne
    rw [find_insert, if_neg hne.symm]
    exact hs
  have hfresh : ∀ other : DocumentId, next.documents.contains other = false → other ≠ id := by
    rintro other hnew rfl
    rw [OrdMap.contains_eq_false_iff, hs] at hnew
    cases hnew
  cases applied hok
  case documentCreate r version value hnew hfree => exact ⟨stored, hother _ _ (hfresh _ hnew), hkey, hlive⟩
  case documentCopy r source content hnew hfree => exact ⟨stored, hother _ _ (hfresh _ hnew), hkey, hlive⟩
  case documentChange i version value ops found revisions hfound hliveFound hrevs =>
    by_cases heq : i = id
    · subst heq
      rw [hs] at hfound
      cases hfound
      exact ⟨_, OrdMap.find_insert_self _ _ _, hkey, hlive⟩
    · exact ⟨stored, hother _ _ heq, hkey, hlive⟩
  case documentRetire i found hfound hliveFound =>
    exact ⟨stored, hother _ _ (fun heq => hwrite (by rw [heq])), hkey, hlive⟩
  all_goals exact ⟨stored, hs, hkey, hlive⟩

/-- A current incarnation was current before the write, or the write created it. -/
theorem currentAt_origin
    (hok : applyWrite documents batch seq consumeSeq next write = .ok next') (h : CurrentAt next' key id) :
    CurrentAt next key id ∨ ∃ record, createdRecord write = some record ∧ record.id = id ∧ record.addressKey = key := by
  obtain ⟨stored, hs, hkey, hlive⟩ := h
  rcases applyWrite_documents hok with heq | ⟨record, version, value, hmade, -, heq⟩ |
    ⟨other, found, -, -, -, revisions, hfound, hliveFound, -, heq⟩ | ⟨other, found, -, -, heq⟩
  · rw [heq] at hs
    exact .inl ⟨stored, hs, hkey, hlive⟩
  · rw [heq] at hs
    rcases find_insert_cases hs with ⟨rfl, rfl⟩ | hs
    · exact .inr ⟨record, hmade, rfl, hkey⟩
    · exact .inl ⟨stored, hs, hkey, hlive⟩
  · rw [heq] at hs
    rcases find_insert_cases hs with ⟨rfl, rfl⟩ | hs
    · exact .inl ⟨found, hfound, hkey, hliveFound⟩
    · exact .inl ⟨stored, hs, hkey, hlive⟩
  · rw [heq] at hs
    rcases find_insert_cases hs with ⟨-, rfl⟩ | hs
    · cases hlive
    · exact .inl ⟨stored, hs, hkey, hlive⟩

/-- What a batch does to the current incarnations, told by its writes. -/
structure Turnover (batch : List StorageWrite) (s s' : StorageState) : Prop where
  kept : ∀ key id, CurrentAt s key id → StorageWrite.documentRetire (some id) ∉ batch → CurrentAt s' key id
  created : ∀ record version value, StorageWrite.documentCreate (some record) version value ∈ batch →
    record.retiredAt = none → StorageWrite.documentRetire (some record.id) ∉ batch →
      CurrentAt s' record.addressKey record.id
  origin : ∀ key id, CurrentAt s' key id → CurrentAt s key id ∨
    ∃ write ∈ batch, ∃ record, createdRecord write = some record ∧ record.id = id ∧ record.addressKey = key
  retired : ∀ key id, StorageWrite.documentRetire (some id) ∈ batch → ¬ CurrentAt s' key id

theorem Turnover.nil (s : StorageState) : Turnover [] s s where
  kept _ _ h _ := h
  created _ _ _ h := by cases h
  origin _ _ h := .inl h
  retired _ _ h := by cases h

theorem currentAt_applyWrites (hok : applyWrites documents batch seq consumeSeq next writes = .ok next')
    (hwrites : StorageWrite.documentRetire (some id) ∉ writes) (h : CurrentAt next key id) :
    CurrentAt next' key id := by
  refine applyWrites_induction (P := fun s => CurrentAt s key id) (fun write hmem a b hwrite ha => ?_) h hok
  exact currentAt_applyWrite hwrite (fun heq => hwrites (heq ▸ hmem)) ha

theorem currentAt_createdInBatch {record : DocumentRecord} {version : Nat} {value : Option Json}
    (hok : applyWrites documents batch seq consumeSeq next writes = .ok next')
    (hmem : StorageWrite.documentCreate (some record) version value ∈ writes) (hlive : record.retiredAt = none)
    (hretire : StorageWrite.documentRetire (some record.id) ∉ writes) :
    CurrentAt next' record.addressKey record.id := by
  induction writes generalizing next with
  | nil => cases hmem
  | cons write rest ih =>
    obtain ⟨updated, hwrite, hrest⟩ := applyWrites_cons_eq_ok.1 hok
    have hretireRest := fun h => hretire (List.mem_cons_of_mem _ h)
    rcases List.mem_cons.1 hmem with rfl | hmem
    · obtain ⟨r, v, hr, -, -, -, rfl⟩ := applyDocumentCreate_eq_ok.1 hwrite
      cases hr
      exact currentAt_applyWrites hrest hretireRest ⟨_, OrdMap.find_insert_self _ _ _, rfl, hlive⟩
    · exact ih hrest hmem hretireRest

theorem currentAt_originInBatch (hok : applyWrites documents batch seq consumeSeq next writes = .ok next')
    (h : CurrentAt next' key id) : CurrentAt next key id ∨
      ∃ write ∈ writes, ∃ record, createdRecord write = some record ∧ record.id = id ∧ record.addressKey = key := by
  induction writes generalizing next with
  | nil =>
    simp only [applyWrites, Except.ok.injEq] at hok
    exact .inl (hok ▸ h)
  | cons write rest ih =>
    obtain ⟨updated, hwrite, hrest⟩ := applyWrites_cons_eq_ok.1 hok
    rcases ih hrest with hcur | ⟨other, hother, horigin⟩
    · rcases currentAt_origin hwrite hcur with hprev | horigin
      · exact .inl hprev
      · exact .inr ⟨write, List.mem_cons_self, horigin⟩
    · exact .inr ⟨other, List.mem_cons_of_mem _ hother, horigin⟩

/-- **A committed batch.** -/
theorem turnover_applyNext {s s' : StorageState} (hok : s.applyNext batch = .ok s') : Turnover batch s s' := by
  obtain ⟨-, last, hwrites, rfl⟩ := applyBatch_eq_ok.1 hok
  refine ⟨fun key id h hretire => ?_, fun record version value hmem hlive hretire => ?_, fun key id h => ?_,
    fun key id hmem => ?_⟩
  · exact (currentAt_applyWrites hwrites hretire h).congr rfl
  · exact (currentAt_createdInBatch hwrites hmem hlive hretire).congr rfl
  · exact currentAt_originInBatch hwrites (h.congr rfl)
  · rintro ⟨stored, hs, -, hlive⟩
    obtain ⟨stored', hs', hret⟩ := retired_applyWrites hwrites hmem
    cases hs.symm.trans hs'
    rw [hlive] at hret
    cases hret

end Writes

end StorageState

/-! ## Staged documents -/

open StorageState (CurrentAt Lifetimes createdRecord)

/-- The cache names current incarnations, each under its address key. -/
def CacheNames (storage : StorageState) (cached : OrdMap Bytes CachedDocument) : Prop :=
  ∀ key entry, cached.find key = some entry → entry.record.addressKey = key ∧ CurrentAt storage key entry.record.id

variable {cached : OrdMap Bytes CachedDocument} {storage : StorageState}

theorem CacheNames.erase (h : CacheNames storage cached) (key : Bytes) : CacheNames storage (cached.erase key) := by
  intro other entry hentry
  rw [OrdMap.find_erase] at hentry
  split at hentry
  · cases hentry
  · exact h other entry hentry

variable {entry : CachedDocument}

theorem CacheNames.insert (h : CacheNames storage cached) {key : Bytes}
    (hentry : entry.record.addressKey = key ∧ CurrentAt storage key entry.record.id) :
    CacheNames storage (cached.insert key entry) := by
  intro other found hfound
  rcases find_insert_cases hfound with ⟨rfl, rfl⟩ | hfound
  · exact hentry
  · exact h other found hfound

theorem StorageState.record_of_document {id : DocumentId} {point : DocumentPoint}
    {content : StoredDocument} (h : storage.document id point = .ok (some content)) :
    ∃ stored, storage.documents.find id = some stored ∧ stored.record = content.record := by
  simp only [StorageState.document, StorageState.reading] at h
  split at h
  · cases h
  split at h
  · cases h
  rename_i stored hstored
  refine ⟨stored, hstored, ?_⟩
  unfold materialize at h
  split at h
  · cases h
  split at h
  · cases h
  split at h
  · cases h
  simp only [bind_eq_ok, pure_eq_ok, Option.some.injEq] at h
  obtain ⟨value, -, rfl⟩ := h
  rfl

/-- A read serves the current incarnation of the address, and finds it when there is one. -/
theorem Session.readDocument_current {bound : Seq} (h : Lifetimes [] bound storage)
    {definition : DocumentDefinition} {address : DocumentAddress} {found : Option CachedDocument}
    (hread : Session.readDocument storage definition address = .ok found) :
    (∀ entry, found = some entry → entry.record.addressKey = documentAddressKey definition.kind address ∧
      CurrentAt storage (documentAddressKey definition.kind address) entry.record.id) ∧
      (found = none → ∀ id, ¬ CurrentAt storage (documentAddressKey definition.kind address) id) := by
  constructor
  · rintro entry rfl
    obtain ⟨record, committed, value, hfound, hcommit, -, rfl⟩ := Session.readDocument_eq_ok hread
    obtain ⟨hkey, hcur⟩ := (h.findDocument_current hfound).1 record rfl
    obtain ⟨stored, hs, hrec⟩ := StorageState.record_of_document hcommit
    obtain ⟨stored', hs', hkey', -⟩ := id hcur
    cases hs.symm.trans hs'
    have hid : committed.record.id = record.id := by rw [← hrec, h.named _ stored hs]
    refine ⟨by rw [← hrec]; exact hkey', ?_⟩
    rw [hid]
    exact hcur
  rintro rfl
  simp only [Session.readDocument, bind_eq_ok] at hread
  obtain ⟨record, hfound, hread⟩ := hread
  cases record with
  | none => exact (h.findDocument_current hfound).2 rfl
  | some record => simp [bind_eq_ok] at hread

/-- The staged documents of a callback that started with the next identity `low`. -/
structure Staged (low : Int) (w : Work) : Prop where
  identified : Identified low w
  lifetimes : ∃ bound, bound ≤ w.session.storage.nextSeq ∧ Lifetimes [] bound w.session.storage
  cached : CacheNames w.session.storage w.session.cached
  stamped : ∀ write ∈ w.tx.writes, ∀ record, createdRecord write = some record → record.retiredAt = none
  keyed : ∀ document ∈ w.tx.documents, document.record.addressKey = document.key
  own : ∀ document ∈ w.tx.documents, document.forkSource = none
  fresh : ∀ document ∈ w.tx.documents, document.created = true →
    low ≤ document.record.id ∧ document.record.retiredAt = none
  loaded : ∀ document ∈ w.tx.documents, document.created = false →
    CurrentAt w.session.storage document.key document.record.id
  apart : w.tx.documents.Pairwise fun document later => later.created = true → document.record.id < later.record.id
  first : w.tx.documents.Pairwise fun document later => later.created = false → later.retire = false →
    document.key ≠ later.key
  registered : ∀ document ∈ w.tx.documents, ∃ index, w.tx.latestDocuments.find document.key = some index
  newest : ∀ key index, w.tx.latestDocuments.find key = some index →
    ∃ document, w.tx.documents[index]? = some document ∧ document.key = key

section Staged

variable {low : Int} {w w' : Work}

theorem Staged.below (h : Staged low w) (hident : Identified low w') (hdocs : w'.tx.documents = w.tx.documents)
    (hlatest : w'.tx.latestDocuments = w.tx.latestDocuments)
    (hstor : ∃ count, w'.session.storage = w.session.storage.advanced count)
    (hcached : CacheNames w.session.storage w'.session.cached)
    (hstamped : ∀ write ∈ w'.tx.writes, ∀ record, createdRecord write = some record → record.retiredAt = none) :
    Staged low w' := by
  obtain ⟨count, hstor⟩ := hstor
  have hcur : ∀ key id, CurrentAt w.session.storage key id → CurrentAt w'.session.storage key id := by
    intro key id hid
    exact hid.congr (by rw [hstor]; rfl)
  refine ⟨hident, ?_, fun key entry hentry => ?_, hstamped, ?_, ?_, ?_, ?_, ?_, ?_, ?_, ?_⟩
  · obtain ⟨bound, hbound, hlife⟩ := h.lifetimes
    rw [hstor]
    exact ⟨bound, hbound, hlife.frame rfl rfl⟩
  · obtain ⟨hkey, hid⟩ := hcached key entry hentry
    exact ⟨hkey, hcur _ _ hid⟩
  all_goals rw [hdocs]
  · exact h.keyed
  · exact h.own
  · exact h.fresh
  · exact fun document hdoc hmade => hcur _ _ (h.loaded document hdoc hmade)
  · exact h.apart
  · exact h.first
  · rw [hlatest]
    exact h.registered
  · rw [hlatest]
    exact h.newest

variable {document : StagedDocument}

theorem Staged.withDocument (h : Staged low w) (hident : Identified low { w with tx := w.tx.withDocument document })
    (hkeyed : document.record.addressKey = document.key) (hown : document.forkSource = none)
    (hfresh : document.created = true → low ≤ document.record.id ∧ document.record.retiredAt = none ∧
      ∀ earlier ∈ w.tx.documents, earlier.record.id < document.record.id)
    (hloaded : document.created = false → CurrentAt w.session.storage document.key document.record.id)
    (hfirst : document.created = false → document.retire = false →
      ∀ earlier ∈ w.tx.documents, earlier.key ≠ document.key) :
    Staged low { w with tx := w.tx.withDocument document } where
  identified := hident
  lifetimes := h.lifetimes
  cached := h.cached
  stamped := h.stamped
  keyed other hother := by
    rcases List.mem_append.1 hother with hother | hother
    · exact h.keyed other hother
    · rw [List.mem_singleton.1 hother]
      exact hkeyed
  own other hother := by
    rcases List.mem_append.1 hother with hother | hother
    · exact h.own other hother
    · rw [List.mem_singleton.1 hother]
      exact hown
  fresh other hother hmade := by
    rcases List.mem_append.1 hother with hother | hother
    · exact h.fresh other hother hmade
    · rw [List.mem_singleton.1 hother] at hmade ⊢
      exact ⟨(hfresh hmade).1, (hfresh hmade).2.1⟩
  loaded other hother hmade := by
    rcases List.mem_append.1 hother with hother | hother
    · exact h.loaded other hother hmade
    · rw [List.mem_singleton.1 hother] at hmade ⊢
      exact hloaded hmade
  apart := by
    refine List.pairwise_append.2 ⟨h.apart, List.pairwise_singleton _ _, fun earlier hearlier later hlater => ?_⟩
    rw [List.mem_singleton.1 hlater]
    exact fun hmade => (hfresh hmade).2.2 earlier hearlier
  first := by
    refine List.pairwise_append.2 ⟨h.first, List.pairwise_singleton _ _, fun earlier hearlier later hlater => ?_⟩
    rw [List.mem_singleton.1 hlater]
    exact fun hmade hretire => hfirst hmade hretire earlier hearlier
  registered other hother := by
    change ∃ index, (w.tx.latestDocuments.insert document.key w.tx.documents.length).find other.key = some index
    rw [find_insert]
    split
    · exact ⟨_, rfl⟩
    rename_i hne
    rcases List.mem_append.1 hother with hother | hother
    · exact h.registered other hother
    · rw [List.mem_singleton.1 hother] at hne
      exact absurd rfl hne
  newest key index hindex := by
    change (w.tx.latestDocuments.insert document.key w.tx.documents.length).find key = some index at hindex
    change ∃ found, (w.tx.documents ++ [document])[index]? = some found ∧ found.key = key
    rcases find_insert_cases hindex with ⟨rfl, rfl⟩ | hindex
    · exact ⟨document, by simp, rfl⟩
    obtain ⟨found, hfound, hkey⟩ := h.newest key index hindex
    have hlt := (List.getElem?_eq_some_iff.1 hfound).1
    exact ⟨found, by rw [List.getElem?_append_left hlt]; exact hfound, hkey⟩

/-- A staged document after a change of its draft or its retirement. -/
structure StagedDocument.Continues (before after : StagedDocument) : Prop where
  record : after.record = before.record
  key : after.key = before.key
  created : after.created = before.created
  own : after.forkSource = before.forkSource
  retire : before.retire = true → after.retire = true

theorem StagedDocument.Continues.refl (document : StagedDocument) : document.Continues document :=
  ⟨rfl, rfl, rfl, rfl, id⟩

/-- Staged documents that continue the earlier ones at their places. -/
def Continued (before after : List StagedDocument) : Prop := List.Forall₂ StagedDocument.Continues before after

theorem continued_refl (documents : List StagedDocument) : Continued documents documents :=
  List.forall₂_same.2 fun document _ => .refl document

theorem continued_set {documents : List StagedDocument} {index : Nat} {document updated : StagedDocument}
    (hdoc : documents[index]? = some document) (h : document.Continues updated) :
    Continued documents (documents.set index updated) := by
  induction documents generalizing index with
  | nil => exact .nil
  | cons first rest ih =>
    cases index with
    | zero =>
      cases hdoc
      exact .cons h (continued_refl rest)
    | succ index => exact .cons (.refl first) (ih hdoc)

theorem continued_modify {f : StagedDocument → StagedDocument}
    (h : ∀ document : StagedDocument, document.Continues (f document))
    (documents : List StagedDocument) (index : Nat) : Continued documents (documents.modify index f) := by
  induction documents generalizing index with
  | nil =>
    rw [List.modify_nil]
    exact .nil
  | cons first rest ih =>
    cases index with
    | zero => exact .cons (h first) (continued_refl rest)
    | succ index => exact .cons (.refl first) (ih index)

variable {before after : List StagedDocument}

theorem Continued.mem (h : Continued before after)
    (hdoc : document ∈ after) : ∃ earlier ∈ before, earlier.Continues document := by
  induction h with
  | nil => cases hdoc
  | cons hfirst _ ih =>
    rcases List.mem_cons.1 hdoc with rfl | hdoc
    · exact ⟨_, List.mem_cons_self, hfirst⟩
    · obtain ⟨earlier, hearlier, hcont⟩ := ih hdoc
      exact ⟨earlier, List.mem_cons_of_mem _ hearlier, hcont⟩

theorem Continued.pairwise {R : StagedDocument → StagedDocument → Prop}
    (h : Continued before after) (hR : ∀ a b a' b', a.Continues a' → b.Continues b' → R a b → R a' b')
    (hprev : before.Pairwise R) : after.Pairwise R := by
  induction h with
  | nil => exact .nil
  | cons hfirst hrest ih =>
    obtain ⟨hall, hprev⟩ := List.pairwise_cons.1 hprev
    refine List.pairwise_cons.2 ⟨fun document hdoc => ?_, ih hprev⟩
    obtain ⟨earlier, hearlier, hcont⟩ := Continued.mem hrest hdoc
    exact hR _ _ _ _ hfirst hcont (hall earlier hearlier)

theorem Continued.getElem? (h : Continued before after) {index : Nat} (hdoc : before[index]? = some document) :
    ∃ later, after[index]? = some later ∧ document.Continues later := by
  induction h generalizing index with
  | nil => cases hdoc
  | cons hfirst _ ih =>
    cases index with
    | zero =>
      cases hdoc
      exact ⟨_, rfl, hfirst⟩
    | succ index => exact ih hdoc

theorem Staged.documents (h : Staged low w) {documents : List StagedDocument} {latest : OrdMap Bytes Nat}
    (hident : Identified low { w with tx := { w.tx with documents := documents, latestDocuments := latest } })
    (hcontinued : Continued w.tx.documents documents)
    (hreg : ∀ key index, w.tx.latestDocuments.find key = some index → ∃ index', latest.find key = some index')
    (hnewest : ∀ key index, latest.find key = some index →
      ∃ document, w.tx.documents[index]? = some document ∧ document.key = key) :
    Staged low { w with tx := { w.tx with documents := documents, latestDocuments := latest } } where
  identified := hident
  lifetimes := h.lifetimes
  cached := h.cached
  stamped := h.stamped
  keyed document hdoc := by
    obtain ⟨earlier, hearlier, hsame⟩ := hcontinued.mem hdoc
    rw [hsame.record, hsame.key]
    exact h.keyed earlier hearlier
  own document hdoc := by
    obtain ⟨earlier, hearlier, hsame⟩ := hcontinued.mem hdoc
    rw [hsame.own]
    exact h.own earlier hearlier
  fresh document hdoc hmade := by
    obtain ⟨earlier, hearlier, hsame⟩ := hcontinued.mem hdoc
    rw [hsame.record]
    exact h.fresh earlier hearlier (hsame.created ▸ hmade)
  loaded document hdoc hmade := by
    obtain ⟨earlier, hearlier, hsame⟩ := hcontinued.mem hdoc
    rw [hsame.record, hsame.key]
    exact h.loaded earlier hearlier (hsame.created ▸ hmade)
  apart := by
    refine hcontinued.pairwise (fun a b a' b' ha hb hlt hmade => ?_) h.apart
    rw [ha.record, hb.record]
    exact hlt (hb.created ▸ hmade)
  first := by
    refine hcontinued.pairwise (fun a b a' b' ha hb hne hmade hretire => ?_) h.first
    rw [ha.key, hb.key]
    refine hne (hb.created ▸ hmade) ?_
    cases hprev : b.retire with
    | false => rfl
    | true => exact absurd (hb.retire hprev) (by rw [hretire]; exact Bool.false_ne_true)
  registered document hdoc := by
    obtain ⟨earlier, hearlier, hsame⟩ := hcontinued.mem hdoc
    obtain ⟨index, hindex⟩ := h.registered earlier hearlier
    rw [hsame.key]
    exact hreg _ index hindex
  newest key index hindex := by
    obtain ⟨earlier, hearlier, hkey⟩ := hnewest key index hindex
    obtain ⟨document, hdoc, hsame⟩ := hcontinued.getElem? hearlier
    exact ⟨document, hdoc, hsame.key.trans hkey⟩

variable {key : Bytes}

theorem Staged.no_latest (h : Staged low w)
    (hlatest : ∀ staged ∈ w.tx.latest key, staged.retire = false ∧ staged.change = none) :
    ∀ document ∈ w.tx.documents, document.key ≠ key := by
  intro document hdoc hkey
  obtain ⟨index, hindex⟩ := h.registered document hdoc
  rw [hkey] at hindex
  obtain ⟨newest, hnewest, -⟩ := h.newest key index hindex
  have hmem : newest ∈ w.tx.latest key := by
    rw [Transaction.latest, hindex]
    exact hnewest
  obtain ⟨hretire, hchange⟩ := hlatest newest hmem
  rw [h.identified.changed newest (List.mem_of_getElem? hnewest) hchange] at hretire
  cases hretire

theorem documentCreateRecord_eq (definition : DocumentDefinition) (address : DocumentAddress) (id : DocumentId) :
    (definition.documentCreateRecord address id).id = id ∧
      (definition.documentCreateRecord address id).retiredAt = none ∧
      (definition.documentCreateRecord address id).addressKey = documentAddressKey definition.kind address := by
  unfold DocumentDefinition.documentCreateRecord
  split <;> exact ⟨rfl, rfl, rfl⟩

variable {write : StorageWrite}

theorem IsRecord.creates_nothing (h : IsRecord write) : createdRecord write = none := by
  cases write with
  | conversation record | entry record => rfl
  | _ => exact h.elim

/-- **Every effect of a callback** keeps the staged documents in order. -/
theorem Effect.staged (heffect : Effect w w') (h : Staged low w) : Staged low w' := by
  have hident := heffect.identified h.identified
  have hstamp : ∀ added : List StorageWrite,
      (∀ write ∈ added, ∀ record, createdRecord write = some record → record.retiredAt = none) →
      ∀ write ∈ w.tx.writes ++ added, ∀ record, createdRecord write = some record → record.retiredAt = none := by
    intro added hadded write hwrite
    rcases List.mem_append.1 hwrite with hwrite | hwrite
    · exact h.stamped write hwrite
    · exact hadded write hwrite
  have hsame : ∃ count, w.session.storage = w.session.storage.advanced count :=
    ⟨0, (StorageState.advanced_zero _).symm⟩
  have htask : ∀ task : TaskRecord, ∀ write ∈ [StorageWrite.task (some task)], ∀ record,
      createdRecord write = some record → record.retiredAt = none := by
    intro task write hwrite record hmade
    rw [List.mem_singleton.1 hwrite] at hmade
    cases hmade
  cases heffect with
  | mint | createSubmission submission hid => exact h.below hident rfl rfl ⟨1, rfl⟩ h.cached h.stamped
  | evict key => exact h.below hident rfl rfl hsame (h.cached.erase key) h.stamped
  | load definition address entry hread =>
    obtain ⟨bound, -, hlife⟩ := h.lifetimes
    have hentry := (Session.readDocument_current hlife hread).1 entry rfl
    exact h.below hident rfl rfl hsame (h.cached.insert hentry) h.stamped
  | watch watches handles | changeSubmission change _ => exact h.below hident rfl rfl hsame h.cached h.stamped
  | record write hwrite =>
    refine h.below hident rfl rfl hsame h.cached (hstamp [write] ?_)
    intro other hother record hmade
    rw [List.mem_singleton.1 hother, hwrite.creates_nothing] at hmade
    cases hmade
  | fork writes count hwrites =>
    refine h.below hident rfl rfl ⟨count, rfl⟩ h.cached (hstamp writes ?_)
    intro write hwrite record hmade
    rcases hwrites write hwrite with hrec | ⟨copied, source, rfl, -, -, hlive⟩
    · rw [hrec.creates_nothing] at hmade
      cases hmade
    · cases hmade
      exact hlive
  | createTask task hid => exact h.below hident rfl rfl ⟨1, rfl⟩ h.cached (hstamp _ (htask task))
  | setTask task => exact h.below hident rfl rfl hsame h.cached (hstamp _ (htask task))
  | draft index op =>
    refine h.documents hident (continued_modify ?_ _ index) (fun key index hindex => ⟨index, hindex⟩) h.newest
    exact fun document => ⟨rfl, rfl, rfl, rfl, id⟩
  | acquireLoaded definition address entry hserves hversion hlatest =>
    obtain ⟨hkey, hcur⟩ := h.cached _ entry hserves.1
    exact h.withDocument hident hkey rfl (fun hmade => nomatch hmade) (fun _ => hcur) fun _ _ => h.no_latest hlatest
  | acquireCreated definition address initial =>
    obtain ⟨hid, hlive, hkey⟩ := documentCreateRecord_eq definition address w.session.storage.nextId
    have hminted : Staged low w.minted :=
      h.below (Effect.identified .mint h.identified) rfl rfl ⟨1, rfl⟩ h.cached h.stamped
    refine hminted.withDocument hident hkey rfl (fun _ => ⟨?_, hlive, fun earlier hearlier => ?_⟩)
      (fun hmade => nomatch hmade) fun hmade => nomatch hmade
    · change low ≤ (definition.documentCreateRecord address w.session.storage.nextId).id
      rw [hid]
      exact h.identified.later
    change earlier.record.id < (definition.documentCreateRecord address w.session.storage.nextId).id
    rw [hid]
    exact h.identified.staged earlier hearlier
  | markRetired index document hdoc hretire =>
    refine h.documents hident (continued_set hdoc ⟨rfl, rfl, rfl, rfl, fun _ => rfl⟩)
      (fun key other hother => ?_) fun key other hother => ?_
    · rw [find_insert]
      split
      · exact ⟨index, rfl⟩
      · exact ⟨other, hother⟩
    rcases find_insert_cases hother with ⟨rfl, rfl⟩ | hother
    · exact ⟨document, hdoc, rfl⟩
    · exact h.newest key other hother
  | retireLoaded definition address entry hserves =>
    obtain ⟨hkey, hcur⟩ := h.cached _ entry hserves.1
    exact h.withDocument hident hkey rfl (fun hmade => nomatch hmade) (fun _ => hcur) fun _ hretire => nomatch hretire

/-! ## The batch of a transaction -/

variable {id : DocumentId}

theorem StorageState.CurrentAt.key_eq {s : StorageState} {key key' : Bytes}
    (h : CurrentAt s key id) (h' : CurrentAt s key' id) : key = key' := by
  obtain ⟨stored, hs, rfl, -⟩ := h
  obtain ⟨stored', hs', rfl, -⟩ := h'
  cases hs.symm.trans hs'
  rfl

theorem Staged.current_lt (h : Staged low w) (hid : CurrentAt w.session.storage key id) : id < low := by
  obtain ⟨bound, -, hlife⟩ := h.lifetimes
  obtain ⟨stored, hs, -⟩ := hid
  rw [← hlife.named id stored hs]
  exact h.identified.stored id stored hs

theorem Staged.unretired (h : Staged low w)
    (hsplit : w.tx.documents = before ++ document :: after) (hlive : document.retire = false)
    (hlast : document.created = true ∨ ∀ other ∈ after, other.key ≠ document.key) :
    ∀ other ∈ w.tx.documents, other.record.id = document.record.id → other.retire = false := by
  intro other hother hid
  have hmem : document ∈ w.tx.documents := by
    rw [hsplit]
    simp
  have hapart := h.apart
  have hfirst := h.first
  rw [hsplit] at hapart hfirst
  obtain ⟨-, hapart, hacross⟩ := List.pairwise_append.1 hapart
  have hfirstAcross := (List.pairwise_append.1 hfirst).2.2
  cases hmade : document.created with
  | true =>
    -- A created incarnation has the largest identity so far, and the later ones have larger ones.
    rw [hsplit] at hother
    rcases List.mem_append.1 hother with hprev | hother
    · exact absurd hid (ne_of_lt (hacross other hprev document List.mem_cons_self hmade))
    rcases List.mem_cons.1 hother with rfl | hafter
    · exact hlive
    cases hlater : other.created with
    | true => exact absurd hid (ne_of_gt ((List.pairwise_cons.1 hapart).1 other hafter hlater))
    | false =>
      have hstored := h.loaded other (by rw [hsplit]; simp [hafter]) hlater
      exact absurd hid (ne_of_lt (lt_of_lt_of_le (h.current_lt hstored) (h.fresh document hmem hmade).1))
  | false =>
    have hstored := h.loaded document hmem hmade
    cases hlater : other.created with
    | true =>
      exact absurd hid (ne_of_gt (lt_of_lt_of_le (h.current_lt hstored) (h.fresh other hother hlater).1))
    | false =>
      have hkey : other.key = document.key := by
        have hother' := h.loaded other hother hlater
        rw [hid] at hother'
        exact hother'.key_eq hstored
      rw [hsplit] at hother
      rcases List.mem_append.1 hother with hprev | hother
      · exact absurd hkey (hfirstAcross other hprev document List.mem_cons_self hmade hlive)
      rcases List.mem_cons.1 hother with rfl | hafter
      · exact hlive
      rcases hlast with hlast | hlast
      · rw [hmade] at hlast
        cases hlast
      · exact absurd hkey (hlast other hafter)

/-- What the batch of a transaction does to documents. -/
structure Covers (w : Work) (writes : List StorageWrite) : Prop where
  retires : ∀ id, StorageWrite.documentRetire (some id) ∈ writes ↔
    ∃ document ∈ w.tx.documents, document.retire = true ∧ document.record.id = id
  creates : ∀ document ∈ w.tx.documents, document.created = true →
    ∃ version value, StorageWrite.documentCreate (some document.record) version value ∈ writes
  origins : ∀ write ∈ writes, ∀ record, createdRecord write = some record →
    write ∈ w.tx.writes ∨ ∃ document ∈ w.tx.documents, document.created = true ∧ document.record = record

theorem PreparedDocument.writes_eq (p : PreparedDocument) (hown : p.document.forkSource = none) : p.writes =
      if !p.written then []
      else (if p.document.retire && !p.document.created then [] else [p.contentWrite]) ++
        if p.document.retire then [.documentRetire (some p.document.record.id)] else [] := by
  unfold writes
  cases p.written <;> cases p.document.retire <;> cases p.document.created <;> simp [hown]

variable {p : PreparedDocument}

theorem PreparedDocument.contentWrite_created (hown : p.document.forkSource = none)
    (hmade : p.document.created = true) :
    p.contentWrite = .documentCreate (some p.document.record) p.document.definitionVersion
      (p.prepared.map Prepared.value) := by
  simp [contentWrite, hown, hmade]

theorem PreparedDocument.contentWrite_loaded (hmade : p.document.created = false) :
    ∃ version value ops, p.contentWrite = .documentChange (some p.document.record.id) version value ops := by
  simp [contentWrite, hmade]

theorem PreparedDocument.mem_writes (hown : p.document.forkSource = none) (h : write ∈ p.writes) :
    (write = p.contentWrite ∧ ¬ (p.document.retire = true ∧ p.document.created = false)) ∨
      (write = .documentRetire (some p.document.record.id) ∧ p.document.retire = true) := by
  rw [p.writes_eq hown] at h
  cases hwrote : p.written <;> cases hretire : p.document.retire <;> cases hmade : p.document.created <;>
    simp [hwrote, hretire, hmade] at h ⊢
  all_goals exact h

theorem createdRecord_touched {record : DocumentRecord}
    (h : createdRecord write = some record) : touchedDocument write = some record.id := by
  cases write with
  | documentCreate created version value | documentCopy created source =>
    cases h
    rfl
  | _ => cases h

theorem Assembled.covers {assembly : Assembly} {resolved : OrdMap SubmissionId SubmissionRecord}
    (ha : Assembled w assembly resolved) (h : Staged low w) : Covers w assembly.writes := by
  obtain ⟨hdocs, -⟩ := prepareDocuments_eq_ok ha.prepared
  have hstaged : ∀ p ∈ assembly.documents, p.document ∈ w.tx.documents := by
    intro p hp
    rw [← hdocs]
    exact List.mem_map_of_mem hp
  have hown := fun p hp => h.own p.document (hstaged p hp)
  -- A write of the batch is a table write, or one of a staged document.
  have hmem : ∀ write, write ∈ assembly.writes → (write ∈ w.tx.writes ∨ touchedDocument write = none) ∨
      ∃ p ∈ assembly.documents, write ∈ p.writes := by
    intro write hwrite
    rw [ha.writes, List.append_assoc] at hwrite
    rcases List.mem_append.1 hwrite with hwrite | hwrite
    · exact .inl (.inl hwrite)
    rcases List.mem_append.1 hwrite with hwrite | hwrite
    · obtain ⟨record, -, rfl⟩ := List.mem_map.1 hwrite
      exact .inl (.inr rfl)
    · obtain ⟨p, hp, hwrite⟩ := List.mem_flatMap.1 hwrite
      exact .inr ⟨p, hp, hwrite⟩
  have hput : ∀ p ∈ assembly.documents, ∀ write ∈ p.writes, write ∈ assembly.writes := by
    intro p hp write hwrite
    rw [ha.writes]
    exact List.mem_append_right _ (List.mem_flatMap.2 ⟨p, hp, hwrite⟩)
  refine ⟨fun id => ⟨fun hretire => ?_, ?_⟩, fun document hdoc hmade => ?_, fun write hwrite record hmade => ?_⟩
  · rcases hmem _ hretire with (htable | htouched) | ⟨p, hp, hwrite⟩
    · exact absurd (h.identified.touched _ htable id rfl).1 (by simp [copiedId])
    · cases htouched
    · rcases PreparedDocument.mem_writes (hown p hp) hwrite with ⟨heq, -⟩ | ⟨heq, hret⟩
      · cases hmade : p.document.created with
        | true =>
          rw [PreparedDocument.contentWrite_created (hown p hp) hmade] at heq
          cases heq
        | false =>
          obtain ⟨version, value, ops, hcont⟩ := PreparedDocument.contentWrite_loaded hmade
          rw [hcont] at heq
          cases heq
      · cases heq
        exact ⟨p.document, hstaged p hp, hret, rfl⟩
  · rintro ⟨document, hdoc, hretire, rfl⟩
    rw [← hdocs] at hdoc
    obtain ⟨p, hp, rfl⟩ := List.mem_map.1 hdoc
    refine hput p hp _ ?_
    rw [p.writes_eq (hown p hp)]
    simp [PreparedDocument.written, hretire]
  · rw [← hdocs] at hdoc
    obtain ⟨p, hp, rfl⟩ := List.mem_map.1 hdoc
    refine ⟨p.document.definitionVersion, p.prepared.map Prepared.value, hput p hp _ ?_⟩
    rw [← PreparedDocument.contentWrite_created (hown p hp) hmade, p.writes_eq (hown p hp)]
    simp [PreparedDocument.written, hmade]
  · rcases hmem _ hwrite with (htable | htouched) | ⟨p, hp, hwrite⟩
    · exact .inl htable
    · rw [createdRecord_touched hmade] at htouched
      cases htouched
    · rcases PreparedDocument.mem_writes (hown p hp) hwrite with ⟨rfl, -⟩ | ⟨rfl, -⟩
      · cases hnew : p.document.created with
        | true =>
          rw [PreparedDocument.contentWrite_created (hown p hp) hnew] at hmade
          exact .inr ⟨p.document, hstaged p hp, hnew, Option.some.inj hmade⟩
        | false =>
          obtain ⟨version, value, ops, hcont⟩ := PreparedDocument.contentWrite_loaded hnew
          rw [hcont] at hmade
          cases hmade
      · cases hmade

variable {writes : List StorageWrite}

/-- **After the batch**: an incarnation that no staged document retires is current when it was before, or when a staged
document creates it. -/
theorem Staged.current_after (h : Staged low w) {s' : StorageState}
    (hcovers : Covers w writes) (hturn : StorageState.Turnover writes w.session.storage s')
    (hlive : ∀ document ∈ w.tx.documents, document.record.id = id → document.retire = false)
    (hcur : CurrentAt w.session.storage key id ∨
      ∃ document ∈ w.tx.documents, document.created = true ∧ document.key = key ∧ document.record.id = id) :
    CurrentAt s' key id := by
  have hretire : StorageWrite.documentRetire (some id) ∉ writes := by
    intro hmem
    obtain ⟨document, hdoc, hretire, hid⟩ := (hcovers.retires id).1 hmem
    rw [hlive document hdoc hid] at hretire
    cases hretire
  rcases hcur with hcur | ⟨document, hdoc, hmade, rfl, rfl⟩
  · exact hturn.kept key id hcur hretire
  obtain ⟨version, value, hmem⟩ := hcovers.creates document hdoc hmade
  rw [← h.keyed document hdoc]
  exact hturn.created _ version value hmem (h.fresh document hdoc hmade).2 hretire

/-- **Before the batch**: a current incarnation that no copy created is retired by no staged document, and it was
current before or a staged document created it. -/
theorem Staged.current_before (h : Staged low w) {s' : StorageState}
    (hcovers : Covers w writes) (hturn : StorageState.Turnover writes w.session.storage s')
    (hcopies : ∀ write ∈ w.tx.writes, ∀ record, createdRecord write = some record →
      record.addressKey ≠ key) (hcur : CurrentAt s' key id) :
    (∀ document ∈ w.tx.documents, document.record.id = id → document.retire = false) ∧
      (CurrentAt w.session.storage key id ∨
        ∃ document ∈ w.tx.documents, document.created = true ∧ document.key = key ∧ document.record.id = id) := by
  refine ⟨fun document hdoc hid => ?_, ?_⟩
  · cases hretire : document.retire with
    | false => rfl
    | true => exact absurd hcur (hturn.retired key id ((hcovers.retires id).2 ⟨document, hdoc, hretire, hid⟩))
  rcases hturn.origin key id hcur with hprev | ⟨write, hwrite, record, hmade, hid, hkey⟩
  · exact .inl hprev
  rcases hcovers.origins write hwrite record hmade with htable | ⟨document, hdoc, hnew, rfl⟩
  · exact absurd hkey (hcopies write htable record hmade)
  · exact .inr ⟨document, hdoc, hnew, (h.keyed document hdoc).symm.trans hkey, hid⟩

end Staged

/-! ## Runs -/

theorem cached_adopted {documents : List PreparedDocument} {seq : Seq} {key : Bytes}
    (hpublishes : ∀ p ∈ documents, p.document.retire = true ∨ p.prepared.isSome)
    (h : (documents.foldl (PreparedDocument.adopt seq) cached).find key = some entry) :
    (cached.find key = some entry ∧ ∀ p ∈ documents, p.document.key ≠ key) ∨
      ∃ before p after, documents = before ++ p :: after ∧ p.document.key = key ∧ p.document.retire = false ∧
        entry.record.id = p.document.record.id ∧ entry.record.addressKey = p.document.record.addressKey ∧
        ∀ q ∈ after, q.document.key ≠ key := by
  induction documents generalizing cached with
  | nil => exact .inl ⟨h, by simp⟩
  | cons p rest ih =>
    rcases ih (fun q hq => hpublishes q (List.mem_cons_of_mem _ hq)) h with
      ⟨hfind, hrest⟩ | ⟨before, q, after, rfl, hq⟩
    · have hcons : p.document.key ≠ key → ∀ q ∈ p :: rest, q.document.key ≠ key := by
        intro hne q hq
        rcases List.mem_cons.1 hq with rfl | hq
        · exact hne
        · exact hrest q hq
      obtain ⟨change, hchange, -⟩ := p.change_eq_some (hpublishes p List.mem_cons_self) seq
      simp only [PreparedDocument.adopt, hchange] at hfind
      cases hretire : p.document.retire with
      | true =>
        rw [if_pos hretire, OrdMap.find_erase] at hfind
        split at hfind
        · cases hfind
        · rename_i hne
          exact .inl ⟨hfind, hcons (Ne.symm hne)⟩
      | false =>
        rw [if_neg (by rw [hretire]; exact Bool.false_ne_true), find_insert] at hfind
        split at hfind
        · rename_i heq
          cases hfind
          refine .inr ⟨[], p, rest, rfl, heq.symm, hretire, ?_⟩
          unfold PreparedDocument.change at hchange
          rw [if_neg (by rw [hretire]; exact Bool.false_ne_true)] at hchange
          obtain ⟨prepared, -, rfl⟩ := Option.map_eq_some_iff.1 hchange
          split <;> exact ⟨rfl, rfl, hrest⟩
        · rename_i hne
          exact .inl ⟨hfind, hcons (Ne.symm hne)⟩
    · exact .inr ⟨p :: before, q, after, rfl, hq⟩

namespace Session

/-- A Session whose cache names current incarnations of an orderly storage. -/
structure Coherent (s : Session) : Prop where
  bounded : s.Bounded
  lifetimes : ∃ bound, bound ≤ s.storage.nextSeq ∧ Lifetimes [] bound s.storage
  cached : CacheNames s.storage s.cached

variable {s : Session}

theorem Coherent.staged (h : s.Coherent) : Staged s.storage.nextId ⟨s, {}⟩ where
  identified := h.bounded.identified
  lifetimes := h.lifetimes
  cached := h.cached
  stamped _ h := by cases h
  keyed _ h := by cases h
  own _ h := by cases h
  fresh _ h := by cases h
  loaded _ h := by cases h
  apart := .nil
  first := .nil
  registered _ h := by cases h
  newest _ _ h := by cases h

theorem Coherent.calls (h : s.Coherent) (calls : List Transaction.Call) :
    Staged s.storage.nextId (Transaction.calls ⟨s, {}⟩ calls) :=
  (effects_calls ⟨s, {}⟩ calls).invariant (fun _ _ heffect hw => heffect.staged hw) h.staged

theorem coherent_of_staged {low : Int} {w : Work} (h : Staged low w) : w.session.Coherent :=
  ⟨bounded_of_identified h.identified, h.lifetimes, h.cached⟩

/-- **A commit** keeps the cache coherent. -/
theorem Committed.coherent {calls : List Transaction.Call} {w : Work} {assembly : Assembly}
    {storage : StorageState} (hc : Committed s calls w assembly storage) (h : s.Coherent) : hc.after.Coherent := by
  have hstaged : Staged s.storage.nextId w := by
    rw [hc.callback]
    exact h.calls calls
  obtain ⟨resolved, ha⟩ := assemble_eq_ok hc.assembled
  obtain ⟨hdocs, hprep⟩ := prepareDocuments_eq_ok ha.prepared
  have hcovers := ha.covers hstaged
  have hturn := StorageState.turnover_applyNext hc.applied
  have hstor : hc.after.storage = storage := by rw [Committed.after, settle_storage]
  have hmem : ∀ p ∈ assembly.documents, p.document ∈ w.tx.documents := by
    intro p hp
    rw [← hdocs]
    exact List.mem_map_of_mem hp
  refine ⟨hc.bounded h.bounded, ?_, ?_⟩
  · obtain ⟨bound, hbound, hlife⟩ := hstaged.lifetimes
    refine ⟨w.session.storage.nextSeq, ?_, ?_⟩
    · rw [hstor, StorageState.applyNext_nextSeq hc.applied]
      exact le_of_lt (lt_add_one _)
    rw [hstor]
    refine hlife.applyNext hbound (fun write hwrite record hmade retired hret => ?_) hc.applied
    have hnone : record.retiredAt = none := by
      rcases hcovers.origins write hwrite record hmade with htable | ⟨document, hdoc, hnew, rfl⟩
      · exact hstaged.stamped write htable record hmade
      · exact (hstaged.fresh document hdoc hnew).2
    rw [hnone] at hret
    cases hret
  rw [hstor]
  intro key entry hentry
  rw [Committed.after, settle_cached] at hentry
  have hpublishes : ∀ p ∈ assembly.documents, p.document.retire = true ∨ p.prepared.isSome := by
    intro p hp
    rw [hprep p hp]
    cases hchange : p.document.change with
    | none => exact .inl (hstaged.identified.changed _ (hmem p hp) hchange)
    | some change => exact .inr rfl
  rcases cached_adopted hpublishes hentry with ⟨hfind, hrest⟩ | ⟨before, p, after, hsplit, hkey, hlive, hid, haddress,
    hafter⟩
  · -- The address was not staged, so the batch retires no incarnation of it.
    obtain ⟨haddress, hcur⟩ := hstaged.cached key entry hfind
    refine ⟨haddress, hstaged.current_after hcovers hturn (fun document hdoc hid => ?_) (.inl hcur)⟩
    cases hmade : document.created with
    | true =>
      have hfresh := (hstaged.fresh document hdoc hmade).1
      rw [hid] at hfresh
      exact absurd (hstaged.current_lt hcur) (not_lt.2 hfresh)
    | false =>
      have hloaded := hstaged.loaded document hdoc hmade
      rw [hid] at hloaded
      rw [← hdocs] at hdoc
      obtain ⟨p, hp, rfl⟩ := List.mem_map.1 hdoc
      exact absurd (hloaded.key_eq hcur) (hrest p hp)
  · have hp : p ∈ assembly.documents := by
      rw [hsplit]
      simp
    have hsplitDocuments : w.tx.documents = before.map PreparedDocument.document ++
        p.document :: after.map PreparedDocument.document := by
      rw [← hdocs, hsplit]
      simp
    have hlater : ∀ other ∈ after.map PreparedDocument.document, other.key ≠ p.document.key := by
      intro other hother
      obtain ⟨q, hq, rfl⟩ := List.mem_map.1 hother
      rw [hkey]
      exact hafter q hq
    refine ⟨by rw [haddress, hstaged.keyed _ (hmem p hp), hkey], ?_⟩
    rw [hid]
    refine hstaged.current_after hcovers hturn (hstaged.unretired hsplitDocuments hlive (.inr hlater)) ?_
    cases hmade : p.document.created with
    | true => exact .inr ⟨p.document, hmem p hp, hmade, hkey, rfl⟩
    | false =>
      left
      rw [← hkey]
      exact hstaged.loaded p.document (hmem p hp) hmade

theorem kept_coherent : Kept Coherent where
  evict s key h := ⟨kept_bounded.evict s key h.bounded, h.lifetimes, h.cached.erase key⟩
  load s definition address entry hread h := by
    obtain ⟨bound, -, hlife⟩ := h.lifetimes
    exact ⟨kept_bounded.load s definition address entry hread h.bounded, h.lifetimes,
      h.cached.insert ((readDocument_current hlife hread).1 entry rfl)⟩
  watch s watches handles h := ⟨kept_bounded.watch s watches handles h.bounded, h.lifetimes, h.cached⟩

/-- **One step.** -/
theorem step_coherent (h : s.Coherent) (move : Step) : (s.step move).Coherent := by
  cases move with
  | commit calls returned =>
    have hcb := coherent_of_staged (h.calls calls)
    rcases s.commitNow_cases calls returned with ⟨-, hcase⟩ | ⟨outcome, -, hcase⟩ | ⟨-, w, assembly, storage, hc, hcase⟩
    · rw [step, hcase]
      exact h
    · rcases hcase with hcase | hcase
      · rw [step, hcase]
        exact hcb
      · rw [step, hcase]
        exact ⟨⟨hcb.bounded.stored, hcb.bounded.cached⟩, hcb.lifetimes, hcb.cached⟩
    · rw [step, hcase]
      exact hc.coherent h
  | call c => exact (kept_coherent.ensures_call c).endState h
  | reopen =>
    exact ⟨⟨h.bounded.stored, fun _ _ hfind => (by cases hfind)⟩, h.lifetimes, fun _ _ hfind => (by cases hfind)⟩

theorem coherent_initial (closedMessage : Bytes) : Coherent { storage := { closedMessage := closedMessage } } where
  bounded := ⟨fun _ _ hfind => (by cases hfind), fun _ _ hfind => (by cases hfind)⟩
  lifetimes := ⟨0, Int.zero_le_ofNat 1, StorageState.lifetimes_initial closedMessage 0⟩
  cached _ _ hfind := by cases hfind

/-- **A run.** -/
theorem coherent_run (h : s.Coherent) (steps : List Step) : (s.run steps).Coherent := by
  induction steps generalizing s with
  | nil => exact h
  | cons move rest ih => exact ih (step_coherent h move)

/-- The cache holds, under its address, the one document of the address that is not retired. -/
def CacheCurrent (s : Session) : Prop := CacheNames s.storage s.cached ∧
  ∀ key a b, CurrentAt s.storage key a → CurrentAt s.storage key b → a = b

/-- **The cache is current** after every run. -/
theorem run_cacheCurrent (closedMessage : Bytes) (steps : List Step) :
    CacheCurrent (run { storage := { closedMessage := closedMessage } } steps) := by
  obtain ⟨-, ⟨_, -, hlife⟩, hcached⟩ := coherent_run (coherent_initial closedMessage) steps
  exact ⟨hcached, fun _ _ _ => hlife.currentAt_unique⟩

end Session

end CodingHarness.Durable
