import CodingHarness.Durable.StorageState

/-!
# Fork visibility

Which entries `scanEntries` returns in a reachable state. A conversation contributes its own entries
below a cutoff, and the walk goes up the ancestry with the cutoff the last child recorded. The
ancestry of a reachable state is finite and acyclic, because a conversation is only stored after its
parent; the entry index lists exactly the stored entries of each conversation.

The walk replaces the cutoff at every level, so a fork sees every entry its parent inherits, also
those after the fork entry. `forkVisible_iff` says exactly when a fork sees what its parent sees up to
the fork entry.
-/

namespace CodingHarness.Durable

open Library Support Chord

namespace StorageState

/-! ## Reachable states -/

/-- The open states of a storage: any batches committed or restored, identities reserved and marks
raised, in any order. -/
inductive Reachable : StorageState → Prop where
  | initial (closedMessage : Bytes) : Reachable { closedMessage := closedMessage }
  | batch {s s' : StorageState} (writes : List StorageWrite) (seq : Seq) (consumeSeq : Bool)
      (run : Reachable s) (ok : s.applyBatch writes seq consumeSeq = .ok s') : Reachable s'
  | reserveId {s : StorageState} (run : Reachable s) : Reachable s.reserveId.1
  | marks {s s' : StorageState} (nextId : Int) (nextSeq : Seq) (run : Reachable s)
      (ok : s.restoreHighWaterMarks nextId nextSeq = .ok s') : Reachable s'

/-! ## The ancestry of a reachable state -/

/-- `Depth m n c`: the ancestry of `c` ends after `n` parents. -/
inductive Depth (m : OrdMap ConversationId ConversationRecord) : Nat → ConversationId → Prop where
  | root {c : ConversationId} {record : ConversationRecord} (stored : m.find c = some record)
      (top : record.parent = none) : Depth m 0 c
  | child {c : ConversationId} {record : ConversationRecord} {parent : Parent} {n : Nat}
      (stored : m.find c = some record) (edge : record.parent = some parent)
      (above : Depth m n parent.conversationId) : Depth m (n + 1) c

variable {m : OrdMap ConversationId ConversationRecord} {c : ConversationId}

theorem Depth.unique {n k : Nat} (hn : Depth m n c) (hk : Depth m k c) : n = k := by
  induction hn generalizing k with
  | root stored top =>
    cases hk with
    | root => rfl
    | child stored' edge =>
      rw [stored] at stored'
      cases stored'
      rw [top] at edge
      cases edge
  | child stored edge above ih =>
    cases hk with
    | root stored' top =>
      rw [stored] at stored'
      cases stored'
      rw [top] at edge
      cases edge
    | child stored' edge' above' =>
      rw [stored] at stored'
      cases stored'
      rw [edge] at edge'
      cases edge'
      rw [ih above']

theorem Depth.fresh {n : Nat} {visited : List ConversationId} (h : Depth m n c)
    (hvisited : ∀ v ∈ visited, ∃ k, n < k ∧ Depth m k v) : visited.contains c = false := by
  rw [List.contains_eq_mem, decide_eq_false_iff_not]
  intro hmem
  obtain ⟨k, hk, hdepth⟩ := hvisited c hmem
  have := hdepth.unique h
  omega

theorem Depth.above_visited {n : Nat} {visited : List ConversationId} (h : Depth m (n + 1) c)
    (hvisited : ∀ v ∈ visited, ∃ k, n + 1 < k ∧ Depth m k v) : ∀ v ∈ c :: visited, ∃ k, n < k ∧ Depth m k v := by
  intro v hv
  rcases List.mem_cons.1 hv with rfl | hv
  · exact ⟨n + 1, Nat.lt_succ_self n, h⟩
  · obtain ⟨k, hk, hdepth⟩ := hvisited v hv
    exact ⟨k, by omega, hdepth⟩

theorem Depth.insert {n : Nat} {c x : ConversationId}
    (record : ConversationRecord) (hnew : m.find x = none) (h : Depth m n c) : Depth (m.insert x record) n c := by
  have hkeep : ∀ d r, m.find d = some r → (m.insert x record).find d = some r := by
    intro d r hd
    have hne : d ≠ x := by
      rintro rfl
      rw [hnew] at hd
      cases hd
    rw [OrdMap.find_insert, if_neg hne, hd]
  induction h with
  | root stored top => exact .root (hkeep _ _ stored) top
  | child stored edge above ih => exact .child (hkeep _ _ stored) edge ih

/-- What every reachable state keeps about conversations and entries. -/
structure Transcript (s : StorageState) : Prop where
  isOpen : s.closed = false
  depth : ∀ c record, s.conversations.find c = some record → ∃ n < s.conversations.size, Depth s.conversations n c
  entryId : ∀ id stored, s.entries.find id = some stored → stored.record.id = id
  mem_entryIds : ∀ c id, id ∈ s.entryIds c ↔
    ∃ stored, s.entries.find id = some stored ∧ stored.record.conversationId = c
  nodup : ∀ c, (s.entryIds c).Nodup

section Step

variable {documents : OrdMap DocumentId StoredDocumentState} {batch : List StorageWrite} {seq : Seq}
  {consumeSeq : Bool} {next next' : StorageState} {write : StorageWrite}

theorem applyWrite_transcript (h : applyWrite documents batch seq consumeSeq next write = .ok next') :
    (∃ record, next.conversations.find record.id = none ∧ forkParentMissing consumeSeq next record = false ∧
        next'.conversations = next.conversations.insert record.id record ∧ next'.entries = next.entries ∧
        next'.entryIdsByConversation = next.entryIdsByConversation ∧ next'.closed = next.closed) ∨
      (∃ record, next.entries.find record.id = none ∧ next'.conversations = next.conversations ∧
        next'.entries = next.entries.insert record.id ⟨record, seq⟩ ∧
        next'.entryIdsByConversation = next.entryIdsByConversation.insert record.conversationId
          (next.entryIds record.conversationId ++ [record.id]) ∧ next'.closed = next.closed) ∨
      (next'.conversations = next.conversations ∧ next'.entries = next.entries ∧
        next'.entryIdsByConversation = next.entryIdsByConversation ∧ next'.closed = next.closed) := by
  cases applied h
  case conversation r hnew hpar =>
    rw [OrdMap.contains_eq_false_iff] at hnew
    exact Or.inl ⟨r, hnew, hpar, rfl, rfl, rfl, rfl⟩
  case entry r hnew hhead hedits =>
    rw [OrdMap.contains_eq_false_iff] at hnew
    exact Or.inr (Or.inl ⟨r, hnew, rfl, rfl, rfl, rfl⟩)
  all_goals exact Or.inr (Or.inr ⟨rfl, rfl, rfl, rfl⟩)

theorem Transcript.congr {a b : StorageState} (h : Transcript a)
    (hconvs : b.conversations = a.conversations) (hents : b.entries = a.entries)
    (hids : b.entryIdsByConversation = a.entryIdsByConversation) (hclosed : b.closed = a.closed) : Transcript b where
  isOpen := by rw [hclosed]; exact h.isOpen
  depth := by rw [hconvs]; exact h.depth
  entryId := by rw [hents]; exact h.entryId
  mem_entryIds := by
    intro c id
    rw [entryIds, hids, hents]
    exact h.mem_entryIds c id
  nodup := by
    intro c
    rw [entryIds, hids]
    exact h.nodup c

theorem forkParentMissing_eq_false {record : ConversationRecord} {parent : Parent}
    (h : forkParentMissing consumeSeq next record = false) (hpar : record.parent = some parent) :
    ∃ stored, next.conversations.find parent.conversationId = some stored := by
  simp only [forkParentMissing, hpar, Option.any_some, Bool.or_eq_false_iff, Bool.not_eq_false'] at h
  exact (OrdMap.contains_eq_true_iff _ _).1 h.1

theorem Transcript.applyWrite (hinv : Transcript next)
    (h : applyWrite documents batch seq consumeSeq next write = .ok next') : Transcript next' := by
  rcases applyWrite_transcript h with ⟨record, hnew, hpar, hc, he, hi, hcl⟩ |
    ⟨record, hnew, hc, he, hi, hcl⟩ | ⟨hc, he, hi, hcl⟩
  · refine ⟨by rw [hcl]; exact hinv.isOpen, ?_, by rw [he]; exact hinv.entryId, ?_, ?_⟩
    · intro c r hr
      rw [hc, OrdMap.size_insert_of_absent _ _ hnew]
      rw [hc, OrdMap.find_insert] at hr
      split at hr
      · rename_i hcid
        subst hcid
        have hself : (next.conversations.insert record.id record).find record.id = some record :=
          OrdMap.find_insert_self _ _ _
        cases hp : record.parent with
        | none => exact ⟨0, by omega, .root hself hp⟩
        | some parent =>
          obtain ⟨stored, hstored⟩ := forkParentMissing_eq_false hpar hp
          obtain ⟨n, hn, hdepth⟩ := hinv.depth _ _ hstored
          exact ⟨n + 1, by omega, .child hself hp (hdepth.insert record hnew)⟩
      · obtain ⟨n, hn, hdepth⟩ := hinv.depth c r hr
        exact ⟨n, by omega, hdepth.insert record hnew⟩
    · intro c id
      rw [entryIds, hi, he]
      exact hinv.mem_entryIds c id
    · intro c
      rw [entryIds, hi]
      exact hinv.nodup c
  · have hids : ∀ c, next'.entryIds c = if c = record.conversationId
        then next.entryIds record.conversationId ++ [record.id] else next.entryIds c := by
      intro c
      rw [entryIds, hi, OrdMap.find_insert]
      split
      · rfl
      · rfl
    refine ⟨by rw [hcl]; exact hinv.isOpen, by rw [hc]; exact hinv.depth, ?_, ?_, ?_⟩
    · intro id stored hstored
      rw [he] at hstored
      rcases OrdMap.find_insert_cases hstored with ⟨rfl, rfl⟩ | hstored
      · exact rfl
      · exact hinv.entryId id stored hstored
    · intro c id
      rw [hids, he, OrdMap.find_insert]
      split
      · rename_i hcc
        subst hcc
        rw [List.mem_append, List.mem_singleton, hinv.mem_entryIds]
        by_cases hid : id = record.id
        · simp [hid]
        · simp [hid]
      rename_i hcc
      rw [hinv.mem_entryIds]
      by_cases hid : id = record.id
      · subst hid
        simp [hnew, Ne.symm hcc]
      · simp [hid]
    · intro c
      rw [hids]
      split
      · refine List.nodup_append.2 ⟨hinv.nodup _, List.nodup_singleton _, ?_⟩
        intro a ha b hb
        rw [List.mem_singleton] at hb
        subst hb
        rintro rfl
        obtain ⟨stored, hstored, -⟩ := (hinv.mem_entryIds _ _).1 ha
        rw [hnew] at hstored
        cases hstored
      · exact hinv.nodup c
  · exact hinv.congr hc he hi hcl

end Step

theorem Reachable.transcript {s : StorageState} (h : Reachable s) : Transcript s := by
  induction h with
  | initial closedMessage =>
    refine ⟨rfl, ?_, ?_, ?_, ?_⟩
    · intro c record hrec
      simp at hrec
    · intro id stored hstored
      simp at hstored
    · simp [entryIds]
    · simp [entryIds]
  | batch writes seq consumeSeq run ok ih =>
    obtain ⟨-, next, hwrites, rfl⟩ := applyBatch_eq_ok.1 ok
    have hnext : Transcript next :=
      applyWrites_induction (fun _ _ _ _ hwrite hinv => hinv.applyWrite hwrite) ih hwrites
    exact hnext.congr rfl rfl rfl rfl
  | reserveId run ih => exact ih.congr rfl rfl rfl rfl
  | marks nextId nextSeq run ok ih =>
    rw [restoreHighWaterMarks] at ok
    split at ok
    · cases ok
    · cases ok
      exact ih.congr rfl rfl rfl rfl

/-! ## What a scan returns -/

/-- The stored entry `e` belongs to `c` and lies below the cutoff. -/
def OwnBelow (s : StorageState) (c : ConversationId) (cutoff : Option EntryId) (e : EntryRecord) : Prop :=
  (∃ commitSeq, s.entries.find e.id = some ⟨e, commitSeq⟩) ∧ e.conversationId = c ∧
    ∀ at_, cutoff = some at_ → e.id ≤ at_

/-- `Inherits s c a at_`: an edge of the ancestry of `c` leads to `a` and was taken at `at_`. -/
inductive Inherits (s : StorageState) : ConversationId → ConversationId → EntryId → Prop where
  | direct {c : ConversationId} {record : ConversationRecord} {parent : Parent}
      (stored : s.conversations.find c = some record) (edge : record.parent = some parent) :
      Inherits s c parent.conversationId parent.at_
  | through {c a : ConversationId} {at_ : EntryId} {record : ConversationRecord} {parent : Parent}
      (stored : s.conversations.find c = some record) (edge : record.parent = some parent)
      (above : Inherits s parent.conversationId a at_) : Inherits s c a at_

section Scan

variable {s : StorageState}

theorem Inherits.depth_lt {a : ConversationId} {at_ : EntryId} {n : Nat}
    (h : Inherits s c a at_) (hdepth : Depth s.conversations n c) : ∃ k < n, Depth s.conversations k a := by
  induction h generalizing n with
  | direct stored edge =>
    cases hdepth with
    | root stored' top =>
      rw [stored] at stored'
      cases stored'
      rw [top] at edge
      cases edge
    | child stored' edge' above =>
      rw [stored] at stored'
      cases stored'
      rw [edge] at edge'
      cases edge'
      exact ⟨_, Nat.lt_succ_self _, above⟩
  | through stored edge _ ih =>
    cases hdepth with
    | root stored' top =>
      rw [stored] at stored'
      cases stored'
      rw [top] at edge
      cases edge
    | child stored' edge' above =>
      rw [stored] at stored'
      cases stored'
      rw [edge] at edge'
      cases edge'
      obtain ⟨k, hk, hka⟩ := ih above
      exact ⟨k, Nat.lt_succ_of_lt hk, hka⟩

variable {record : ConversationRecord}

theorem inherits_iff_of_stored (stored : s.conversations.find c = some record) (a : ConversationId) (at_ : EntryId) :
    Inherits s c a at_ ↔ ∃ parent, record.parent = some parent ∧ ((a = parent.conversationId ∧ at_ = parent.at_) ∨
        Inherits s parent.conversationId a at_) := by
  constructor
  · intro h
    cases h with
    | direct stored' edge =>
      rw [stored] at stored'
      cases stored'
      exact ⟨_, edge, Or.inl ⟨rfl, rfl⟩⟩
    | through stored' edge above =>
      rw [stored] at stored'
      cases stored'
      exact ⟨_, edge, Or.inr above⟩
  rintro ⟨parent, edge, ⟨rfl, rfl⟩ | above⟩
  · exact .direct stored edge
  · exact .through stored edge above

theorem mem_ownEntries (hinv : Transcript s) (c : ConversationId) (cutoff : Option EntryId)
    (e : EntryRecord) : e ∈ s.ownEntries c cutoff ↔ OwnBelow s c cutoff e := by
  have hcutoff : ∀ id : EntryId, (cutoff.all fun at_ => decide (id ≤ at_)) = true ↔
      ∀ at_, cutoff = some at_ → id ≤ at_ := by
    cases cutoff <;> simp
  simp only [ownEntries, List.mem_map, List.mem_filterMap, List.mem_filter, List.mem_reverse,
    hinv.mem_entryIds, hcutoff]
  constructor
  · rintro ⟨stored, ⟨id, ⟨⟨stored', hstored', hconv⟩, hbelow⟩, hstored⟩, rfl⟩
    rw [hstored'] at hstored
    cases hstored
    have hid := hinv.entryId id stored hstored'
    exact ⟨⟨stored.commitSeq, by rw [hid]; exact hstored'⟩, hconv, by rw [hid]; exact hbelow⟩
  · rintro ⟨⟨commitSeq, hstored⟩, hconv, hbelow⟩
    exact ⟨⟨e, commitSeq⟩, ⟨e.id, ⟨⟨_, hstored, hconv⟩, hbelow⟩, hstored⟩, rfl⟩

theorem ownEntries_ids (hinv : Transcript s) (c : ConversationId) (cutoff : Option EntryId) :
    (s.ownEntries c cutoff).map EntryRecord.id
      = (s.entryIds c).reverse.filter fun id => cutoff.all fun at_ => decide (id ≤ at_) := by
  rw [ownEntries, List.map_map]
  have hstored : ∀ id ∈ (s.entryIds c).reverse.filter
      (fun id => cutoff.all fun at_ => decide (id ≤ at_)), ∃ stored, s.entries.find id = some stored := by
    intro id hid
    obtain ⟨stored, hstored, -⟩ := (hinv.mem_entryIds c id).1 (List.mem_reverse.1 (List.mem_filter.1 hid).1)
    exact ⟨stored, hstored⟩
  generalize List.filter _ (s.entryIds c).reverse = ids at hstored
  induction ids with
  | nil => rfl
  | cons id rest ih =>
    obtain ⟨stored, hfind⟩ := hstored id List.mem_cons_self
    rw [List.filterMap_cons_some hfind, List.map_cons, ih fun id' hid' => hstored id' (List.mem_cons_of_mem _ hid')]
    simp [hinv.entryId id stored hfind]

/-- The walk ends, collects the entries of every level below that level's own cutoff, and meets no
entry twice. -/
theorem scanEntriesLoop_spec (hinv : Transcript s) {n : Nat}
    (hdepth : Depth s.conversations n c) (fuel : Nat) (hfuel : n < fuel) (cutoff : Option EntryId)
    (visited : List ConversationId) (hvisited : ∀ v ∈ visited, ∃ k, n < k ∧ Depth s.conversations k v) :
    ∃ visible, s.scanEntriesLoop fuel c cutoff visited = .ok visible ∧ (∀ e, e ∈ visible ↔ OwnBelow s c cutoff e ∨
        ∃ a at_, Inherits s c a at_ ∧ OwnBelow s a (some at_) e) ∧ (visible.map EntryRecord.id).Nodup := by
  induction hdepth generalizing fuel cutoff visited with
  | @root c record stored top =>
    obtain ⟨fuel, rfl⟩ := Nat.exists_eq_succ_of_ne_zero (show fuel ≠ 0 by omega)
    have hfresh : visited.contains c = false := Depth.fresh (.root stored top) hvisited
    refine ⟨s.ownEntries c cutoff, ?_, ?_, ?_⟩
    · simp only [scanEntriesLoop, stored, hfresh, top]
      rfl
    · intro e
      rw [mem_ownEntries hinv]
      simp [inherits_iff_of_stored stored, top]
    · rw [ownEntries_ids hinv]
      exact (List.nodup_reverse.2 (hinv.nodup c)).filter _
  | @child c record parent n stored edge above ih =>
    obtain ⟨fuel, rfl⟩ := Nat.exists_eq_succ_of_ne_zero (show fuel ≠ 0 by omega)
    have hself : Depth s.conversations (n + 1) c := .child stored edge above
    have hfresh : visited.contains c = false := hself.fresh hvisited
    obtain ⟨later, hlater, hmem, hnodup⟩ := ih fuel (by omega) (some parent.at_) (c :: visited)
      (hself.above_visited hvisited)
    refine ⟨s.ownEntries c cutoff ++ later, ?_, ?_, ?_⟩
    · simp only [scanEntriesLoop, stored, hfresh, edge, hlater]
      rfl
    · intro e
      rw [List.mem_append, mem_ownEntries hinv, hmem]
      simp only [inherits_iff_of_stored stored, edge, Option.some.injEq, exists_eq_left']
      constructor
      · rintro (h | h | ⟨a, at_, ha, h⟩)
        · exact Or.inl h
        · exact Or.inr ⟨_, _, Or.inl ⟨rfl, rfl⟩, h⟩
        · exact Or.inr ⟨a, at_, Or.inr ha, h⟩
      rintro (h | ⟨a, at_, ⟨rfl, rfl⟩ | ha, h⟩)
      · exact Or.inl h
      · exact Or.inr (Or.inl h)
      · exact Or.inr (Or.inr ⟨a, at_, ha, h⟩)
    · rw [List.map_append]
      refine List.nodup_append.2 ⟨?_, hnodup, ?_⟩
      · rw [ownEntries_ids hinv]
        exact (List.nodup_reverse.2 (hinv.nodup c)).filter _
      -- An entry met again above would belong to two conversations of different depth.
      intro id hid id' hid' heq
      obtain ⟨e, he, rfl⟩ := List.mem_map.1 hid
      obtain ⟨e', he', rfl⟩ := List.mem_map.1 hid'
      obtain ⟨⟨commitSeq, hstored⟩, hconv, -⟩ := (mem_ownEntries hinv c cutoff e).1 he
      have hown : ∃ a k, k < n + 1 ∧ Depth s.conversations k a ∧ ∃ cut, OwnBelow s a cut e' := by
        rcases (hmem e').1 he' with h | ⟨a, at_, ha, h⟩
        · exact ⟨_, n, Nat.lt_succ_self n, above, _, h⟩
        · obtain ⟨k, hk, hka⟩ := ha.depth_lt above
          exact ⟨a, k, by omega, hka, _, h⟩
      obtain ⟨a, k, hk, hka, cut, ⟨commitSeq', hstored'⟩, hconv', -⟩ := hown
      rw [← heq, hstored] at hstored'
      cases hstored'
      have hsame : c = a := hconv.symm.trans hconv'
      subst hsame
      have := hka.unique hself
      omega

/-- **A scan with room for every entry succeeds.** It lists, newest identity first, the own entries
and for every edge of the ancestry the entries of its target up to the edge's entry. -/
theorem scanEntries_spec (hinv : Transcript s)
    (stored : s.conversations.find c = some record) {limit : Nat} (hlimit : s.entries.size ≤ limit) :
    ∃ visible, s.scanEntries c limit = .ok visible ∧ (∀ e, e ∈ visible ↔ OwnBelow s c none e ∨
        ∃ a at_, Inherits s c a at_ ∧ OwnBelow s a (some at_) e) ∧
      visible.Pairwise fun newer older => older.id < newer.id := by
  obtain ⟨n, hn, hdepth⟩ := hinv.depth c record stored
  obtain ⟨visible, hloop, hmem, hnodup⟩ := scanEntriesLoop_spec hinv hdepth
    (s.conversations.size + 1) (by omega) none [] (by simp)
  let ordered := visible.insertionSort fun left right => left.id ≤ right.id
  have hperm : ordered.Perm visible := List.perm_insertionSort _ _
  have hlen : ordered.length ≤ limit := by
    have hle : (visible.map EntryRecord.id).length ≤ s.entries.size := by
      refine OrdMap.length_le_size s.entries hnodup ?_
      intro id hid
      obtain ⟨e, he, rfl⟩ := List.mem_map.1 hid
      rcases (hmem e).1 he with h | ⟨a, at_, -, h⟩
      · obtain ⟨commitSeq, hstored⟩ := h.1
        exact ⟨_, hstored⟩
      · obtain ⟨commitSeq, hstored⟩ := h.1
        exact ⟨_, hstored⟩
    rw [List.length_map] at hle
    rw [hperm.length_eq]
    omega
  refine ⟨ordered.reverse, ?_, ?_, ?_⟩
  · have hdrop : ordered.length - limit = 0 := by omega
    rw [scanEntries, reading, hinv.isOpen, hloop]
    show Except.ok (List.drop (ordered.length - limit) ordered).reverse = _
    rw [hdrop, List.drop_zero]
  · intro e
    rw [List.mem_reverse, hperm.mem_iff, hmem]
  · rw [List.pairwise_reverse]
    have hle : ordered.Pairwise fun a b => a.id ≤ b.id := by
      exact List.pairwise_insertionSort (fun left right => left.id ≤ right.id) visible
    have hne : ordered.Pairwise fun a b => a.id ≠ b.id := by
      have hnd : (ordered.map EntryRecord.id).Nodup := (hperm.map EntryRecord.id).nodup_iff.2 hnodup
      exact List.pairwise_map.1 hnd
    exact (hle.and hne).imp fun ⟨h₁, h₂⟩ => lt_of_le_of_ne h₁ h₂

end Scan

/-! ## Forks -/

/-- What a fork `c` of `p` taken at `at_` is meant to see: what `p` sees up to `at_` and its own
entries, newest identity first. -/
def ForkVisible (s : StorageState) (c p : ConversationId) (at_ : EntryId) : Prop :=
  ∀ limit, s.entries.size ≤ limit → ∃ fromFork fromParent, s.scanEntries c limit = .ok fromFork ∧
      s.scanEntries p limit = .ok fromParent ∧
      (∀ e, e ∈ fromFork ↔ (e ∈ fromParent ∧ e.id ≤ at_) ∨ OwnBelow s c none e) ∧
      (fromFork.Pairwise fun newer older => older.id < newer.id) ∧
      ∀ e ∈ fromFork, e.conversationId ≠ c → e.id ≤ at_

/-- The parent inherits nothing newer than the fork entry: on every edge of its ancestry, the entries
that the edge lets through are not newer than `at_`. -/
def NothingNewerInherited (s : StorageState) (p : ConversationId) (at_ : EntryId) : Prop :=
  ∀ a cut, Inherits s p a cut → ∀ e, OwnBelow s a (some cut) e → e.id ≤ at_

/-- **Exactly when a fork sees what its parent sees up to the fork entry.** -/
theorem forkVisible_iff {s : StorageState} (hreach : Reachable s)
    {record : ConversationRecord} {parent : Parent} (stored : s.conversations.find c = some record)
    (edge : record.parent = some parent) : ForkVisible s c parent.conversationId parent.at_ ↔
      NothingNewerInherited s parent.conversationId parent.at_ := by
  have hinv := hreach.transcript
  obtain ⟨n, hn, hdepth⟩ := hinv.depth c record stored
  obtain ⟨n, hparentDepth⟩ : ∃ n, Depth s.conversations n parent.conversationId := by
    obtain ⟨k, -, hk⟩ := (Inherits.direct stored edge).depth_lt hdepth
    exact ⟨k, hk⟩
  obtain ⟨parentRecord, hparent⟩ : ∃ r, s.conversations.find parent.conversationId = some r := by
    cases hparentDepth with
    | root stored => exact ⟨_, stored⟩
    | child stored => exact ⟨_, stored⟩
  constructor
  · intro hvisible a cut ha e he
    obtain ⟨fromFork, fromParent, hfork, -, -, -, hlimit⟩ := hvisible _ le_rfl
    obtain ⟨list, hscan, hmem, -⟩ := scanEntries_spec hinv stored (le_refl s.entries.size)
    rw [hfork] at hscan
    cases hscan
    have ha' : Inherits s c a cut := .through stored edge ha
    refine hlimit e ((hmem e).2 (Or.inr ⟨a, cut, ha', he⟩)) ?_
    -- The ancestor is a proper one, so its entry is not an entry of the fork.
    intro hconv
    obtain ⟨k, hk, hka⟩ := ha'.depth_lt hdepth
    rw [he.2.1] at hconv
    subst hconv
    have := hka.unique hdepth
    omega
  intro hcond limit hlimit
  obtain ⟨fromFork, hfork, hmemFork, hsorted⟩ := scanEntries_spec hinv stored hlimit
  obtain ⟨fromParent, hscanParent, hmemParent, -⟩ := scanEntries_spec hinv hparent hlimit
  have hiff : ∀ e, e ∈ fromFork ↔ (e ∈ fromParent ∧ e.id ≤ parent.at_) ∨ OwnBelow s c none e := by
    intro e
    rw [hmemFork, hmemParent]
    simp only [inherits_iff_of_stored stored, edge, Option.some.injEq, exists_eq_left']
    constructor
    · rintro (h | ⟨a, at_, ⟨rfl, rfl⟩ | ha, h⟩)
      · exact Or.inr h
      · exact Or.inl ⟨Or.inl ⟨h.1, h.2.1, by simp⟩, h.2.2 _ rfl⟩
      · exact Or.inl ⟨Or.inr ⟨a, at_, ha, h⟩, hcond a at_ ha e h⟩
    rintro (⟨h | ⟨a, at_, ha, h⟩, hle⟩ | h)
    · exact Or.inr ⟨_, _, Or.inl ⟨rfl, rfl⟩, h.1, h.2.1, by simpa using hle⟩
    · exact Or.inr ⟨a, at_, Or.inr ha, h⟩
    · exact Or.inl h
  refine ⟨fromFork, fromParent, hfork, hscanParent, hiff, hsorted, ?_⟩
  intro e he hconv
  rcases (hiff e).1 he with ⟨-, hle⟩ | hown
  · exact hle
  · exact absurd hown.2.1 hconv

/-! ## A fork at an inherited entry -/

/-- Conversation `2` holds the entries `3` and `4`, `5` forks it at `4` and holds `7`, `6` forks `5` at the
inherited entry `3`, and `8` forks `5` at its own entry. -/
def nestedForkBatch : List StorageWrite := [.conversation (some { id := 2 }),
    .entry (some { id := 3, conversationId := 2 }),
    .entry (some { id := 4, conversationId := 2 }),
    .conversation (some { id := 5, parent := some ⟨2, 4⟩ }),
    .conversation (some { id := 6, parent := some ⟨5, 3⟩ }),
    .entry (some { id := 7, conversationId := 5 }),
    .conversation (some { id := 8, parent := some ⟨5, 7⟩ })]

def nestedFork : StorageState := match StorageState.applyNext {} nestedForkBatch with
  | .ok s => s
  | .error _ => {}

theorem nestedFork_reachable : Reachable nestedFork := by
  have hok : StorageState.applyBatch { closedMessage := [] } nestedForkBatch 1 true = .ok nestedFork := by decide
  exact .batch nestedForkBatch 1 true (.initial []) hok

/-- The fork at entry `3` shows entry `4` of the grand-ancestor. -/
theorem nestedFork_shows_newer_entry : Reachable nestedFork ∧
      nestedFork.conversations.find 6 = some { id := 6, parent := some ⟨5, 3⟩ } ∧
      ¬ForkVisible nestedFork 6 5 3 := by
  refine ⟨nestedFork_reachable, by decide, ?_⟩
  intro h
  obtain ⟨fromFork, fromParent, hfork, -, -, -, hlimit⟩ := h 3 (by decide)
  cases hfork
  have hnewer := hlimit { id := 4, conversationId := 2 } List.mem_cons_self (by decide)
  exact absurd hnewer (by decide)

/-- The fork `8` shows what `5` inherits, which is older than the entry it forks at. -/
theorem nestedFork_own_entry_visible : nestedFork.conversations.find 8 = some { id := 8, parent := some ⟨5, 7⟩ } ∧
      ForkVisible nestedFork 8 5 7 := by
  have hstored : nestedFork.conversations.find 8 = some { id := 8, parent := some ⟨5, 7⟩ } := by
    decide
  have hmiddle : nestedFork.conversations.find 5 = some { id := 5, parent := some ⟨2, 4⟩ } := by decide
  have hroot : nestedFork.conversations.find 2 = some { id := 2 } := by decide
  refine ⟨hstored, (forkVisible_iff nestedFork_reachable hstored rfl).2 ?_⟩
  intro a cut ha e he
  obtain ⟨parent, hparent, ⟨-, rfl⟩ | habove⟩ := (inherits_iff_of_stored hmiddle a cut).1 ha
  · cases hparent
    exact (he.2.2 4 rfl).trans (by decide)
  cases hparent
  obtain ⟨parent, hnone, -⟩ := (inherits_iff_of_stored hroot a cut).1 habove
  cases hnone

end StorageState

end CodingHarness.Durable
