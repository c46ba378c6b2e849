import CodingHarness.Durable.Admission

/-!
# The inbox and the submission table

The queue of a conversation lives in its inbox document and the status of a submission in the
table. `Agree` says that the two tell the same: the items of an inbox are the queued submissions of
its conversation, one for each. Inside a commit the table runs ahead of the document, so the invariant
of a commit (`Progress`) is about the items that the inbox will have (`pending`).

`runSteps_agree` carries it over every run, together with what becomes of a submission (`Follows`): one
that has left the queue never returns to it and keeps its entry.
-/

namespace CodingHarness.Durable

open Library Support
open List (mem_append_left mem_append_right mem_cons_of_mem mem_cons_self)
open Function (update_of_ne update_self)
open OrdMap (find_insert find_insert_cases find_insert_self)

namespace Workflow

/-! ## Agreement -/

/-- The status of a submission that waits in the inbox. -/
def queued : Bytes := "queued"

/-- The inboxes list the queued submissions of the table. -/
structure Agree (storage : StorageState) (inbox : ConversationId → List InboxItem) : Prop where
  minted : ∀ id record, storage.submissions.find id = some record → record.id = id ∧ id < storage.nextId
  unplaced : ∀ id record, storage.submissions.find id = some record → record.status = queued → record.entry = none
  distinct : ∀ c, ((inbox c).map InboxItem.id).Nodup
  waiting : ∀ c, ∀ item ∈ inbox c, ∃ record, storage.submissions.find item.id = some record ∧
    record.conversationId = c ∧ record.status = queued ∧ (item.mode = .write ↔ record.type = "write")
  listed : ∀ id record, storage.submissions.find id = some record → record.status = queued →
    ∃ item ∈ inbox record.conversationId, item.id = id

/-- What may become of a submission: it leaves the queue at most once, with its entry, and a settled
one stays as it is. -/
structure Follows (before after : SubmissionRecord) : Prop where
  conversationId : after.conversationId = before.conversationId
  type : after.type = before.type
  left : before.status ≠ queued → after.status ≠ queued ∧ after.entry = before.entry
  settled : before.isTerminal = true → after = before

theorem Follows.refl (record : SubmissionRecord) : Follows record record :=
  ⟨rfl, rfl, fun h => ⟨h, rfl⟩, fun _ => rfl⟩

theorem Follows.trans {a b c : SubmissionRecord} (hab : Follows a b) (hbc : Follows b c) : Follows a c where
  conversationId := hbc.conversationId.trans hab.conversationId
  type := hbc.type.trans hab.type
  left h := by
    obtain ⟨hstat, hentry⟩ := hab.left h
    obtain ⟨hstat', hentry'⟩ := hbc.left hstat
    exact ⟨hstat', hentry'.trans hentry⟩
  settled h := by
    have hb := hab.settled h
    rw [hb] at hbc
    exact hbc.settled h

/-- The settlement names one of the two documented statuses. -/
def Ends (settlement : SubmissionSettlement) : Prop :=
  settlement.status = ofString "done" ∨ settlement.status = ofString "unanswered"

theorem ends_stale : Ends staleSettlement := .inr rfl

theorem ends_done (answer : Option EntryId) : Ends ⟨"done", answer, none, none⟩ := .inl rfl

theorem ends_unanswered (reason : Bytes) (detail : Option Json) : Ends (unanswered reason detail) := .inr rfl

/-- The change takes its submission out of the queue. -/
def Leaves : SubmissionChange → Prop
  | .settle _ settlement => Ends settlement
  | .place _ _ => True

variable {id : SubmissionId}

theorem leaves_place {entry : EntryId} : Leaves (.place id entry) := trivial

theorem Ends.leaves {settlement : SubmissionSettlement} (h : Ends settlement) :
    Leaves (.settle id settlement) := h

theorem Ends.ne_queued {settlement : SubmissionSettlement} (h : Ends settlement) : settlement.status ≠ queued := by
  rcases h with h | h <;> rw [h] <;> decide

variable {current next : SubmissionRecord}

theorem applySubmissionChange_follows {change : SubmissionChange}
    (h : applySubmissionChange current change = .ok next) (hleaves : Leaves change) :
    next.id = current.id ∧ next.status ≠ queued ∧ Follows current next := by
  cases changed h with
  | ended hended =>
    refine ⟨rfl, fun hqueued => ?_, Follows.refl current⟩
    rw [SubmissionRecord.isTerminal, hqueued] at hended
    exact absurd hended (by decide)
  | placed id entry hopen hqueued =>
    refine ⟨rfl, ?_, rfl, rfl, fun hleft => absurd hqueued hleft, fun ht => absurd ht hopen⟩
    dsimp only
    split <;> decide
  | settled id settlement hopen =>
    have hstat := Ends.ne_queued hleaves
    exact ⟨rfl, hstat, rfl, rfl, fun _ => ⟨hstat, rfl⟩, fun ht => absurd ht hopen⟩

variable {storage : StorageState} {inbox : ConversationId → List InboxItem}
  {other : ConversationId → List InboxItem}

theorem Agree.perm (h : Agree storage inbox) (hperm : ∀ c, (inbox c).Perm (other c)) : Agree storage other where
  minted := h.minted
  unplaced := h.unplaced
  distinct c := ((hperm c).map InboxItem.id).nodup_iff.1 (h.distinct c)
  waiting c item hitem := h.waiting c item ((hperm c).mem_iff.2 hitem)
  listed id record hfind hqueued := by
    obtain ⟨item, hitem, hid⟩ := h.listed id record hfind hqueued
    exact ⟨item, (hperm _).mem_iff.1 hitem, hid⟩

theorem Agree.change (h : Agree storage inbox)
    (hfind : storage.submissions.find id = some current) (hid : next.id = current.id) (hstat : next.status ≠ queued)
    (hother : ∀ c, (other c).Sublist (inbox c)) (hmem : ∀ c item, item ∈ other c ↔ item ∈ inbox c ∧ item.id ≠ id) :
    Agree { storage with submissions := storage.submissions.insert id next } other where
  minted other record hrec := by
    rcases find_insert_cases hrec with ⟨heq, rfl⟩ | hrec
    · obtain ⟨hcur, hlt⟩ := h.minted id current hfind
      rw [heq]
      exact ⟨hid.trans hcur, hlt⟩
    · exact h.minted other record hrec
  unplaced other record hrec hqueued := by
    rcases find_insert_cases hrec with ⟨-, rfl⟩ | hrec
    · exact absurd hqueued hstat
    · exact h.unplaced other record hrec hqueued
  distinct c := ((hother c).map InboxItem.id).nodup (h.distinct c)
  waiting c item hitem := by
    obtain ⟨hmem', hne⟩ := (hmem c item).1 hitem
    obtain ⟨record, hrec, hrest⟩ := h.waiting c item hmem'
    refine ⟨record, ?_, hrest⟩
    rw [find_insert, if_neg hne]
    exact hrec
  listed other record hrec hqueued := by
    rw [find_insert] at hrec
    split at hrec
    · cases hrec
      exact absurd hqueued hstat
    next hne =>
    obtain ⟨item, hitem, hitemId⟩ := h.listed other record hrec hqueued
    exact ⟨item, (hmem _ item).2 ⟨hitem, by rw [hitemId]; exact hne⟩, hitemId⟩

theorem Agree.create (h : Agree storage inbox) (record : SubmissionRecord)
    (hnew : storage.submissions.find record.id = none) (hlt : record.id < storage.nextId)
    (hstat : record.status ≠ queued) :
    Agree { storage with submissions := storage.submissions.insert record.id record } inbox where
  minted id found hfound := by
    rcases find_insert_cases hfound with ⟨rfl, rfl⟩ | hfound
    · exact ⟨rfl, hlt⟩
    · exact h.minted id found hfound
  unplaced id found hfound hqueued := by
    rcases find_insert_cases hfound with ⟨-, rfl⟩ | hfound
    · exact absurd hqueued hstat
    · exact h.unplaced id found hfound hqueued
  distinct := h.distinct
  waiting c item hitem := by
    obtain ⟨found, hfound, hrest⟩ := h.waiting c item hitem
    refine ⟨found, ?_, hrest⟩
    rw [find_insert, if_neg]
    · exact hfound
    rintro heq
    rw [heq, hnew] at hfound
    cases hfound
  listed id found hfound hqueued := by
    rcases find_insert_cases hfound with ⟨-, rfl⟩ | hfound
    · exact absurd hqueued hstat
    · exact h.listed id found hfound hqueued

theorem Agree.enqueue (h : Agree storage inbox) (record : SubmissionRecord) (item : InboxItem)
    (hnew : storage.submissions.find record.id = none) (hlt : record.id < storage.nextId)
    (hstat : record.status = queued) (hentry : record.entry = none) (hid : item.id = record.id)
    (hmode : item.mode = .write ↔ record.type = "write") :
    Agree { storage with submissions := storage.submissions.insert record.id record }
      (Function.update inbox record.conversationId (inbox record.conversationId ++ [item])) where
  minted id found hfound := by
    rcases find_insert_cases hfound with ⟨rfl, rfl⟩ | hfound
    · exact ⟨rfl, hlt⟩
    · exact h.minted id found hfound
  unplaced id found hfound hqueued := by
    rcases find_insert_cases hfound with ⟨-, rfl⟩ | hfound
    · exact hentry
    · exact h.unplaced id found hfound hqueued
  distinct c := by
    by_cases hc : c = record.conversationId
    · subst hc
      rw [update_self, List.map_append, List.nodup_append]
      refine ⟨h.distinct _, by simp, ?_⟩
      intro a ha b hb heq
      obtain ⟨other, hother, rfl⟩ := List.mem_map.1 ha
      obtain ⟨found, hfound, -⟩ := h.waiting _ other hother
      rw [List.map_singleton, List.mem_singleton] at hb
      rw [heq, hb, hid, hnew] at hfound
      cases hfound
    · rw [update_of_ne hc]
      exact h.distinct c
  waiting c waiter hwaiter := by
    have hother : waiter ∈ inbox c → ∃ found,
        (storage.submissions.insert record.id record).find waiter.id = some found ∧
          found.conversationId = c ∧ found.status = queued ∧ (waiter.mode = .write ↔ found.type = "write") := by
      intro hmem
      obtain ⟨found, hfound, hrest⟩ := h.waiting c waiter hmem
      refine ⟨found, ?_, hrest⟩
      rw [find_insert, if_neg]
      · exact hfound
      rintro heq
      rw [heq, hnew] at hfound
      cases hfound
    by_cases hc : c = record.conversationId
    · subst hc
      rw [update_self, List.mem_append, List.mem_singleton] at hwaiter
      rcases hwaiter with hwaiter | rfl
      · exact hother hwaiter
      · refine ⟨record, ?_, rfl, hstat, hmode⟩
        rw [hid, find_insert_self]
    · rw [update_of_ne hc] at hwaiter
      exact hother hwaiter
  listed id found hfound hqueued := by
    rcases find_insert_cases hfound with ⟨rfl, rfl⟩ | hfound
    · exact ⟨item, by simp, hid.trans rfl⟩
    obtain ⟨waiter, hwaiter, hwaiterId⟩ := h.listed id found hfound hqueued
    refine ⟨waiter, ?_, hwaiterId⟩
    by_cases hc : found.conversationId = record.conversationId
    · rw [hc, update_self]
      rw [hc] at hwaiter
      exact mem_append_left _ hwaiter
    · rw [update_of_ne hc]
      exact hwaiter

/-! ## Inside a commit -/

/-- A commit that started at `start`: the inboxes it will leave (`pending`) agree with the table, and
the submissions `placed` have left the queue. -/
structure Progress (start : Workflow) (inbox pending : ConversationId → List InboxItem)
    (placed : List SubmissionId) (s : Workflow) : Prop where
  grown : start.storage.nextId ≤ s.storage.nextId
  inbox : s.inbox = inbox
  agree : Agree s.storage pending
  since : ∀ id before, start.storage.submissions.find id = some before →
    ∃ after, s.storage.submissions.find id = some after ∧ Follows before after
  runs : ∀ c run, s.run c = some run → ∀ input ∈ run.inputs, ∃ record,
    s.storage.submissions.find input = some record ∧ record.status ≠ queued
  placed : ∀ input ∈ placed, ∃ record, s.storage.submissions.find input = some record ∧ record.status ≠ queued

def Grown (start : Workflow) (s : Workflow) : Prop := start.storage.nextId ≤ s.storage.nextId

/-- The action keeps what the commit has done so far. -/
def Advances {α : Type} (start : Workflow) (inbox pending : ConversationId → List InboxItem)
    (placed : List SubmissionId) (x : WorkflowAction α) : Prop :=
  Ensures (Progress start inbox pending placed) x (fun _ => Progress start inbox pending placed) (Grown start)

variable {start : Workflow} {pending : ConversationId → List InboxItem} {placed : List SubmissionId} {s : Workflow}

section

variable (h : Progress start inbox pending placed s)
include h

theorem Progress.tables
    (hsubs : storage.submissions = s.storage.submissions) (hnextId : s.storage.nextId ≤ storage.nextId) :
    Progress start inbox pending placed { s with storage } where
  grown := h.grown.trans hnextId
  inbox := h.inbox
  agree :=
    { minted := fun id record hrec => by
        rw [hsubs] at hrec
        obtain ⟨hid, hlt⟩ := h.agree.minted id record hrec
        exact ⟨hid, hlt.trans_le hnextId⟩
      unplaced := by
        rw [hsubs]
        exact h.agree.unplaced
      distinct := h.agree.distinct
      waiting := by
        rw [hsubs]
        exact h.agree.waiting
      listed := by
        rw [hsubs]
        exact h.agree.listed }
  since := by
    rw [hsubs]
    exact h.since
  runs := by
    rw [hsubs]
    exact h.runs
  placed := by
    rw [hsubs]
    exact h.placed

theorem Progress.perm (hperm : ∀ c, (pending c).Perm (other c)) :
    Progress start inbox other placed s :=
  { h with agree := h.agree.perm hperm }

theorem Progress.minted :
    Progress start inbox pending placed s.minted := h.tables rfl (Int.le_add_one (le_refl _))

theorem Progress.appended (record : EntryRecord) :
    Progress start inbox pending placed (s.appended record) :=
  h.tables rfl (Int.le_add_one (le_refl _))

theorem Progress.find_nextId :
    s.storage.submissions.find s.storage.nextId = none := by
  cases hfind : s.storage.submissions.find s.storage.nextId with
  | none => rfl
  | some record => exact absurd (h.agree.minted _ record hfind).2 (lt_irrefl _)

end

theorem ensures_appendEntry (c : ConversationId) (draft : EntryDraft) :
    Advances start inbox pending placed (appendEntry c draft) := by
  apply Ensures.ofStates
  intro s hs
  apply (ensures_appendEntryAt s c draft).mono (fun _ ht => ht)
  · rintro record t ⟨-, -, rfl⟩
    exact hs.appended record
  · rintro t rfl
    exact hs.minted.grown

theorem left_of_change {id input : SubmissionId} {next : SubmissionRecord} (hstat : next.status ≠ queued)
    (h : ∃ record, s.storage.submissions.find input = some record ∧ record.status ≠ queued) :
    ∃ record, (s.withSubmission id next).storage.submissions.find input = some record ∧ record.status ≠ queued := by
  obtain ⟨record, hrec, hleft⟩ := h
  by_cases heq : input = id
  · exact ⟨next, by rw [heq]; exact find_insert_self _ _ _, hstat⟩
  refine ⟨record, ?_, hleft⟩
  rw [← hrec]
  exact (find_insert _ _ _ _).trans (if_neg heq)

theorem Progress.change (h : Progress start inbox pending placed s) {change : SubmissionChange}
    (hfind : s.storage.submissions.find change.id = some current)
    (hchange : applySubmissionChange current change = .ok next) (hleaves : Leaves change) (hother : ∀ c, (other c).Sublist (pending c))
    (hmem : ∀ c item, item ∈ other c ↔ item ∈ pending c ∧ item.id ≠ change.id) :
    Progress start inbox other (change.id :: placed) (s.withSubmission change.id next) := by
  obtain ⟨hid, hstat, hfollows⟩ := applySubmissionChange_follows hchange hleaves
  refine ⟨h.grown, h.inbox, h.agree.change hfind hid hstat hother hmem, ?_, ?_, ?_⟩
  · intro id before hprev
    obtain ⟨after, hafter, hsince⟩ := h.since id before hprev
    by_cases heq : id = change.id
    · rw [heq, hfind] at hafter
      cases hafter
      exact ⟨next, by rw [heq]; exact find_insert_self _ _ _, hsince.trans hfollows⟩
    refine ⟨after, ?_, hsince⟩
    rw [← hafter]
    exact (find_insert _ _ _ _).trans (if_neg heq)
  · intro c run hrun input hinput
    exact left_of_change hstat (h.runs c run hrun input hinput)
  · intro input hinput
    rcases List.mem_cons.1 hinput with rfl | hinput
    · exact ⟨next, find_insert_self _ _ _, hstat⟩
    · exact left_of_change hstat (h.placed input hinput)

variable {item : InboxItem}

/-- The change of a waiting submission takes its item out of the inbox to be. -/
theorem ensures_leave (c : ConversationId) {rest : List InboxItem}
    {change : SubmissionChange} (hid : change.id = item.id) (hleaves : Leaves change) :
    Ensures (Progress start inbox (Function.update pending c (item :: rest)) placed) (changeSubmission change)
      (fun _ => Progress start inbox (Function.update pending c rest) (item.id :: placed)) (Grown start) := by
  apply Ensures.ofStates
  intro s hs
  apply (ensures_changeSubmissionAt s change).mono (fun _ ht => ht)
  · rintro _ t ⟨current, next, hfind, hchange, rfl⟩
    rw [← hid]
    apply hs.change hfind hchange hleaves
    · intro d
      by_cases hd : d = c
      · subst hd
        rw [update_self, update_self]
        exact List.sublist_cons_self item rest
      · rw [update_of_ne hd, update_of_ne hd]
    intro d other
    by_cases hd : d = c
    · subst hd
      have hdist := hs.agree.distinct d
      rw [update_self, List.map_cons, List.nodup_cons] at hdist
      rw [update_self, update_self, List.mem_cons, hid]
      constructor
      · intro hrest
        exact ⟨.inr hrest, fun heq => hdist.1 (heq ▸ List.mem_map_of_mem hrest)⟩
      rintro ⟨rfl | hrest, hne⟩
      · exact absurd rfl hne
      · exact hrest
    rw [update_of_ne hd, update_of_ne hd]
    refine ⟨fun hmem => ⟨hmem, ?_⟩, fun hmem => hmem.1⟩
    -- The other conversation has no item of this submission.
    intro heq
    have hitem : item ∈ Function.update pending c (item :: rest) c := by
      rw [update_self]
      exact mem_cons_self ..
    have hother : other ∈ Function.update pending c (item :: rest) d := by
      rw [update_of_ne hd]
      exact hmem
    obtain ⟨r, hr, hrc, -⟩ := hs.agree.waiting c item hitem
    obtain ⟨r', hr', hrd, -⟩ := hs.agree.waiting d other hother
    rw [heq, hid, hr] at hr'
    cases hr'
    exact hd (hrd.symm.trans hrc)
  · rintro t rfl
    exact hs.grown

theorem ensures_changeLeft {change : SubmissionChange} (hid : change.id ∈ placed) (hleaves : Leaves change) :
    Advances start inbox pending placed (changeSubmission change) := by
  apply Ensures.ofStates
  intro s hs
  apply (ensures_changeSubmissionAt s change).mono (fun _ ht => ht)
  · rintro _ t ⟨current, next, hfind, hchange, rfl⟩
    obtain ⟨record, hrec, hleft⟩ := hs.placed change.id hid
    rw [hfind] at hrec
    cases hrec
    have hnext := hs.change hfind hchange hleaves (fun c => List.Sublist.refl _) fun c item => by
      refine ⟨fun hmem => ⟨hmem, ?_⟩, fun hmem => hmem.1⟩
      intro heq
      obtain ⟨r, hr, -, hqueued, -⟩ := hs.agree.waiting c item hmem
      rw [heq, hfind] at hr
      cases hr
      exact hleft hqueued
    exact { hnext with placed := fun input hinput => hnext.placed input (mem_cons_of_mem _ hinput) }
  · rintro t rfl
    exact hs.grown

variable {E : Workflow → Prop}

theorem ensures_setInbox (c : ConversationId) (items : List InboxItem) :
    Ensures (Progress start inbox pending placed) (setInbox c items)
      (fun _ => Progress start (Function.update inbox c items) pending placed) E := by
  intro s hs
  exact { hs with inbox := by rw [← hs.inbox] }

theorem ensures_setRun (c : ConversationId) {run : Option LiveRun}
    (hrun : ∀ r, run = some r → ∀ input ∈ r.inputs, input ∈ placed) :
    Ensures (Progress start inbox pending placed) (setRun c run)
      (fun _ => Progress start inbox pending placed) E := by
  intro s hs
  refine { hs with runs := ?_ }
  intro d r hr input hinput
  change Function.update s.run c run d = some r at hr
  by_cases hd : d = c
  · subst hd
    rw [update_self] at hr
    exact hs.placed input (hrun r hr input hinput)
  · rw [update_of_ne hd] at hr
    exact hs.runs d r hr input hinput

variable (settings : WorkflowSettings)

theorem ensures_startRun (c : ConversationId)
    {inputs : List SubmissionId} (hinputs : ∀ input ∈ inputs, input ∈ placed) :
    Advances start inbox pending placed (startRun settings c inputs) := by
  apply Ensures.ofStates
  intro s hs
  refine (ensures_mintIdAt s).bind fun task => ?_
  apply ensures_assume
  rintro rfl
  refine (ensures_modify (G := fun _ => Progress start inbox pending placed) ?_).bind fun _ =>
    ensures_setRun c ?_
  · rintro t rfl
    exact hs.minted.tables rfl (le_refl _)
  · rintro r hr input hinput
    cases hr
    exact hinputs input hinput

variable {c : ConversationId}

theorem Progress.withRun (h : Progress start inbox pending placed s) {run : LiveRun} (hrun : s.run c = some run) :
    Progress start inbox pending (run.inputs ++ placed) s := by
  refine { h with placed := ?_ }
  intro input hinput
  rcases List.mem_append.1 hinput with hinput | hinput
  · exact h.runs c run hrun input hinput
  · exact h.placed input hinput

theorem Progress.fewer (h : Progress start inbox pending placed s)
    {fewer : List SubmissionId} (hfewer : ∀ input ∈ fewer, input ∈ placed) : Progress start inbox pending fewer s :=
  { h with placed := fun input hinput => h.placed input (hfewer input hinput) }

variable {users : List SubmissionId}

theorem ensures_joinRunInputs (c : ConversationId) (task : TaskId) (husers : ∀ user ∈ users, user ∈ placed) :
    Advances start inbox pending placed (joinRunInputs c task users) := by
  refine ensures_read fun s hs => ?_
  cases hrun : s.run c with
  | none =>
    rintro t rfl
    exact hs
  | some run =>
    simp only
    split
    · have hjoined := (hs.withRun hrun)
      apply (ensures_setRun c ?_).mono
      · rintro t rfl
        exact hjoined
      · intro _ t ht
        exact ht.fewer fun input hinput => mem_append_right _ hinput
      · intro t ht
        exact ht
      · rintro r hr input hinput
        cases hr
        rcases List.mem_append.1 hinput with hinput | hinput
        · exact mem_append_left _ hinput
        · exact mem_append_right _ (husers input hinput)
    · rintro t rfl
      exact hs

theorem ensures_handOver (c : ConversationId) :
    Advances start inbox pending placed (handOver settings c) := by
  refine ensures_read fun s hs => ?_
  refine ensures_checkThen (fun t ht => by rw [ht]; exact hs.grown) fun run hrun => ?_
  rw [present_eq_ok] at hrun
  apply (ensures_startRun settings c (fun input hinput => mem_append_left _ hinput)).mono
  · rintro t rfl
    exact hs.withRun hrun
  · intro _ t ht
    exact ht.fewer fun input hinput => mem_append_right _ hinput
  · intro t ht
    exact ht

variable {settlement : SubmissionSettlement}

theorem ensures_settleInputs (hends : Ends settlement) (inputs : List SubmissionId)
    (hinputs : ∀ input ∈ inputs, input ∈ placed) :
    Advances start inbox pending placed (settleInputs settlement inputs) := by
  induction inputs with
  | nil => exact ensures_pure fun _ hs => hs
  | cons input rest ih =>
    refine (ensures_changeLeft (hinputs input (mem_cons_self ..)) hends.leaves).bind fun _ => ?_
    exact ih fun other hother => hinputs other (mem_cons_of_mem _ hother)

theorem ensures_endRun (c : ConversationId) (task : TaskId) (hends : Ends settlement) :
    Advances start inbox pending placed (endRun c task settlement) := by
  refine ensures_read fun s hs => ?_
  cases hrun : s.run c with
  | none =>
    rintro t rfl
    exact hs
  | some run =>
    simp only
    split
    · apply Ensures.mono (Q := fun _ => Progress start inbox pending (run.inputs ++ placed))
        ((ensures_settleInputs hends run.inputs fun input hinput =>
          mem_append_left placed hinput).bind fun _ => ensures_setRun c (by simp))
      · rintro t rfl
        exact hs.withRun hrun
      · intro _ t ht
        exact ht.fewer fun input hinput => mem_append_right _ hinput
      · intro t ht
        exact ht
    · rintro t rfl
      exact hs

/-! ## Boundaries -/

/-- No item before the position has the mode. -/
def isFirst (items : List InboxItem) (index : Nat) (mode : InboxMode) : Bool :=
  (items.take index).all fun item => item.mode ≠ mode

/-- The boundary takes the item at the position as a user. -/
def takesUser (settings : WorkflowSettings) (items : List InboxItem) (final : Bool)
    (item : InboxItem × Nat) : Bool :=
  match item.1.mode with
  | .write => false
  | .steer => settings.steeringMode = .all || isFirst items item.2 .steer
  | .followUp => final && (settings.followUpMode = .all || isFirst items item.2 .followUp)

variable {items : List InboxItem} {queueMode : QueueMode}

theorem contains_pick {mode : InboxMode} {item : InboxItem × Nat} (hitem : item ∈ items.zipIdx) :
    (pick items mode queueMode).contains item.2 =
      (item.1.mode = mode && (queueMode = .all || isFirst items item.2 mode)) := by
  have hat := List.mem_zipIdx_iff_getElem?.1 hitem
  obtain ⟨hlt, heq⟩ := List.getElem?_eq_some_iff.1 hat
  rw [Bool.eq_iff_iff, List.contains_iff_mem]
  unfold pick
  cases queueMode with
  | all =>
    simp only [List.mem_map, List.mem_filter, List.mem_zipIdx_iff_getElem?, decide_eq_true_eq, decide_true,
      Bool.true_or, Bool.and_true]
    constructor
    · rintro ⟨other, ⟨hother, hmode⟩, hindex⟩
      rw [hindex, hat] at hother
      rwa [Option.some.inj hother]
    · exact fun hmode => ⟨item, ⟨hat, hmode⟩, rfl⟩
  | oneAtATime =>
    dsimp only
    rw [← List.map_take, List.take_one, List.head?_filter]
    simp only [List.mem_map, Option.mem_toList, List.find?_eq_some_iff_getElem, List.length_zipIdx,
      List.getElem_zipIdx, isFirst, Bool.and_eq_true, decide_eq_true_eq, reduceCtorEq, decide_false,
      Bool.false_or, List.all_eq_true, List.mem_take_iff_getElem, zero_add]
    constructor
    · rintro ⟨other, ⟨hmode, index, hindex, rfl, hfirst⟩, heqIndex⟩
      subst heqIndex
      refine ⟨by rw [← heq]; exact hmode, ?_⟩
      rintro earlier ⟨place, hplace, rfl⟩
      simpa using hfirst place (by omega)
    rintro ⟨hmode, hfirst⟩
    refine ⟨item, ⟨hmode, item.2, hlt, by rw [heq], fun earlier hearlier => ?_⟩, rfl⟩
    simpa using hfirst _ ⟨earlier, by omega, rfl⟩

theorem mem_zipIdx_mode {mode : InboxMode} {item : InboxItem × Nat} (hitem : item ∈ items.zipIdx)
    (hpick : (pick items mode queueMode).contains item.2 = true) : item.1.mode = mode := by
  rw [contains_pick hitem, Bool.and_eq_true, decide_eq_true_iff] at hpick
  exact hpick.1

variable {settings}

theorem contains_pickUsers {final : Bool} {item : InboxItem × Nat} (hitem : item ∈ items.zipIdx) :
    (pickUsers settings items final).contains item.2 = takesUser settings items final item := by
  rw [pickUsers, List.contains_append, contains_pick hitem, takesUser]
  have hfollow : (if final then pick items .followUp settings.followUpMode else []).contains item.2 =
      (final && (item.1.mode = .followUp && (settings.followUpMode = .all || isFirst items item.2 .followUp))) := by
    cases final with
    | true => rw [if_pos rfl, contains_pick hitem, Bool.true_and]
    | false => rfl
  rw [hfollow]
  cases item.1.mode <;> simp

theorem pickUsers_mode {final : Bool} {item : InboxItem × Nat} (hitem : item ∈ items.zipIdx)
    (hpick : (pickUsers settings items final).contains item.2 = true) : item.1.mode ≠ .write := by
  intro hmode
  rw [contains_pickUsers hitem, takesUser, hmode] at hpick
  cases hpick

theorem mem_itemsAt {indexes : List Nat} (h : item ∈ itemsAt items indexes):
    ∃ index, (item, index) ∈ items.zipIdx ∧ indexes.contains index = true := by
  obtain ⟨pair, hpair, rfl⟩ := List.mem_map.1 h
  obtain ⟨hmem, hindex⟩ := List.mem_filter.1 hpair
  exact ⟨pair.2, hmem, hindex⟩

theorem mem_of_mem_zipIdx {index : Nat} (h : (item, index) ∈ items.zipIdx) : item ∈ items :=
  List.mem_of_getElem? (List.mem_zipIdx_iff_getElem?.1 h)

theorem mem_itemsWithout {indexes : List Nat} (h : item ∈ itemsWithout items indexes) : item ∈ items := by
  obtain ⟨pair, hpair, rfl⟩ := List.mem_map.1 h
  exact mem_of_mem_zipIdx (List.mem_filter.1 hpair).1

variable (settings)

/-- A boundary takes the inbox apart: the writes, the selected users and the items that stay. -/
theorem boundary_perm (items : List InboxItem) (final : Bool) :
    items.Perm (itemsAt items (pick items .write .all) ++ (itemsAt items (pickUsers settings items final) ++
        itemsWithout items (pick items .write .all ++ pickUsers settings items final))) := by
  have hmap : items = items.zipIdx.map Prod.fst := by simp
  have hfirst := List.filter_append_perm (fun item => (pick items .write .all).contains item.2) items.zipIdx
  have hsnd := List.filter_append_perm (fun item => (pickUsers settings items final).contains item.2)
    (items.zipIdx.filter fun item => !(pick items .write .all).contains item.2)
  have husers : (items.zipIdx.filter fun item => !(pick items .write .all).contains item.2).filter
        (fun item => (pickUsers settings items final).contains item.2)
      = items.zipIdx.filter fun item => (pickUsers settings items final).contains item.2 := by
    rw [List.filter_filter]
    apply List.filter_congr
    intro item hitem
    cases huser : (pickUsers settings items final).contains item.2 with
    | false => rfl
    | true =>
      cases hwrite : (pick items .write .all).contains item.2 with
      | false => rfl
      | true => exact absurd (mem_zipIdx_mode hitem hwrite) (pickUsers_mode hitem huser)
  have hrest : (items.zipIdx.filter fun item => !(pick items .write .all).contains item.2).filter
        (fun item => !(pickUsers settings items final).contains item.2)
      = items.zipIdx.filter fun item =>
          !(pick items .write .all ++ pickUsers settings items final).contains item.2 := by
    rw [List.filter_filter]
    apply List.filter_congr
    intro item _
    rw [List.contains_append, Bool.not_or, Bool.and_comm]
  rw [husers, hrest] at hsnd
  have hperm := (hfirst.symm.trans (hsnd.symm.append_left _)).map Prod.fst
  rw [← hmap, List.map_append, List.map_append] at hperm
  exact hperm

theorem Progress.fail (h : Progress start inbox pending placed s) : Grown start s := h.grown

theorem ensures_placeWrite (c : ConversationId) (head : Option EntryId) (item : InboxItem) (rest : List InboxItem) :
    Ensures (Progress start inbox (Function.update pending c (item :: rest)) placed) (placeWrite c head item)
      (fun _ => Progress start inbox (Function.update pending c rest) placed) (Grown start) := by
  refine ensures_checkThen (fun _ hs => hs.fail) fun json _ => ?_
  refine ensures_checkThen (fun _ hs => hs.fail) fun draft _ => ?_
  split
  · refine (ensures_leave c rfl ends_stale.leaves).bind fun _ => ensures_pure fun s hs => ?_
    exact hs.fewer fun input hinput => mem_cons_of_mem _ hinput
  refine (ensures_appendEntry c _).bind fun appended => ?_
  refine (ensures_leave c rfl leaves_place).bind fun _ => ensures_pure fun s hs => ?_
  exact hs.fewer fun input hinput => mem_cons_of_mem _ hinput

theorem ensures_placeWrites (c : ConversationId) (todo rest : List InboxItem) (head : Option EntryId) :
    Ensures (Progress start inbox (Function.update pending c (todo ++ rest)) placed) (placeWrites c head todo)
      (fun _ => Progress start inbox (Function.update pending c rest) placed) (Grown start) := by
  induction todo generalizing head with
  | nil => exact ensures_pure fun _ hs => hs
  | cons item todo ih => exact (ensures_placeWrite c head item (todo ++ rest)).bind fun next => ih next

theorem ensures_placeUser (c : ConversationId) (now : Int) (result : BoundaryResult)
    (item : InboxItem) (rest : List InboxItem) : Ensures
      (Progress start inbox (Function.update pending c (item :: rest)) (result.users ++ placed))
      (placeUser c now result item)
      (fun next => Progress start inbox (Function.update pending c rest) (next.users ++ placed)) (Grown start) := by
  refine ensures_checkThen (fun _ hs => hs.fail) fun content _ => ?_
  refine ensures_checkThen (fun _ hs => hs.fail) fun entry _ => ?_
  refine ensures_checkThen (fun _ hs => hs.fail) fun draft _ => ?_
  refine (ensures_appendEntry c draft).bind fun appended => ?_
  refine (ensures_leave c rfl leaves_place).bind fun _ => ensures_pure fun s hs => ?_
  apply hs.fewer
  intro input hinput
  rcases List.mem_append.1 hinput with hinput | hinput
  · rcases List.mem_append.1 hinput with hinput | hinput
    · split at hinput
      · cases hinput
      · exact mem_cons_of_mem _ (mem_append_left _ hinput)
    · rw [List.mem_singleton.1 hinput]
      exact mem_cons_self ..
  · exact mem_cons_of_mem _ (mem_append_right _ hinput)

theorem ensures_placeUsers (c : ConversationId) (now : Int) (todo rest : List InboxItem) (result : BoundaryResult) :
    Ensures (Progress start inbox (Function.update pending c (todo ++ rest)) (result.users ++ placed))
      (placeUsers c now result todo)
      (fun next => Progress start inbox (Function.update pending c rest) (next.users ++ placed)) (Grown start) := by
  induction todo generalizing result with
  | nil => exact ensures_pure fun _ hs => hs
  | cons item todo ih =>
    exact (ensures_placeUser c now result item (todo ++ rest)).bind fun next => ih next

theorem ensures_applyBoundary (boundary : Boundary)
    (point : BoundaryPoint) (now : Int) :
    Ensures (Progress start inbox (Function.update inbox boundary.conversationId boundary.items) placed)
      (applyBoundary settings boundary point now)
      (fun result s => ∃ after, Progress start after after (result.users ++ placed) s) (Grown start) := by
  refine ensures_checkThen (fun _ hs => hs.fail) fun reset _ => ?_
  dsimp only
  generalize hfinal : (decide (point = .final) || reset) = final
  have hperm := boundary_perm settings boundary.items final
  generalize itemsWithout boundary.items
    (pick boundary.items .write .all ++ pickUsers settings boundary.items final) = rest at hperm ⊢
  generalize itemsAt boundary.items (pickUsers settings boundary.items final) = users at hperm ⊢
  generalize itemsAt boundary.items (pick boundary.items .write .all) = writes at hperm ⊢
  have hstart : ∀ s, Progress start inbox (Function.update inbox boundary.conversationId boundary.items) placed s →
      Progress start inbox (Function.update inbox boundary.conversationId (writes ++ (users ++ rest))) placed s := by
    intro s hs
    apply hs.perm
    intro c
    by_cases hc : c = boundary.conversationId
    · rw [hc, update_self, update_self]
      exact hperm
    · rw [update_of_ne hc, update_of_ne hc]
  refine Ensures.bind ((ensures_placeWrites _ writes (users ++ rest) boundary.head).mono hstart
    (fun _ _ hs => hs) fun _ hs => hs) fun _ => ?_
  refine Ensures.bind (ensures_placeUsers _ now users rest {}) fun result => ?_
  refine (ensures_setInbox boundary.conversationId rest).bind fun _ => ?_
  intro s hs
  exact ⟨_, hs⟩

/-! ## Admission -/

theorem find_withSubmission_new {id other : SubmissionId}
    {record found : SubmissionRecord} (hnew : s.storage.submissions.find id = none)
    (hfound : s.storage.submissions.find other = some found) :
    (s.withSubmission id record).storage.submissions.find other = some found := by
  refine (find_insert _ _ _ _).trans ?_
  rw [if_neg]
  · exact hfound
  rintro rfl
  rw [hnew] at hfound
  cases hfound

/-- A new submission joins the table, with the inboxes that agree with it. -/
theorem Progress.withNew (h : Progress start inbox pending placed s) {record : SubmissionRecord}
    (hnew : s.storage.submissions.find id = none) (hagree : Agree (s.withSubmission id record).storage other) :
    Progress start inbox other placed (s.withSubmission id record) where
  grown := h.grown
  inbox := h.inbox
  agree := hagree
  since before record hprev := by
    obtain ⟨after, hafter, hfollows⟩ := h.since before record hprev
    exact ⟨after, find_withSubmission_new hnew hafter, hfollows⟩
  runs c run hrun input hinput := by
    obtain ⟨found, hfound, hleft⟩ := h.runs c run hrun input hinput
    exact ⟨found, find_withSubmission_new hnew hfound, hleft⟩
  placed input hinput := by
    obtain ⟨found, hfound, hleft⟩ := h.placed input hinput
    exact ⟨found, find_withSubmission_new hnew hfound, hleft⟩

theorem ensures_createSubmission (c : ConversationId) (draft : SubmissionDraft) {status : String}
    (entry : Option EntryId) (reason : Option Bytes) (hstat : ofString status ≠ queued) :
    Ensures (Progress start inbox pending placed) (createSubmission c draft status entry reason)
      (fun id => Progress start inbox pending (id :: placed)) (Grown start) := by
  apply Ensures.ofStates
  intro s hs
  apply (ensures_createSubmissionAt s c draft status entry reason).mono (fun _ ht => ht)
  · rintro id t ⟨rfl, rfl⟩
    have hnew := hs.find_nextId
    have hagree : Agree (s.minted.withSubmission s.storage.nextId
        (newSubmission s.storage.nextId c draft status entry reason)).storage pending :=
      hs.minted.agree.create (newSubmission s.storage.nextId c draft status entry reason) hnew
        (Int.lt_add_one_of_le (le_refl _)) hstat
    have hnext := hs.minted.withNew hnew hagree
    refine { hnext with placed := ?_ }
    intro input hinput
    rcases List.mem_cons.1 hinput with rfl | hinput
    · exact ⟨_, find_insert_self _ _ _, hstat⟩
    · exact hnext.placed input hinput
  · rintro t rfl
    exact hs.grown

theorem queuedItem_mode (id : SubmissionId) (body : SubmissionBody) :
    (queuedItem id body).mode = .write ↔ body.type = "write" := by
  cases body with
  | input content whenBusy entry =>
    have htype : ¬ ofString "input" = "write" := by decide
    simp only [queuedItem, SubmissionBody.type, htype, iff_false]
    split <;> decide
  | write entry => exact ⟨fun _ => rfl, fun _ => rfl⟩

theorem queuedItem_id (id : SubmissionId) (body : SubmissionBody) : (queuedItem id body).id = id := by
  cases body <;> rfl

theorem ensures_enqueue (c : ConversationId) (draft : SubmissionDraft) :
    Ensures (Progress start inbox pending placed) (createSubmission c draft "queued" none none)
      (fun id => Progress start inbox (Function.update pending c (pending c ++ [queuedItem id draft.body])) placed)
      (Grown start) := by
  apply Ensures.ofStates
  intro s hs
  apply (ensures_createSubmissionAt s c draft "queued" none none).mono (fun _ ht => ht)
  · rintro id t ⟨rfl, rfl⟩
    have hnew := hs.find_nextId
    have hagree : Agree (s.minted.withSubmission s.storage.nextId
        (newSubmission s.storage.nextId c draft "queued" none none)).storage
        (Function.update pending c (pending c ++ [queuedItem s.storage.nextId draft.body])) :=
      hs.minted.agree.enqueue (newSubmission s.storage.nextId c draft "queued" none none)
        (queuedItem s.storage.nextId draft.body) hnew (Int.lt_add_one_of_le (le_refl _)) rfl rfl
        (queuedItem_id _ _) (queuedItem_mode _ _)
    exact hs.minted.withNew hnew hagree
  · rintro t rfl
    exact hs.grown

/-- The state after an admission: an inbox that agrees with the table. -/
def Consistent (start s : Workflow) : Prop := ∃ after, Progress start after after [] s

/-- The action ends the commit with inboxes that agree with the table. -/
def Concludes {α : Type} (start : Workflow) (inbox : ConversationId → List InboxItem) (placed : List SubmissionId)
    (x : WorkflowAction α) : Prop :=
  Ensures (Progress start inbox inbox placed) x (fun _ => Consistent start) (Grown start)

variable {after : ConversationId → List InboxItem}

theorem Progress.consistent (h : Progress start after after placed s) : Consistent start s :=
  ⟨after, h.fewer fun _ hinput => absurd hinput List.not_mem_nil⟩

theorem ensures_admitBusy (c : ConversationId) (draft : SubmissionDraft) :
    Concludes start inbox placed (admitBusy c draft) := by
  refine ensures_checkThen (fun _ hs => hs.fail) fun _ _ => ?_
  refine (ensures_enqueue c draft).bind fun id => ?_
  refine ensures_read fun s hs => ?_
  refine Ensures.bind ((ensures_setInbox c _).mono (fun t ht => ht ▸ hs) (fun _ _ ht => ht)
    fun _ ht => ht) fun _ => ensures_pure fun t ht => ?_
  rw [hs.inbox] at ht
  exact ht.consistent

theorem ensures_admitBehind (boundary : Boundary) (draft : SubmissionDraft) (now : Int)
    (hitems : boundary.items = inbox boundary.conversationId) :
    Concludes start inbox placed (admitBehind settings boundary draft now) := by
  refine (ensures_enqueue boundary.conversationId draft).bind fun id => ?_
  rw [← hitems]
  refine (ensures_applyBoundary settings
    { boundary with items := boundary.items ++ [queuedItem id draft.body] } .final now).bind
    fun applied => ?_
  apply ensures_exists
  intro after
  split
  · exact ensures_pure fun s hs => hs.consistent
  refine (ensures_startRun settings boundary.conversationId fun input hinput =>
    mem_append_left placed hinput).bind fun _ => ?_
  exact ensures_pure fun s hs => hs.consistent

theorem ensures_admitIdle (boundary : Boundary) (draft : SubmissionDraft) (now : Int) :
    Concludes start inbox placed (admitIdle settings boundary draft now) := by
  unfold admitIdle
  cases draft.body with
  | write entry =>
    dsimp only
    split
    · exact (ensures_createSubmission _ draft none _ (by decide)).mono (fun _ hs => hs)
        (fun _ _ hs => hs.consistent) fun _ hs => hs
    refine (ensures_appendEntry boundary.conversationId _).bind fun appended => ?_
    exact (ensures_createSubmission _ draft _ none (by decide)).mono (fun _ hs => hs)
      (fun _ _ hs => hs.consistent) fun _ hs => hs
  | input content whenBusy entry =>
    refine ensures_checkThen (fun _ hs => hs.fail) fun draftEntry _ => ?_
    refine (ensures_appendEntry boundary.conversationId draftEntry).bind fun appended => ?_
    refine (ensures_createSubmission _ draft _ none (by decide)).bind fun id => ?_
    refine (ensures_startRun settings boundary.conversationId ?_).bind fun _ => ?_
    · intro input hinput
      rw [List.mem_singleton.1 hinput]
      exact mem_cons_self ..
    · exact ensures_pure fun s hs => hs.consistent

theorem ensures_prepareBoundary {P E : Workflow → Prop} (c : ConversationId)
    (items : List InboxItem) (hE : ∀ s, P s → E s) : Ensures P (prepareBoundary c items)
      (fun boundary s => (boundary.conversationId = c ∧ boundary.items = items) ∧ P s) E := by
  refine ensures_read fun s hs => ?_
  refine ensures_checkThen (fun t ht => by rw [ht]; exact hE s hs) fun entries _ => ?_
  rintro t rfl
  exact ⟨⟨rfl, rfl⟩, hs⟩

theorem ensures_admitDraft (c : ConversationId) (draft : SubmissionDraft) (now : Int) :
    Concludes start inbox placed (admitDraft settings c draft now) := by
  refine ensures_read fun s hs => ?_
  rw [hs.inbox]
  apply Ensures.mono (P := Progress start inbox inbox placed) (Q := fun _ => Consistent start) (E := Grown start)
  · cases s.run c with
    | some run => exact ensures_admitBusy c draft
    | none =>
      refine (ensures_prepareBoundary c (inbox c) fun _ hs => hs.fail).bind fun boundary => ?_
      apply ensures_assume
      rintro ⟨hc, hitems⟩
      split
      · exact ensures_admitIdle settings boundary draft now
      · exact ensures_admitBehind settings boundary draft now (by rw [hc, hitems])
  · rintro t rfl
    exact hs
  · exact fun _ _ ht => ht
  · exact fun _ ht => ht

theorem ensures_admitSubmission (c : ConversationId)
    (draft : SubmissionDraft) (now : Int) : Concludes start inbox placed (admitSubmission settings c draft now) := by
  refine ensures_checkThen (fun _ hs => hs.fail) fun _ _ => ?_
  apply Ensures.bind (ensures_get (G := fun _ => Progress start inbox inbox placed) fun _ hs => hs)
  intro s
  refine ensures_checkThen (fun _ hs => hs.fail) fun known _ => ?_
  cases known with
  | some id => exact ensures_pure fun _ hs => hs.consistent
  | none =>
    refine ensures_checkThen (fun _ hs => hs.fail) fun _ _ => ?_
    refine ensures_checkThen (fun _ hs => hs.fail) fun atOnce _ => ?_
    cases atOnce with
    | some entry =>
      refine (ensures_appendEntry c _).bind fun appended => ?_
      exact (ensures_createSubmission _ draft _ none (by decide)).mono (fun _ hs => hs)
        (fun _ _ hs => hs.consistent) fun _ hs => hs
    | none => exact ensures_admitDraft settings c draft now

/-! ## Generations and withdrawal -/

theorem ensures_endAndStart (c : ConversationId) (task : TaskId)
    (hends : Ends settlement) (husers : ∀ user ∈ users, user ∈ placed) : Concludes start inbox placed (do
        endRun c task settlement
        if users.isEmpty then return () else startRun settings c users) := by
  refine (ensures_endRun c task hends).bind fun _ => ?_
  split
  · exact ensures_pure fun _ hs => hs.consistent
  · exact (ensures_startRun settings c husers).mono (fun _ hs => hs) (fun _ _ hs => hs.consistent) fun _ hs => hs

theorem ensures_getInbox {α : Type} {f : Workflow → WorkflowAction α} {Q : α → Workflow → Prop}
    (h : ∀ s : Workflow, s.inbox = inbox → Ensures (Progress start inbox inbox placed) (f s) Q (Grown start)) :
    Ensures (Progress start inbox inbox placed) (get >>= f) Q (Grown start) := by
  refine ensures_read fun s hs => ?_
  exact (h s hs.inbox).mono (fun t ht => ht ▸ hs) (fun _ _ ht => ht) fun _ ht => ht

theorem ensures_boundary {boundary : Boundary}
    (hbound : boundary.conversationId = c ∧ boundary.items = inbox c) (point : BoundaryPoint) (now : Int) :
    Ensures (Progress start inbox inbox placed) (applyBoundary settings boundary point now)
      (fun result s => ∃ after, Progress start after after (result.users ++ placed) s) (Grown start) := by
  have hupdate : Function.update inbox boundary.conversationId boundary.items = inbox := by
    rw [hbound.1, hbound.2, Function.update_eq_self]
  apply (ensures_applyBoundary settings boundary point now).mono
  · intro s hs
    rw [hupdate]
    exact hs
  · exact fun _ _ hs => hs
  · exact fun _ hs => hs

theorem ensures_finishToolRound (c : ConversationId) (task : TaskId) (now : Int) :
    Concludes start inbox placed (finishToolRound settings c task now) := by
  apply ensures_getInbox
  intro s hinbox
  rw [hinbox]
  refine (ensures_prepareBoundary c (inbox c) fun _ hs => hs.fail).bind fun boundary => ?_
  apply ensures_assume
  intro hbound
  refine (ensures_boundary settings hbound .postTools now).bind fun applied => ?_
  apply ensures_exists
  intro after
  refine ensures_checkThen (fun _ hs => hs.fail) fun _ _ => ?_
  have husers : ∀ user ∈ applied.users, user ∈ applied.users ++ placed := fun user huser => mem_append_left _ huser
  split
  · exact ensures_endAndStart settings c task (ends_unanswered ..) husers
  · refine (ensures_joinRunInputs c task husers).bind fun _ => ?_
    exact (ensures_handOver settings c).mono (fun _ hs => hs) (fun _ _ hs => hs.consistent) fun _ hs => hs

theorem ensures_answer (c : ConversationId) (task : TaskId)
    (assistant : EntryDraft) (continuation : Option Json) (now : Int) :
    Concludes start inbox placed (answer settings c task assistant continuation now) := by
  apply ensures_getInbox
  intro s hinbox
  rw [hinbox]
  refine (ensures_prepareBoundary c (inbox c) fun _ hs => hs.fail).bind fun boundary => ?_
  apply ensures_assume
  intro hbound
  refine (ensures_appendEntry c assistant).bind fun entry => ?_
  refine (ensures_boundary settings hbound .final now).bind fun applied => ?_
  apply ensures_exists
  intro after
  have husers : ∀ user ∈ applied.users, user ∈ applied.users ++ placed := fun user huser => mem_append_left _ huser
  cases continuation with
  | none => exact ensures_endAndStart settings c task (ends_done _) husers
  | some content =>
    cases applied.users.isEmpty && !applied.reset with
    | false => exact ensures_endAndStart settings c task (ends_done _) husers
    | true =>
      refine ensures_checkThen (fun _ hs => hs.fail) fun draft _ => ?_
      refine (ensures_appendEntry c draft).bind fun _ => ?_
      exact (ensures_handOver settings c).mono (fun _ hs => hs) (fun _ _ hs => hs.consistent) fun _ hs => hs

theorem ensures_endUnanswered (c : ConversationId) (task : TaskId) (assistant : Option EntryDraft)
    (reason : Bytes) (detail : Option Json) :
    Concludes start inbox placed (endUnanswered c task assistant reason detail) := by
  have hend : Concludes start inbox placed (endRun c task (unanswered reason detail)) :=
    (ensures_endRun c task (ends_unanswered reason detail)).mono (fun _ hs => hs) (fun _ _ hs => hs.consistent) fun _ hs => hs
  cases assistant with
  | none => exact hend
  | some draft => exact (ensures_appendEntry c draft).bind fun _ => hend

theorem Progress.permAt {items others : List InboxItem}
    (h : Progress start inbox (Function.update pending c items) placed s) (hperm : items.Perm others) :
    Progress start inbox (Function.update pending c others) placed s := by
  apply h.perm
  intro d
  by_cases hd : d = c
  · rw [hd, update_self, update_self]
    exact hperm
  · rw [update_of_ne hd, update_of_ne hd]

theorem Progress.atInbox (h : Progress start inbox inbox placed s) (c : ConversationId) :
    Progress start inbox (Function.update inbox c (inbox c)) placed s :=
  h.perm fun d => by rw [Function.update_eq_self]

theorem ensures_abortSubmission (id : SubmissionId) (c : Option ConversationId) :
    Concludes start inbox placed (abortSubmission id c) := by
  refine ensures_read fun s hs => ?_
  have hsame : Ensures (fun t => t = s) (pure () : WorkflowAction Unit) (fun _ => Consistent start)
      (Grown start) := ensures_pure fun t ht => ht ▸ hs.consistent
  cases hfind : s.storage.submissions.find id with
  | none => exact hsame
  | some record =>
    dsimp only
    split
    · exact hsame
    split
    · next hqueued =>
      obtain ⟨waiter, hwaiter, hid⟩ := hs.agree.listed id record hfind hqueued
      obtain ⟨item, front, back, -, hitem, hinbox, herase⟩ :=
        List.exists_of_eraseP (p := fun item : InboxItem => item.id == id) hwaiter (by simp [hid])
      have hpend : Progress start inbox (Function.update inbox record.conversationId
          (item :: (front ++ back))) placed s := by
        apply (hs.atInbox record.conversationId).permAt
        rw [hinbox]
        exact List.perm_middle
      rw [hs.inbox, removeItem, herase]
      apply Ensures.mono (P := Progress start inbox (Function.update inbox record.conversationId
          (item :: (front ++ back))) placed) (Q := fun _ => Consistent start) (E := Grown start)
      · have hleave : (SubmissionChange.settle id abortedSettlement).id = item.id := (beq_iff_eq.1 hitem).symm
        refine (ensures_leave record.conversationId hleave (ends_unanswered ..).leaves).bind fun _ => ?_
        exact (ensures_setInbox record.conversationId (front ++ back)).mono (fun _ ht => ht)
          (fun _ _ ht => ht.consistent) fun _ ht => ht
      · rintro t rfl
        exact hpend
      · exact fun _ _ ht => ht
      · exact fun _ ht => ht
    · exact hsame

theorem ensures_withdrawItems (c : ConversationId) (items kept : List InboxItem) :
    Ensures (Progress start inbox (Function.update pending c (items ++ kept)) placed) (withdrawItems items)
      (fun _ => Progress start inbox
        (Function.update pending c (items.filter (fun item => item.mode = .write) ++ kept)) placed)
      (Grown start) := by
  induction items generalizing kept with
  | nil => exact ensures_pure fun _ hs => hs
  | cons item rest ih =>
    have hrest : Ensures (Progress start inbox (Function.update pending c (item :: rest ++ kept)) placed)
        (withdrawItems rest)
        (fun _ => Progress start inbox (Function.update pending c
          (item :: (rest.filter (fun item => item.mode = .write) ++ kept))) placed)
        (Grown start) :=
      (ih (item :: kept)).mono (fun s hs => hs.permAt List.perm_middle.symm)
        (fun _ s hs => hs.permAt List.perm_middle) fun _ hs => hs
    refine hrest.bind fun _ => ?_
    split
    · next hmode =>
      intro s hs
      rw [List.filter_cons_of_pos (by simpa using hmode)]
      exact hs
    next hmode =>
    rw [List.filter_cons_of_neg (by simpa using hmode)]
    exact (ensures_leave c rfl (ends_unanswered ..).leaves).mono (fun _ hs => hs)
      (fun _ s hs => hs.fewer fun input hinput => mem_cons_of_mem _ hinput) fun _ hs => hs

theorem ensures_withdrawQueuedInputs (c : ConversationId) :
    Concludes start inbox placed (withdrawQueuedInputs c) := by
  apply ensures_getInbox
  intro s hinbox
  rw [hinbox]
  have hitems : Ensures (Progress start inbox (Function.update inbox c (inbox c ++ [])) placed)
      (withdrawItems (inbox c))
      (fun _ => Progress start inbox (Function.update inbox c
        ((inbox c).filter (fun item => item.mode = .write) ++ [])) placed)
      (Grown start) := ensures_withdrawItems c (inbox c) []
  rw [List.append_nil, List.append_nil] at hitems
  refine Ensures.bind (hitems.mono (fun _ ht => ht.atInbox c) (fun _ _ ht => ht) fun _ ht => ht) fun _ => ?_
  exact (ensures_setInbox c _).mono (fun _ ht => ht) (fun _ _ ht => ht.consistent) fun _ ht => ht

theorem ensures_createConversation (parent : Option Parent) (owner : Option ConversationOwner) :
    Concludes start inbox placed (createConversation parent owner) := by
  apply Ensures.ofStates
  intro s hs
  refine (ensures_mintIdAt s).bind fun id => ?_
  apply ensures_assume
  rintro rfl
  apply ensures_getAt
  refine ensures_checkThen (fun t ht => by rw [ht]; exact hs.minted.fail) fun storage hstor => ?_
  obtain ⟨record, -, -, -, rfl⟩ := StorageState.applyConversation_eq_ok.1 hstor
  rintro t rfl
  have hgrown : s.minted.storage.nextId ≤ max s.minted.storage.nextId (record.id + 1) := le_max_left _ _
  exact Progress.consistent (hs.minted.tables rfl hgrown)

theorem ensures_callback (step : Step) :
    Concludes start inbox placed (callback settings step) := by
  cases step with
  | submit c draft now =>
    exact (ensures_admitSubmission settings c draft now).bind fun _ => ensures_pure fun _ hs => hs
  | toolRound c task now => exact ensures_finishToolRound settings c task now
  | answer c task assistant continuation now =>
    exact ensures_answer settings c task assistant continuation now
  | endUnanswered c task assistant reason detail =>
    exact ensures_endUnanswered c task assistant reason detail
  | abortSubmission id c => exact ensures_abortSubmission id c
  | abortConversation c => exact ensures_withdrawQueuedInputs c
  | append c draft =>
    exact (ensures_appendEntry c draft).bind fun _ => ensures_pure fun _ hs => hs.consistent
  | createConversation parent owner => exact ensures_createConversation parent owner

/-! ## Runs -/

/-- The committed state between two commits. -/
structure Accountable (s : Workflow) : Prop where
  agree : Agree s.storage s.inbox
  runs : ∀ c run, s.run c = some run → ∀ input ∈ run.inputs, ∃ record,
    s.storage.submissions.find input = some record ∧ record.status ≠ queued

theorem Accountable.progress (h : Accountable s) : Progress s s.inbox s.inbox [] s where
  grown := le_refl _
  inbox := rfl
  agree := h.agree
  since _ before hprev := ⟨before, hprev, Follows.refl before⟩
  runs := h.runs
  placed _ hinput := absurd hinput List.not_mem_nil

theorem Progress.accountable (h : Progress start after after placed s) : Accountable s :=
  ⟨h.inbox ▸ h.agree, h.runs⟩

/-- Every submission of the first state is still there in the second one. -/
def Since (s t : Workflow) : Prop := ∀ id before, s.storage.submissions.find id = some before →
    ∃ after, t.storage.submissions.find id = some after ∧ Follows before after

theorem Since.trans {r t : Workflow} (hrs : Since r s) (hst : Since s t) : Since r t := by
  intro id before hprev
  obtain ⟨middle, hmid, hfirst⟩ := hrs id before hprev
  obtain ⟨after, hafter, hsnd⟩ := hst id middle hmid
  exact ⟨after, hafter, hfirst.trans hsnd⟩

theorem commit_accountable (step : Step) (h : Accountable s):
    Accountable (commit (callback settings step) s) ∧ Since s (commit (callback settings step) s) := by
  have hend := ensures_callback settings step s h.progress
  unfold commit
  cases hrun : callback settings step s with
  | ok result t =>
    rw [hrun] at hend
    obtain ⟨after, hprogress⟩ := hend
    have hnext : Progress s after after [] { t with storage.nextSeq := t.storage.nextSeq + 1 } :=
      hprogress.tables rfl (le_refl _)
    exact ⟨hnext.accountable, hnext.since⟩
  | error error t =>
    rw [hrun] at hend
    have hnext : Progress s s.inbox s.inbox [] { s with storage.nextId := t.storage.nextId } :=
      h.progress.tables rfl hend
    exact ⟨hnext.accountable, hnext.since⟩

theorem runSteps_accountable (steps : List Step) (h : Accountable s):
    Accountable (runSteps settings s steps) ∧ Since s (runSteps settings s steps) := by
  induction steps generalizing s with
  | nil => exact ⟨h, fun id before hprev => ⟨before, hprev, Follows.refl before⟩⟩
  | cons step rest ih =>
    obtain ⟨hnext, hsince⟩ := commit_accountable settings step h
    obtain ⟨hlast, hrest⟩ := ih hnext
    exact ⟨hlast, hsince.trans hrest⟩

theorem initial_accountable : Accountable initial where
  agree :=
    { minted := fun id record h => by cases h
      unplaced := fun id record h => by cases h
      distinct := fun c => List.nodup_nil
      waiting := fun c item h => by cases h
      listed := fun id record h => by cases h }
  runs c run h := by cases h

/-- The items of an inbox are the queued submissions of its conversation, one for one. -/
structure InboxMatches (s : Workflow) (c : ConversationId) : Prop where
  distinct : ((s.inbox c).map InboxItem.id).Nodup
  listed : ∀ id write, (∃ item ∈ s.inbox c, item.id = id ∧ decide (item.mode = .write) = write) ↔
      ∃ record, s.storage.submissions.find id = some record ∧ record.conversationId = c ∧
        record.status = queued ∧ decide (record.type = "write") = write

theorem Agree.inboxMatches (h : Agree s.storage s.inbox) (c : ConversationId) : InboxMatches s c where
  distinct := h.distinct c
  listed id write := by
    constructor
    · rintro ⟨item, hitem, rfl, rfl⟩
      obtain ⟨record, hrec, hc, hqueued, hmode⟩ := h.waiting c item hitem
      exact ⟨record, hrec, hc, hqueued, decide_eq_decide.2 hmode.symm⟩
    rintro ⟨record, hrec, rfl, hqueued, rfl⟩
    obtain ⟨item, hitem, rfl⟩ := h.listed id record hrec hqueued
    obtain ⟨found, hfound, -, -, hmode⟩ := h.waiting _ item hitem
    rw [hrec] at hfound
    cases hfound
    exact ⟨item, hitem, rfl, decide_eq_decide.2 hmode⟩

/-- **The inbox and the table agree in every run.** At every point of a run the items of each inbox
are the queued submissions of its conversation; a queued submission has no entry; and whatever
follows, a submission stays in the table, and once it has left the queue it neither returns nor
changes its entry. -/
theorem runSteps_agree (first later : List Step) :
    (∀ c, InboxMatches (runSteps settings initial first) c) ∧
      (∀ id record, (runSteps settings initial first).storage.submissions.find id = some record →
        record.status = queued → record.entry = none) ∧
      Since (runSteps settings initial first) (runSteps settings initial (first ++ later)) := by
  obtain ⟨hfirst, -⟩ := runSteps_accountable settings first initial_accountable
  obtain ⟨-, hsince⟩ := runSteps_accountable settings later hfirst
  refine ⟨hfirst.agree.inboxMatches, hfirst.agree.unplaced, ?_⟩
  rw [runSteps, runSteps, List.foldl_append]
  exact hsince

/-- **Inputs are taken once.** In every run, no submission that a live run works on is still an item of an inbox. -/
theorem runSteps_taken (steps : List Step) (c other : ConversationId) :
    (((runSteps settings initial steps).run c).toList.flatMap LiveRun.inputs).Disjoint
      (((runSteps settings initial steps).inbox other).map InboxItem.id) := by
  intro input hinput hitem
  have hacct := (runSteps_accountable settings steps initial_accountable).1
  obtain ⟨live, hlive, hinput⟩ := List.mem_flatMap.1 hinput
  obtain ⟨record, hfind, hstatus⟩ := hacct.runs c live (Option.mem_toList.1 hlive) input hinput
  obtain ⟨item, hlisted, rfl⟩ := List.mem_map.1 hitem
  obtain ⟨found, hfound, -, hqueued, -⟩ := hacct.agree.waiting other item hlisted
  rw [hfind] at hfound
  cases hfound
  exact hstatus hqueued

end Workflow

end CodingHarness.Durable
