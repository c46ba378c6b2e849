import CodingHarness.Durable.DocumentCalls

/-!
# The last call on a document decides

`FollowsLast` says what a commit should make of the last successful call on an address: no current incarnation after a
retirement, and after an acquisition exactly the incarnation of its draft.

`retire_doc` takes the first staged document of the address. Once that one is retired a later call finds it again and
returns, so a replacement is never retired. `Phase` follows what is staged from call to call, and
`lifecycle_followed_iff` says that this is the only way to miss: the last call is a retirement, and before it the
address was retired and acquired again.
-/

namespace CodingHarness.Durable

open Library Support Chord
open StorageState (CurrentAt Lifetimes createdRecord)

/-! ## Where the calls lead -/

/-- The calls retire an incarnation of the address. -/
def Retires (current : Prop) (calls : List LifecycleCall) : Prop :=
  (current ∧ .retireDoc ∈ calls) ∨ [.doc, .retireDoc].Sublist calls

/-- The calls retire an incarnation of the address and acquire the address again. -/
def Replaces (current : Prop) (calls : List LifecycleCall) : Prop :=
  (current ∧ [.retireDoc, .doc].Sublist calls) ∨ [.doc, .retireDoc, .doc].Sublist calls

section Conditions

variable {current : Prop} {calls : List LifecycleCall} {call : LifecycleCall}

theorem sublist_concat_iff {α : Type} {l m : List α} {a b : α} :
    (l ++ [a]).Sublist (m ++ [b]) ↔ (l ++ [a]).Sublist m ∨ (a = b ∧ l.Sublist m) := by
  rw [← List.reverse_sublist, ← @List.reverse_sublist _ _ m, ← @List.reverse_sublist _ l]
  simp only [List.reverse_append, List.reverse_cons, List.reverse_nil, List.nil_append, List.singleton_append]
  exact List.cons_sublist_cons'

theorem retires_concat : Retires current (calls ++ [call]) ↔
    Retires current calls ∨ (call = .retireDoc ∧ (current ∨ .doc ∈ calls)) := by
  have hpair := sublist_concat_iff (l := [LifecycleCall.doc]) (m := calls) (a := .retireDoc) (b := call)
  simp only [List.cons_append, List.nil_append, List.singleton_sublist] at hpair
  rw [Retires, Retires, hpair, List.mem_append, List.mem_singleton]
  constructor
  · rintro (⟨hcur, hmem | rfl⟩ | hpair | ⟨rfl, hmem⟩)
    · exact .inl (.inl ⟨hcur, hmem⟩)
    · exact .inr ⟨rfl, .inl hcur⟩
    · exact .inl (.inr hpair)
    · exact .inr ⟨rfl, .inr hmem⟩
  rintro ((⟨hcur, hmem⟩ | hpair) | ⟨rfl, hcur | hmem⟩)
  · exact .inl ⟨hcur, .inl hmem⟩
  · exact .inr (.inl hpair)
  · exact .inl ⟨hcur, .inr rfl⟩
  · exact .inr (.inr ⟨rfl, hmem⟩)

theorem replaces_concat : Replaces current (calls ++ [call]) ↔
    Replaces current calls ∨ (call = .doc ∧ Retires current calls) := by
  have hpair := sublist_concat_iff (l := [LifecycleCall.retireDoc]) (m := calls) (a := .doc) (b := call)
  have htriple := sublist_concat_iff (l := [LifecycleCall.doc, .retireDoc]) (m := calls) (a := .doc) (b := call)
  simp only [List.cons_append, List.nil_append, List.singleton_sublist] at hpair htriple
  rw [Replaces, Replaces, Retires, hpair, htriple]
  constructor
  · rintro (⟨hcur, htwo | ⟨rfl, hmem⟩⟩ | hthree | ⟨rfl, htwo⟩)
    · exact .inl (.inl ⟨hcur, htwo⟩)
    · exact .inr ⟨rfl, .inl ⟨hcur, hmem⟩⟩
    · exact .inl (.inr hthree)
    · exact .inr ⟨rfl, .inr htwo⟩
  rintro ((⟨hcur, htwo⟩ | hthree) | ⟨rfl, ⟨hcur, hmem⟩ | htwo⟩)
  · exact .inl ⟨hcur, .inl htwo⟩
  · exact .inr (.inl hthree)
  · exact .inl ⟨hcur, .inr ⟨rfl, hmem⟩⟩
  · exact .inr (.inr ⟨rfl, htwo⟩)

theorem retires_of_replaces (h : Replaces current calls) : Retires current calls := by
  rcases h with ⟨hcur, hpair⟩ | htriple
  · exact .inl ⟨hcur, hpair.subset (by simp)⟩
  · refine .inr (List.Sublist.trans ?_ htriple)
    exact List.Sublist.cons_cons _ (List.Sublist.cons_cons _ (List.nil_sublist _))

theorem not_replaces (h : .doc ∉ calls) : ¬ Replaces current calls := by
  rintro (⟨-, hpair⟩ | htriple)
  · exact h (hpair.subset (by simp))
  · exact h (htriple.subset (by simp))

end Conditions

section Phases

variable (storage : StorageState) (definition : DocumentDefinition) (address : DocumentAddress)

/-- The same incarnations are current at the key. -/
def SameCurrent (key : Bytes) (s t : StorageState) : Prop := ∀ id, CurrentAt s key id ↔ CurrentAt t key id

/-- An address with a current incarnation. -/
def Occupied (key : Bytes) : Prop := ∃ id, CurrentAt storage key id

/-- A staged document of the definition at the address, created for a free address or loaded from an occupied one. -/
structure FirstView (view : StagedView) : Prop where
  here : view.address = address ∧ view.kind = definition.kind
  origin : (view.created = true ∧ ¬ Occupied storage (definition.keyAt address)) ∨
    (view.created = false ∧ CurrentAt storage (definition.keyAt address) view.record.id)

/-- What is staged for the address after the calls. -/
inductive Phase (calls : List LifecycleCall) : List StagedView × Option Nat → Prop where
  | untouched (hdoc : .doc ∉ calls)
      (hretire : .retireDoc ∈ calls → ¬ Occupied storage (definition.keyAt address)) :
      Phase calls ([], none)
  | live (view : StagedView) (hview : FirstView storage definition address view) (hlive : view.retire = false)
      (hdraft : view.drafted = true) (hdoc : .doc ∈ calls)
      (hretires : ¬ Retires (Occupied storage (definition.keyAt address)) calls) :
      Phase calls ([view], some view.index)
  | retired (view : StagedView) (hview : FirstView storage definition address view) (hretired : view.retire = true)
      (hretires : Retires (Occupied storage (definition.keyAt address)) calls)
      (hreplaces : ¬ Replaces (Occupied storage (definition.keyAt address)) calls) :
      Phase calls ([view], some view.index)
  | replaced (view later : StagedView) (hview : FirstView storage definition address view)
      (hretired : view.retire = true) (hlive : later.retire = false) (hdraft : later.drafted = true)
      (hcreated : later.created = true)
      (hreplaces : Replaces (Occupied storage (definition.keyAt address)) calls) :
      Phase calls ([view, later], some later.index)

variable {storage definition address} {calls : List LifecycleCall} {w u : Work}

variable {view : StagedView} {key : Bytes} {documents : List StagedDocument}

theorem mem_viewsFrom {index : Nat} (h : view ∈ viewsFrom key index documents) :
    ∃ (position : Nat) (document : StagedDocument), documents[position]? = some document ∧ document.key = key ∧
      view = document.viewAt (index + position) := by
  induction documents generalizing index with
  | nil => cases h
  | cons document rest ih =>
    have hlater : view ∈ viewsFrom key (index + 1) rest → ∃ (position : Nat) (found : StagedDocument),
        (document :: rest)[position]? = some found ∧ found.key = key ∧ view = found.viewAt (index + position) := by
      intro hmem
      obtain ⟨position, found, hfound, hkey, rfl⟩ := ih hmem
      exact ⟨position + 1, found, hfound, hkey, by rw [Nat.add_assoc, Nat.add_comm 1]⟩
    rw [viewsFrom] at h
    split at h
    · rename_i heq
      rcases List.mem_cons.1 h with rfl | h
      · exact ⟨0, document, rfl, heq, rfl⟩
      · exact hlater h
    · exact hlater h

variable {tx : Transaction} {views : List StagedView}

theorem latest_of_view (h : tx.view key = (views, some view.index)) (hmem : view ∈ views) :
    ∃ document, tx.latest key = some document ∧ view = document.viewAt view.index := by
  have hviews : viewsFrom key 0 tx.documents = views := congrArg Prod.fst h
  have hlatest : tx.latestDocuments.find key = some view.index := congrArg Prod.snd h
  obtain ⟨position, document, hdoc, -, heq⟩ := mem_viewsFrom (hviews ▸ hmem)
  rw [Nat.zero_add] at heq
  have hindex : view.index = position := by rw [heq]; rfl
  refine ⟨document, ?_, by rw [hindex]; exact heq⟩
  rw [Transaction.latest, hlatest, Option.bind_some, hindex, hdoc]

theorem latest_of_untouched (h : tx.view key = (views, none)) : tx.latest key = none := by
  have hlatest : tx.latestDocuments.find key = none := congrArg Prod.snd h
  rw [Transaction.latest, hlatest]
  rfl

variable {latest : Option Nat}

theorem stagedAt_of_view (h : tx.view (definition.keyAt address) = (view :: views, latest))
    (hhere : view.address = address ∧ view.kind = definition.kind) :
    ∃ before document after, tx.documents = before ++ document :: after ∧
      (∀ other ∈ before, other.key ≠ definition.keyAt address) ∧
      document.key = definition.keyAt address ∧ view = document.viewAt before.length ∧
      viewsFrom (definition.keyAt address) (before.length + 1) after = views ∧
      tx.stagedAt definition.kind address = some (before.length, document) := by
  have hviews : viewsFrom (definition.keyAt address) 0 tx.documents = view :: views := congrArg Prod.fst h
  obtain ⟨before, document, after, hsplit, hprev, hkey, hview, hafter⟩ := viewsFrom_eq_cons hviews
  rw [Nat.zero_add] at hview hafter
  refine ⟨before, document, after, hsplit, hprev, hkey, hview, hafter, ?_⟩
  have hpos : tx.documents.findIdx? (fun document =>
      document.address == address && document.kind == definition.kind) = some before.length := by
    rw [hsplit, List.findIdx?_append, List.findIdx?_cons]
    have hnone : before.findIdx? (fun document => document.address == address && document.kind == definition.kind) =
        none := by
      rw [List.findIdx?_eq_none_iff]
      intro other hother
      cases hmatch : (other.address == address && other.kind == definition.kind) with
      | false => rfl
      | true =>
        simp only [Bool.and_eq_true, beq_iff_eq] at hmatch
        refine absurd ?_ (hprev other hother)
        rw [StagedDocument.key, hmatch.1, hmatch.2]
    have hmatch : (document.address == address && document.kind == definition.kind) = true := by
      rw [hview] at hhere
      simp only [Bool.and_eq_true, beq_iff_eq]
      exact hhere
    rw [hnone, hmatch]
    simp
  rw [Transaction.stagedAt, hpos, Option.bind_some, hsplit, List.getElem?_append_right (Nat.le_refl _), Nat.sub_self]
  rfl

theorem stagedAt_of_untouched (h : tx.view (definition.keyAt address) = ([], latest)) :
    tx.stagedAt definition.kind address = none := by
  cases hstaged : tx.stagedAt definition.kind address with
  | none => rfl
  | some found =>
    obtain ⟨hdoc, hkey⟩ := Transaction.key_of_stagedAt hstaged
    exact absurd hkey (viewsFrom_eq_nil_iff.1 (congrArg Prod.fst h) _ (List.mem_of_getElem? hdoc))

variable {document : StagedDocument}

theorem firstView_of_staged {index : Nat} (hhere : Transaction.Here definition address document)
    (horigin : (document.created = true ∧ ¬ Occupied storage (definition.keyAt address)) ∨
      (document.created = false ∧ CurrentAt storage (definition.keyAt address) document.record.id)) :
    FirstView storage definition address (document.viewAt index) :=
  ⟨⟨hhere.address, hhere.kind⟩, horigin⟩

/-- **An acquisition** moves the address to its next phase. -/
theorem Phase.acquire (h : Phase storage definition address calls (w.tx.view (definition.keyAt address)))
    (hstor : SameCurrent (definition.keyAt address) w.session.storage storage)
    (hacquired : Transaction.Acquired definition address w u) :
    Phase storage definition address (calls ++ [.doc]) (u.tx.view (definition.keyAt address)) := by
  -- After an acquisition no incarnation is retired that was not before.
  have hretires : ∀ current, Retires current (calls ++ [.doc]) → Retires current calls := by
    intro current hretires
    rcases retires_concat.1 hretires with hretires | ⟨hcall, -⟩
    · exact hretires
    · cases hcall
  have hdoc : LifecycleCall.doc ∈ calls ++ [.doc] := by simp
  generalize hview : w.tx.view (definition.keyAt address) = seen at h
  have happ : ∀ document : StagedDocument, Transaction.Here definition address document →
      u.tx = w.tx.withDocument document →
      u.tx.view (definition.keyAt address) =
        (seen.1 ++ [document.viewAt w.tx.documents.length], some w.tx.documents.length) := by
    intro document hhere htx
    rw [htx, Transaction.view_withDocument, if_pos hhere.key, hview]
  cases h with
  | untouched hnone hretire =>
    have hlatest := latest_of_untouched hview
    have hfresh : ¬ Retires (Occupied storage (definition.keyAt address)) (calls ++ [.doc]) := by
      intro hret
      rcases hretires _ hret with ⟨hcur, hmem⟩ | hpair
      · exact hretire hmem hcur
      · exact hnone (hpair.subset (by simp))
    cases hacquired with
    | again document hagain =>
      rw [hlatest] at hagain
      cases hagain
    | loaded document hhere _ hmade hlive hdraft hcur htx =>
      rw [happ document hhere htx]
      exact .live _ (firstView_of_staged hhere (.inr ⟨hmade, (hstor _).1 hcur⟩)) hlive hdraft hdoc hfresh
    | created document hhere _ hmade hlive hdraft hfree htx =>
      rw [happ document hhere htx]
      refine .live _ (firstView_of_staged hhere (.inl ⟨hmade, ?_⟩)) hlive hdraft hdoc hfresh
      rintro ⟨id, hid⟩
      rcases hfree with ⟨staged, hstaged, -⟩ | hfree
      · rw [hlatest] at hstaged
        cases hstaged
      · exact hfree id ((hstor id).2 hid)
  | live view hfirst hlive hdraft hmem hnot =>
    obtain ⟨staged, hlatest, heq⟩ := latest_of_view hview (by simp)
    rw [heq] at hlive hdraft
    cases hacquired with
    | again document _ _ _ htx =>
      rw [htx, hview]
      exact .live view hfirst (by rw [heq]; exact hlive) (by rw [heq]; exact hdraft) hdoc fun h => hnot (hretires _ h)
    | loaded document _ hclosed =>
      rw [StagedDocument.viewAt, (hclosed staged hlatest).2] at hdraft
      cases hdraft
    | created document _ hclosed =>
      rcases hclosed staged hlatest with hret | hnone
      · exact absurd (hlive.symm.trans hret) Bool.false_ne_true
      · rw [StagedDocument.viewAt, hnone] at hdraft
        cases hdraft
  | retired view hfirst hret hyes hnot =>
    obtain ⟨staged, hlatest, heq⟩ := latest_of_view hview (by simp)
    have hstaged : staged.retire = true := by
      rw [heq] at hret
      exact hret
    cases hacquired with
    | again document hagain hlive =>
      cases hlatest.symm.trans hagain
      exact absurd (hlive.symm.trans hstaged) Bool.false_ne_true
    | loaded document _ hclosed =>
      exact absurd ((hclosed staged hlatest).1.symm.trans hstaged) Bool.false_ne_true
    | created document hhere _ hmade hlive hdraft _ htx =>
      rw [happ document hhere htx]
      exact .replaced view _ hfirst hret hlive hdraft hmade (replaces_concat.2 (.inr ⟨rfl, hyes⟩))
  | replaced view later hfirst hret hlive hdraft hmade hyes =>
    obtain ⟨staged, hlatest, heq⟩ := latest_of_view hview (by simp)
    have hopen : staged.retire = false ∧ staged.change.isSome = true := by
      rw [heq] at hlive hdraft
      exact ⟨hlive, hdraft⟩
    cases hacquired with
    | again document _ _ _ htx =>
      rw [htx, hview]
      exact .replaced view later hfirst hret hlive hdraft hmade (replaces_concat.2 (.inl hyes))
    | loaded document _ hclosed =>
      rw [(hclosed staged hlatest).2] at hopen
      cases hopen.2
    | created document _ hclosed =>
      rcases hclosed staged hlatest with hstaged | hnone
      · exact absurd (hopen.1.symm.trans hstaged) Bool.false_ne_true
      · rw [hnone] at hopen
        cases hopen.2

/-- **A retirement** moves the address to its next phase; a replacement stays. -/
theorem Phase.retireDoc (h : Phase storage definition address calls (w.tx.view (definition.keyAt address)))
    (hstor : SameCurrent (definition.keyAt address) w.session.storage storage)
    (hret : Transaction.Retired definition address w u) : Phase storage definition address (calls ++ [.retireDoc])
      (u.tx.view (definition.keyAt address)) := by
  -- A retirement acquires nothing.
  have hreplaces : ∀ current, Replaces current (calls ++ [.retireDoc]) → Replaces current calls := by
    intro current hreplaces
    rcases replaces_concat.1 hreplaces with hreplaces | ⟨hcall, -⟩
    · exact hreplaces
    · cases hcall
  generalize hview : w.tx.view (definition.keyAt address) = seen at h
  cases h with
  | untouched hnone hretire =>
    have hstaged := stagedAt_of_untouched hview
    have hmem : LifecycleCall.doc ∉ calls ++ [.retireDoc] := by simpa using hnone
    cases hret with
    | already index document hfound | marked index document hfound =>
      rw [hstaged] at hfound
      cases hfound
    | absent _ hfree htx =>
      rw [htx, hview]
      exact .untouched hmem fun _ ⟨id, hid⟩ => hfree id ((hstor id).2 hid)
    | loaded document hhere _ hmade hretire hcur htx =>
      have hoccupied := (hstor _).1 hcur
      rw [htx, Transaction.view_withDocument, if_pos hhere.key, hview]
      exact .retired _ (firstView_of_staged hhere (.inr ⟨hmade, hoccupied⟩)) hretire
        (.inl ⟨⟨_, hoccupied⟩, by simp⟩) (not_replaces hmem)
  | live view hfirst hlive hdraft hmem hnot =>
    obtain ⟨before, document, after, hsplit, hprev, hkey, rfl, hafter, hstaged⟩ := stagedAt_of_view hview hfirst.here
    cases hret with
    | already index found hfound hretire =>
      cases hstaged.symm.trans hfound
      exact absurd (hlive.symm.trans hretire) Bool.false_ne_true
    | marked index found hfound _ htx =>
      cases hstaged.symm.trans hfound
      have hnext : u.tx.view (definition.keyAt address) =
          ([({ document with retire := true } : StagedDocument).viewAt before.length], some before.length) := by
        rw [htx]
        simp only [Transaction.view]
        rw [hsplit, viewsFrom_set_first hprev (show ({ document with retire := true } : StagedDocument).key =
          definition.keyAt address from hkey), Nat.zero_add, hafter, OrdMap.find_insert,
          if_pos hkey.symm]
      rw [hnext]
      refine .retired _ ⟨hfirst.here, hfirst.origin⟩ rfl (retires_concat.2 (.inr ⟨rfl, .inr hmem⟩)) fun hyes => ?_
      -- The first retirement of the transaction is the last call, so nothing was acquired after one.
      have hbeforeLast := hreplaces _ hyes
      exact hnot (retires_of_replaces hbeforeLast)
    | absent hfound | loaded found _ hfound =>
      rw [hstaged] at hfound
      cases hfound
  | retired view hfirst hretire hyes hnot =>
    obtain ⟨before, document, after, -, -, -, rfl, -, hstaged⟩ := stagedAt_of_view hview hfirst.here
    cases hret with
    | already index found _ _ htx =>
      rw [htx, hview]
      exact .retired _ hfirst hretire (retires_concat.2 (.inl hyes)) fun h => hnot (hreplaces _ h)
    | marked index found hfound hlive =>
      cases hstaged.symm.trans hfound
      exact absurd (hlive.symm.trans hretire) Bool.false_ne_true
    | absent hfound | loaded found _ hfound =>
      rw [hstaged] at hfound
      cases hfound
  | replaced view later hfirst hretire hlive hdraft hmade hyes =>
    obtain ⟨before, document, after, -, -, -, rfl, -, hstaged⟩ := stagedAt_of_view hview hfirst.here
    cases hret with
    | already index found _ _ htx =>
      rw [htx, hview]
      exact .replaced _ later hfirst hretire hlive hdraft hmade (replaces_concat.2 (.inl hyes))
    | marked index found hfound hopen =>
      cases hstaged.symm.trans hfound
      exact absurd (hopen.symm.trans hretire) Bool.false_ne_true
    | absent hfound | loaded found _ hfound =>
      rw [hstaged] at hfound
      cases hfound

/-! ## The calls of a transaction -/

/-- A call on the address is one of the definition. -/
def Concerns (definition : DocumentDefinition) (address : DocumentAddress) (c : Transaction.Call) : Prop :=
  c = .doc definition address ∨ (∃ seed, c = .docFrom definition address seed) ∨ c = .retireDoc definition address

/-- What is staged for the address after its successful calls. -/
structure Followed (storage : StorageState) (definition : DocumentDefinition) (address : DocumentAddress)
    (events : List LifecycleEvent) (w : Work) : Prop where
  phase : Phase storage definition address (events.map LifecycleEvent.call)
    (w.tx.view (definition.keyAt address))
  newest : ∀ event, events.getLast? = some event →
    event.draft = w.tx.latestDocuments.find (definition.keyAt address)

variable {events : List LifecycleEvent}

theorem Followed.frame (h : Followed storage definition address events w)
    (hview : u.tx.view (definition.keyAt address) =
      w.tx.view (definition.keyAt address)) : Followed storage definition address events u where
  phase := by
    rw [hview]
    exact h.phase
  newest event hevent := (h.newest event hevent).trans (congrArg Prod.snd hview).symm

theorem Followed.event {call : LifecycleCall}
    (h : Phase storage definition address (events.map LifecycleEvent.call ++ [call])
      (u.tx.view (definition.keyAt address))) : Followed storage definition address
      (events ++ [⟨call, u.tx.latestDocuments.find (definition.keyAt address)⟩]) u where
  phase := by
    rw [List.map_append]
    exact h
  newest event hevent := by
    rw [List.getLast?_append, List.getLast?_singleton] at hevent
    cases hevent
    rfl

variable {low : Int}

theorem Transaction.ensures_callDoc (h : Staged low w) :
    Ensures (fun u => u = w) (call (.doc definition address)) (fun _ u => Acquired definition address w u)
      fun u => u.tx = w.tx := by
  have hsame : ∀ u : Work, u = w → u.tx = w.tx := fun u hu => by rw [hu]
  refine (ensures_check hsame).bind fun _ => ?_
  split
  · exact ensures_throw fun u hu => hsame u hu.2
  · exact (ensures_acquire definition address h _).mono (fun _ hu => hu.2) (fun _ _ hu => hu) fun _ hu => hu

theorem Transaction.ensures_callDocFrom (h : Staged low w) (seed : Value) :
    Ensures (fun u => u = w) (call (.docFrom definition address seed)) (fun _ u => Acquired definition address w u)
      fun u => u.tx = w.tx := by
  have hsame : ∀ u : Work, u = w → u.tx = w.tx := fun u hu => by rw [hu]
  refine (ensures_check hsame).bind fun _ => ?_
  split
  · exact (ensures_acquire definition address h _).mono (fun _ hu => hu.2) (fun _ _ hu => hu) fun _ hu => hu
  · exact ensures_throw fun u hu => hsame u hu.2

/-- **One call.** -/
theorem Followed.call (h : Followed storage definition address events w) (hstaged : Staged low w)
    (hstor : SameCurrent (definition.keyAt address) w.session.storage storage) (c : Transaction.Call)
    (hconcerns : Transaction.lifecycleCall (definition.keyAt address) c ≠ none →
      Concerns definition address c) : Followed storage definition address
      (events ++ Transaction.lifecycleEvents (definition.keyAt address) w c) (endState (Transaction.call c) w) := by
  cases hkind : Transaction.lifecycleCall (definition.keyAt address) c with
  | none =>
    have hview := (Transaction.frames_call hkind _).endState (s := w) rfl
    rw [Transaction.lifecycleEvents, hkind, List.append_nil]
    exact h.frame hview
  | some event =>
    -- The specification of the call, and the phase it moves to.
    have hspec : ∀ {R : Work → Prop}, Ensures (fun u => u = w) (Transaction.call c) (fun _ u => R u)
        (fun u => u.tx = w.tx) → (∀ u, R u → Phase storage definition address
          (events.map LifecycleEvent.call ++ [event]) (u.tx.view (definition.keyAt address))) →
        Followed storage definition address (events ++ Transaction.lifecycleEvents (definition.keyAt address) w c)
          (endState (Transaction.call c) w) := by
      intro R hensures hphase
      have hrun := hensures w rfl
      rw [Transaction.lifecycleEvents, hkind, endState]
      cases hcall : Transaction.call c w with
      | ok a u =>
        rw [hcall] at hrun
        exact .event (hphase u hrun)
      | error e u =>
        rw [hcall] at hrun
        rw [List.append_nil]
        exact h.frame (by rw [show u.tx = w.tx from hrun])
    rcases hconcerns (by rw [hkind]; exact Option.some_ne_none _) with rfl | ⟨seed, rfl⟩ | rfl
    · rw [Transaction.lifecycleCall, if_pos rfl, Option.some.injEq] at hkind
      subst hkind
      exact hspec (Transaction.ensures_callDoc hstaged) fun u hu => h.phase.acquire hstor hu
    · rw [Transaction.lifecycleCall, if_pos rfl, Option.some.injEq] at hkind
      subst hkind
      exact hspec (Transaction.ensures_callDocFrom hstaged seed) fun u hu => h.phase.acquire hstor hu
    · rw [Transaction.lifecycleCall, if_pos rfl, Option.some.injEq] at hkind
      subst hkind
      exact hspec (Transaction.ensures_retireDoc definition address hstaged) fun u hu =>
        h.phase.retireDoc hstor hu

/-- **The calls of a transaction.** -/
theorem Followed.run (h : Followed storage definition address events w) (hstaged : Staged low w)
    (hstor : SameCurrent (definition.keyAt address) w.session.storage storage) (list : List Transaction.Call)
    (hconcerns : ∀ c ∈ list, Transaction.lifecycleCall (definition.keyAt address) c ≠ none →
      Concerns definition address c) : Followed storage definition address
      (events ++ Transaction.lifecycle (definition.keyAt address) w list) (Transaction.calls w list) := by
  induction list generalizing w events with
  | nil =>
    rw [Transaction.lifecycle, List.append_nil]
    exact h
  | cons c rest ih =>
    have hone : Effects w (endState (Transaction.call c) w) := effects_calls w [c]
    have hstaged' := hone.invariant (fun _ _ heffect hw => Effect.staged heffect hw) hstaged
    obtain ⟨count, hcount⟩ := hone.storage
    have hnext := h.call hstaged hstor c (hconcerns c List.mem_cons_self)
    rw [Transaction.lifecycle, ← List.append_assoc]
    refine ih hnext hstaged' (fun id => ?_) fun other hother => hconcerns other (List.mem_cons_of_mem _ hother)
    rw [← hstor id, hcount]
    rfl

/-! ## After the commit -/

theorem viewAt_mem {index position : Nat} (hdoc : documents[position]? = some document) (hkey : document.key = key) :
    document.viewAt (index + position) ∈ viewsFrom key index documents := by
  induction documents generalizing index position with
  | nil => cases hdoc
  | cons first rest ih =>
    rw [viewsFrom]
    cases position with
    | zero =>
      cases hdoc
      rw [if_pos hkey]
      exact List.mem_cons_self
    | succ position =>
      have hrest : document.viewAt (index + 1 + position) ∈ viewsFrom key (index + 1) rest := ih hdoc
      rw [Nat.add_assoc, Nat.add_comm 1] at hrest
      split
      · exact List.mem_cons_of_mem _ hrest
      · exact hrest

variable {writes : List StorageWrite} {after : StorageState}

theorem current_staged (h : Staged low w) (hcovers : Covers w writes)
    (hturn : StorageState.Turnover writes w.session.storage after)
    (hcopies : ∀ write ∈ w.tx.writes, ∀ record, createdRecord write = some record → record.addressKey ≠ key)
    {id : DocumentId} (hcur : CurrentAt after key id) :
    (∀ view ∈ viewsFrom key 0 w.tx.documents, view.record.id = id → view.retire = false) ∧
      (CurrentAt w.session.storage key id ∨
        ∃ view ∈ viewsFrom key 0 w.tx.documents, view.created = true ∧ view.record.id = id) := by
  obtain ⟨hlive, horigin⟩ := h.current_before hcovers hturn hcopies hcur
  refine ⟨fun view hview hid => ?_, horigin.imp_right ?_⟩
  · obtain ⟨position, document, hdoc, -, rfl⟩ := mem_viewsFrom hview
    exact hlive document (List.mem_of_getElem? hdoc) hid
  rintro ⟨document, hdoc, hmade, hkey, hid⟩
  obtain ⟨position, hpos⟩ := List.getElem?_of_mem hdoc
  exact ⟨_, viewAt_mem hpos hkey, hmade, hid⟩

/-- An address whose first staged document is retired keeps only what the later ones create. -/
theorem FirstView.retired (hfirst : FirstView storage definition address view) (hret : view.retire = true)
    (h : Staged low w) (hcovers : Covers w writes) (hturn : StorageState.Turnover writes w.session.storage after)
    (hstor : SameCurrent (definition.keyAt address) w.session.storage storage)
    (hcopies : ∀ write ∈ w.tx.writes, ∀ record, createdRecord write = some record →
      record.addressKey ≠ definition.keyAt address)
    (hviews : viewsFrom (definition.keyAt address) 0 w.tx.documents = view :: views)
    {id : DocumentId} (hcur : CurrentAt after (definition.keyAt address) id) :
    ∃ later ∈ views, later.created = true ∧ later.record.id = id := by
  obtain ⟨hlive, horigin⟩ := current_staged h hcovers hturn hcopies hcur
  rw [hviews] at hlive horigin
  have hnot : view.record.id ≠ id := by
    intro hid
    exact absurd ((hlive view List.mem_cons_self hid).symm.trans hret) Bool.false_ne_true
  rcases horigin with hprev | ⟨other, hother, hmade, hid⟩
  · rcases hfirst.origin with ⟨-, hfree⟩ | ⟨-, hloaded⟩
    · exact absurd ⟨id, (hstor id).1 hprev⟩ hfree
    · obtain ⟨bound, -, hlife⟩ := h.lifetimes
      exact absurd (hlife.currentAt_unique ((hstor _).2 hloaded) hprev) hnot
  rcases List.mem_cons.1 hother with rfl | hother
  · exact absurd hid hnot
  · exact ⟨other, hother, hmade, hid⟩

/-- **The address after the commit.** -/
theorem Phase.commit (hphase : Phase storage definition address calls
      (w.tx.view (definition.keyAt address))) (h : Staged low w) (hcovers : Covers w writes)
    (hturn : StorageState.Turnover writes w.session.storage after)
    (hstor : SameCurrent (definition.keyAt address) w.session.storage storage)
    (hcopies : ∀ write ∈ w.tx.writes, ∀ record, createdRecord write = some record →
      record.addressKey ≠ definition.keyAt address) :
    ((.doc ∉ calls ∧ (.retireDoc ∈ calls → ¬ Occupied after (definition.keyAt address))) ∨
      (Retires (Occupied storage (definition.keyAt address)) calls ∧
        ¬ Replaces (Occupied storage (definition.keyAt address)) calls ∧
        ¬ Occupied after (definition.keyAt address))) ∨
    ((.doc ∈ calls ∧ ¬ Retires (Occupied storage (definition.keyAt address)) calls ∨
        Replaces (Occupied storage (definition.keyAt address)) calls) ∧
      ∃ document, w.tx.latest (definition.keyAt address) = some document ∧ document.change.isSome ∧
        ∀ id, CurrentAt after (definition.keyAt address) id ↔ id = document.record.id) := by
  generalize hview : w.tx.view (definition.keyAt address) = seen at hphase
  obtain ⟨bound, -, hlife⟩ := h.lifetimes
  cases hphase with
  | untouched hdoc hretire =>
    refine .inl (.inl ⟨hdoc, fun hmem ⟨id, hid⟩ => ?_⟩)
    obtain ⟨-, hprev | ⟨view, hmemView, -⟩⟩ := current_staged h hcovers hturn hcopies hid
    · exact hretire hmem ⟨id, (hstor id).1 hprev⟩
    · rw [show viewsFrom _ 0 w.tx.documents = [] from congrArg Prod.fst hview] at hmemView
      cases hmemView
  | retired view hfirst hret hyes hnot =>
    refine .inl (.inr ⟨hyes, hnot, fun ⟨id, hid⟩ => ?_⟩)
    obtain ⟨later, hlater, -⟩ := hfirst.retired hret h hcovers hturn hstor hcopies (congrArg Prod.fst hview) hid
    cases hlater
  | live view hfirst hlive hdraft hdoc hnot =>
    refine .inr ⟨.inl ⟨hdoc, hnot⟩, ?_⟩
    obtain ⟨newest, hlatest, heq⟩ := latest_of_view hview (by simp)
    have hviews : viewsFrom (definition.keyAt address) 0 w.tx.documents = [view] := congrArg Prod.fst hview
    obtain ⟨before, document, rest, hsplit, -, hkey, hdocument, hrest⟩ := viewsFrom_eq_cons hviews
    have hmem : document ∈ w.tx.documents := by
      rw [hsplit]
      simp
    have hrec : newest.record = document.record := by
      have hsame := heq.symm.trans hdocument
      exact congrArg StagedView.record hsame
    refine ⟨newest, hlatest, by rw [heq] at hdraft; exact hdraft, fun id => ⟨fun hid => ?_, ?_⟩⟩
    · obtain ⟨-, horigin⟩ := current_staged h hcovers hturn hcopies hid
      rw [hviews] at horigin
      have hview' : view.record.id = newest.record.id := by rw [heq]; rfl
      rcases horigin with hprev | ⟨other, hother, hmade, rfl⟩
      · rcases hfirst.origin with ⟨-, hfree⟩ | ⟨-, hloaded⟩
        · exact absurd ⟨id, (hstor id).1 hprev⟩ hfree
        · rw [← hview']
          exact hlife.currentAt_unique hprev ((hstor _).2 hloaded)
      · rw [List.mem_singleton.1 hother, hview']
    rintro rfl
    rw [hrec]
    have hretire : document.retire = false := by
      rw [hdocument] at hlive
      exact hlive
    refine h.current_after hcovers hturn (h.unretired hsplit hretire (.inr fun other hother heq => ?_)) ?_
    · exact viewsFrom_eq_nil_iff.1 hrest other hother (heq.trans hkey)
    cases hmade : document.created with
    | true => exact .inr ⟨document, hmem, hmade, hkey, rfl⟩
    | false =>
      left
      rw [← hkey]
      exact h.loaded document hmem hmade
  | replaced view later hfirst hret hlive hdraft hmade hyes =>
    refine .inr ⟨.inr hyes, ?_⟩
    obtain ⟨newest, hlatest, heq⟩ := latest_of_view hview (by simp)
    have hviews : viewsFrom (definition.keyAt address) 0 w.tx.documents = [view, later] := congrArg Prod.fst hview
    have hlater : later.record.id = newest.record.id := by rw [heq]; rfl
    refine ⟨newest, hlatest, by rw [heq] at hdraft; exact hdraft, fun id => ⟨fun hid => ?_, ?_⟩⟩
    · obtain ⟨other, hother, -, rfl⟩ := hfirst.retired hret h hcovers hturn hstor hcopies hviews hid
      rw [List.mem_singleton.1 hother, hlater]
    rintro rfl
    obtain ⟨before, first, rest, hsplit, -, -, -, hrest⟩ := viewsFrom_eq_cons hviews
    obtain ⟨middle, document, last, hsplitRest, -, hkey, hdocument, -⟩ := viewsFrom_eq_cons hrest
    have hdocs : w.tx.documents = (before ++ first :: middle) ++ document :: last := by
      rw [hsplit, hsplitRest, List.append_assoc, List.cons_append]
    have hmem : document ∈ w.tx.documents := by
      rw [hdocs]
      simp
    have hflags : document.retire = false ∧ document.created = true := by
      rw [hdocument] at hlive hmade
      exact ⟨hlive, hmade⟩
    have hrec : newest.record = document.record := congrArg StagedView.record (heq.symm.trans hdocument)
    rw [hrec]
    exact h.current_after hcovers hturn (h.unretired hdocs hflags.1 (.inl hflags.2))
      (.inr ⟨document, hmem, hflags.2, hkey, rfl⟩)

end Phases

/-! ## Whether the last call is followed -/

/-- A Session that a run reaches from a new storage. -/
def Session.Reached (s : Session) : Prop :=
  ∃ closedMessage before, s = Session.run { storage := { closedMessage := closedMessage } } before

/-- What a commit makes of the last call on an address: no current incarnation after a retirement, and exactly the
incarnation of the returned draft after an acquisition. -/
def FollowsLast (key : Bytes) (documents : List StagedDocument) (after : StorageState) (last : LifecycleEvent) : Prop :=
  match last.call with
  | .retireDoc => ∀ id, ¬ CurrentAt after key id
  | .doc => ∃ index document, last.draft = some index ∧ documents[index]? = some document ∧ document.change.isSome ∧
      ∀ id, CurrentAt after key id ↔ id = document.record.id

theorem Session.commitNow_success {s after : Session} {calls : List Transaction.Call} {outcome : Session.Outcome}
    (h : s.commitNow calls (.ok ()) = (outcome, after))
    (hsuccess : outcome = .unchanged ∨ ∃ publication, outcome = .committed publication) :
    ∃ assembly, Transaction.assemble (Transaction.calls ⟨s, {}⟩ calls) = .ok assembly ∧
      StorageState.Turnover assembly.writes (Transaction.calls ⟨s, {}⟩ calls).session.storage after.storage := by
  rcases s.commitNow_cases calls (.ok ()) with ⟨-, hcase⟩ | ⟨other, hother, hcase⟩ | ⟨-, w, assembly, storage, hc, hcase⟩
  · cases hcase.symm.trans h
    rcases hsuccess with hsuccess | ⟨publication, hsuccess⟩ <;> cases hsuccess
  · have hunchanged : outcome = .unchanged := by
      rcases hsuccess with hsuccess | ⟨publication, rfl⟩
      · exact hsuccess
      · rcases hcase with hcase | hcase <;> exact absurd (congrArg Prod.fst (hcase.symm.trans h)) (hother publication)
    subst hunchanged
    unfold Session.commitNow at h
    split at h
    · cases h
    dsimp only at h
    split at h
    · cases h
    rename_i assembly hassembled
    refine ⟨assembly, hassembled, ?_⟩
    unfold Session.commitBatch at h
    split at h
    · rename_i hempty
      cases h
      rw [List.isEmpty_iff.1 hempty]
      exact .nil _
    · split at h <;> cases h
  · cases hcase.symm.trans h
    refine ⟨assembly, hc.callback ▸ hc.assembled, ?_⟩
    rw [← hc.callback, Session.Committed.after, Session.settle_storage]
    exact StorageState.turnover_applyNext hc.applied

/-- **The last call decides** what a committed transaction makes of an address, except when it is a retirement and an
incarnation was retired and the address acquired again before it. Any other calls may stand between those on the
address, which are all of one definition, and no fork of the transaction copies a document there. -/
theorem lifecycle_followed_iff (s : Session) (hreached : s.Reached) (definition : DocumentDefinition)
    (address : DocumentAddress) (calls : List Transaction.Call) (events : List LifecycleEvent) (last : LifecycleEvent)
    (outcome : Session.Outcome) (after : Session) (hcommit : s.commitNow calls (.ok ()) = (outcome, after))
    (hsuccess : outcome = .unchanged ∨ ∃ publication, outcome = .committed publication)
    (hconcerns : ∀ c ∈ calls, Transaction.lifecycleCall (documentAddressKey definition.kind address) c ≠ none →
      Concerns definition address c)
    (hcopies : ∀ write ∈ (Transaction.calls ⟨s, {}⟩ calls).tx.writes, ∀ record, createdRecord write = some record →
      record.addressKey ≠ documentAddressKey definition.kind address)
    (hevents : Transaction.lifecycle (documentAddressKey definition.kind address) ⟨s, {}⟩ calls = events ++ [last]) :
    FollowsLast (documentAddressKey definition.kind address) (Transaction.calls ⟨s, {}⟩ calls).tx.documents after.storage
        last ↔ ¬ (last.call = .retireDoc ∧ Replaces (Occupied s.storage (documentAddressKey definition.kind address))
        (events.map LifecycleEvent.call)) := by
  obtain ⟨closedMessage, before, rfl⟩ := hreached
  generalize hs : Session.run { storage := { closedMessage := closedMessage } } before = s at *
  have hcoherent : s.Coherent := hs ▸ Session.coherent_run (Session.coherent_initial closedMessage) before
  obtain ⟨assembly, hassembled, hturnover⟩ := Session.commitNow_success hcommit hsuccess
  obtain ⟨resolved, ha⟩ := assemble_eq_ok hassembled
  have hstaged := hcoherent.calls calls
  obtain ⟨count, hcount⟩ := (effects_calls ⟨s, {}⟩ calls).storage
  have hstorage : ∀ id, CurrentAt (Transaction.calls ⟨s, {}⟩ calls).session.storage
      (documentAddressKey definition.kind address) id ↔
        CurrentAt s.storage (documentAddressKey definition.kind address) id := by
    intro id
    rw [hcount]
    rfl
  have hfollowed : Followed s.storage definition address (events ++ [last]) (Transaction.calls ⟨s, {}⟩ calls) := by
    have hstart : Followed s.storage definition address [] ⟨s, {}⟩ :=
      ⟨.untouched (by simp) (by simp), fun event hevent => by cases hevent⟩
    have hrun := hstart.run hcoherent.staged (fun id => Iff.rfl) calls hconcerns
    rw [List.nil_append, hevents] at hrun
    exact hrun
  have hdraft := hfollowed.newest last (by simp)
  have hphase := hfollowed.phase
  rw [List.map_append] at hphase
  have hafter := hphase.commit hstaged (ha.covers hstaged) hturnover hstorage hcopies
  obtain ⟨call, draft⟩ := last
  cases call with
  | retireDoc =>
    rw [and_iff_right rfl]
    rcases hafter with (⟨hdoc, hfree⟩ | ⟨-, hnot, hfree⟩) | ⟨⟨hdoc, hnot⟩ | hyes, document, -, -, hcurrent⟩
    · have hnone : .doc ∉ events.map LifecycleEvent.call := fun hmem => hdoc (List.mem_append_left _ hmem)
      exact iff_of_true (fun id hid => hfree (by simp) ⟨id, hid⟩) (not_replaces hnone)
    · exact iff_of_true (fun id hid => hfree ⟨id, hid⟩) fun hyes => hnot (replaces_concat.2 (.inl hyes))
    · refine absurd (retires_concat.2 (.inr ⟨rfl, .inr ?_⟩)) hnot
      simpa using hdoc
    · -- The replacement is still current.
      have hbefore : Replaces (Occupied s.storage (documentAddressKey definition.kind address))
          (events.map LifecycleEvent.call) := by
        rcases replaces_concat.1 hyes with hbefore | ⟨hcall, -⟩
        · exact hbefore
        · cases hcall
      exact iff_of_false (fun hnone => hnone _ ((hcurrent _).2 rfl)) (not_not_intro hbefore)
  | doc =>
    refine iff_of_true ?_ fun h => nomatch h.1
    rcases hafter with (⟨hdoc, -⟩ | ⟨hretires, hnot, -⟩) | ⟨-, document, hlatest, hopen, hcurrent⟩
    · exact absurd (by simp) hdoc
    · have hbefore : Retires (Occupied s.storage (documentAddressKey definition.kind address))
          (events.map LifecycleEvent.call) := by
        rcases retires_concat.1 hretires with hbefore | ⟨hcall, -⟩
        · exact hbefore
        · cases hcall
      exact absurd (replaces_concat.2 (.inr ⟨rfl, hbefore⟩)) hnot
    · obtain ⟨index, hindex, hdocument⟩ := Option.bind_eq_some_iff.1 hlatest
      exact ⟨index, document, hdraft.trans hindex, hdocument, hopen, hcurrent⟩

def replaceNote : List Transaction.Call := [.doc note {}, .retireDoc note {}, .doc note {}]

/-- A note is taken again after its retirement. -/
theorem replaceNote_followed : FollowsLast (documentAddressKey note.kind {})
    (Transaction.calls ⟨noteSession, {}⟩ replaceNote).tx.documents
    (noteSession.commitNow replaceNote (.ok ())).2.storage ⟨.doc, some 1⟩ := by
  refine (lifecycle_followed_iff noteSession
    ⟨_, [.commit [.createRootConversation, .doc note {}] (.ok ())], rfl⟩ note {} replaceNote
    [⟨.doc, some 0⟩, ⟨.retireDoc, some 0⟩] ⟨.doc, some 1⟩ (noteSession.commitNow replaceNote (.ok ())).1 _ rfl
    (.inr ⟨_, rfl⟩) ?_ ?_ rfl).2 fun h => nomatch h.1
  · intro c hc _
    simp only [replaceNote, List.mem_cons, List.not_mem_nil, or_false] at hc
    rcases hc with rfl | rfl | rfl
    · exact .inl rfl
    · exact .inr (.inr rfl)
    · exact .inl rfl
  · intro write hwrite
    cases (show write ∈ ([] : List StorageWrite) from hwrite)

/-- The second retirement of a transaction leaves the replacement current. -/
theorem retireTwice_unfollowed :
    Transaction.lifecycle (documentAddressKey note.kind {}) ⟨noteSession, {}⟩ (replaceNote ++ [.retireDoc note {}]) =
        [⟨.doc, some 0⟩, ⟨.retireDoc, some 0⟩, ⟨.doc, some 1⟩] ++ [⟨.retireDoc, some 1⟩] ∧
      (∃ publication, (noteSession.commitNow (replaceNote ++ [.retireDoc note {}]) (.ok ())).1 =
        .committed publication) ∧ ¬ FollowsLast (documentAddressKey note.kind {})
        (Transaction.calls ⟨noteSession, {}⟩ (replaceNote ++ [.retireDoc note {}])).tx.documents
        (noteSession.commitNow (replaceNote ++ [.retireDoc note {}]) (.ok ())).2.storage ⟨.retireDoc, some 1⟩ := by
  refine ⟨rfl, ⟨_, rfl⟩, fun h => ?_⟩
  have hnone : ¬ CurrentAt (noteSession.commitNow (replaceNote ++ [.retireDoc note {}]) (.ok ())).2.storage
      (documentAddressKey note.kind {}) 3 := h 3
  exact hnone ⟨_, rfl, rfl, rfl⟩

end CodingHarness.Durable
