import CodingHarness.Agent.SessionEntries
import CodingHarness.Library.ParentChains
import Mathlib.Data.List.DropRight

/-!
# The session tree

`SessionTree` keeps the entries of a session file in order, an index from ids to positions, and the
parents it inferred for entries whose line has no `parentId` field. Ids are resolved to the last entry
that carries them; `get_tree` builds its own index, which resolves them to the first one.

Parents come from the file. `walks_iff` says when the two walks over them are sound: `getBranch` ends for
every start and repeats no entry, and `getTree` shows every entry once, exactly when neither resolution
makes an entry its own ancestor. The parent walk has no visited set, so one entry that names itself keeps
it busy for ever (`cycles_break_walks`).
-/

namespace CodingHarness.Agent

open Library Support Relation

/-- `SessionTree`; the hash maps are lists of members, and no iteration order is read. -/
structure SessionTree where
  entries : List SessionEntry := []
  idToIndex : JsonObject Nat := []
  children : JsonObject (List Nat) := []
  inferredParent : JsonObject Bytes := []
  chainTail : Option Bytes := none
  leafId : Bytes := []
  deriving DecidableEq

namespace SessionTree

/-! ## Construction -/

/-- `children_[parent].push_back(index)`, and the entry becomes the tail of the chain. -/
def addChild (tree : SessionTree) (parent : Bytes) (index : Nat) (entryId : Bytes) : SessionTree := { tree with
    children := tree.children.insertOrAssign parent
      ((tree.children.find parent).getD [] ++ [index])
    chainTail := some entryId }

/-- `index_appended_entry`: an id is the parent, a `null` is a root, and only a missing field falls back
to the order of the entries. -/
def indexAppendedEntry (tree : SessionTree) (index : Nat) (entry : SessionEntry) : SessionTree :=
  let tree := if entry.entryId = [] then tree
    else { tree with idToIndex := tree.idToIndex.insertOrAssign entry.entryId index }
  match parentEntryId entry.parentId, entry.parentId, tree.chainTail with
  | some named, _, _ => tree.addChild named index entry.entryId
  | none, .absent, some tail =>
    { tree with inferredParent := tree.inferredParent.insertOrAssign entry.entryId tail }.addChild
      tail index entry.entryId
  | none, _, _ => { tree with chainTail := some entry.entryId }

def push (tree : SessionTree) (entry : SessionEntry) : SessionTree :=
  { tree with entries := tree.entries ++ [entry] }.indexAppendedEntry tree.entries.length entry

/-- `select_active_leaf_id`: the last entry that is not a header. -/
def selectActiveLeafId (entries : List SessionEntry) : Option Bytes :=
  ((entries.filter fun entry => entry.kind != .header).getLast?).map SessionEntry.entryId

/-- The constructor of `SessionTree`: headers and entries of unknown kinds are left out. -/
def ofEntries (entries : List SessionEntry) : SessionTree := let tracked := entries.filter SessionEntry.isTracked
  { tracked.foldl push {} with leafId := (selectActiveLeafId tracked).getD [] }

/-- `append_entry`: the entry becomes the active leaf. -/
def appendEntry (tree : SessionTree) (entry : SessionEntry) : SessionTree := if entry.isTracked then
    let tree := tree.push entry
    if entry.entryId = [] then tree else { tree with leafId := entry.entryId }
  else tree

/-! ## Queries -/

/-- `getEntry`, as a position. -/
def indexOf (tree : SessionTree) (entryId : Bytes) : Option Nat := tree.idToIndex.find entryId

def getEntry (tree : SessionTree) (entryId : Bytes) : Option SessionEntry :=
  (tree.indexOf entryId).bind fun index => tree.entries[index]?

def effectiveParentId (tree : SessionTree) (entryId : Bytes) : Option Bytes := match tree.getEntry entryId with
  | none => tree.inferredParent.find entryId
  | some entry =>
    match parentEntryId entry.parentId, entry.parentId with
    | some named, _ => some named
    | none, .root => none
    | none, _ => tree.inferredParent.find entryId

/-- The entry the parent walk visits after a position. -/
def parentIndex (tree : SessionTree) (index : Nat) : Option Nat := (tree.entries[index]?).bind fun entry =>
    (tree.effectiveParentId entry.entryId).bind tree.indexOf

/-- `getBranch`: the positions from an entry (or the active leaf) up to a root. The loop of the source has
no bound: there is no result when the fuel does not suffice. -/
def getBranch (tree : SessionTree) (fuel : Nat) (fromId : Bytes) : Option (List Nat) :=
  match tree.indexOf (if fromId = [] then tree.leafId else fromId) with
  | none => some []
  | some start => chain tree.parentIndex fuel start

/-! ## The displayed forest -/

/-- The characters that `get_tree` and `get_label` trim. -/
def isBlank (c : UInt8) : Bool := c == 0x20 || c == 0x09 || c == 0x0D || c == 0x0A

/-- A label without surrounding blanks; nothing when only blanks are left. -/
def trimmedLabel (label : Bytes) : Option Bytes := match (label.dropWhile isBlank).rdropWhile isBlank with
  | [] => none
  | text => some text

/-- The resolved labels with their timestamps: later entries win, and an empty label clears. -/
def labels (entries : List SessionEntry) : JsonObject (Option Bytes × Option Int) :=
  entries.foldl (fun known entry =>
    match entry.value with
    | .label targetId label =>
      match label.bind trimmedLabel with
      | some text => known.insertOrAssign targetId (some text, some entry.timestamp)
      | none => known.insertOrAssign targetId (none, none)
    | _ => known) []

/-- The copy of an entry that is shown carries the inferred parent. -/
def display (tree : SessionTree) (entry : SessionEntry) : SessionEntry :=
  match entry.parentId, tree.inferredParent.find entry.entryId with
  | .absent, some inferred => { entry with parentId := .entry inferred }
  | _, _ => entry

/-- `node_by_id`: the first entry with an id. -/
def firstIndex (tree : SessionTree) (entryId : Bytes) : Option Nat :=
  tree.entries.findIdx? fun entry => entry.entryId = entryId

/-- The position an entry hangs under in the forest. An entry without a parent, with itself as parent or
with a parent that no entry has is a root. -/
def nodeParent (tree : SessionTree) (index : Nat) : Option Nat := (tree.entries[index]?).bind fun entry =>
    (parentEntryId (tree.display entry).parentId).bind fun parent =>
      if parent = entry.entryId then none else tree.firstIndex parent

def rootIndexes (tree : SessionTree) : List Nat :=
  (List.range tree.entries.length).filter fun index => tree.nodeParent index = none

/-- `children_indexes`. -/
def childIndexes (tree : SessionTree) (parent : Nat) : List Nat :=
  (List.range tree.entries.length).filter fun index => tree.nodeParent index = some parent

end SessionTree

inductive SessionTreeNode where
  | mk (entry : SessionEntry) (children : List SessionTreeNode) (label : Option Bytes)
      (labelTimestamp : Option Int)

namespace SessionTreeNode

def entry : SessionTreeNode → SessionEntry
  | mk entry _ _ _ => entry

mutual
/-- The entries of a node and of everything under it. -/
def flatten : SessionTreeNode → List SessionEntry
  | mk entry children _ _ => entry :: flattenAll children
def flattenAll : List SessionTreeNode → List SessionEntry
  | [] => []
  | node :: rest => flatten node ++ flattenAll rest
end

end SessionTreeNode

/-- `std::sort` of children by timestamp. It is not stable, so children with equal timestamps may come
out in any order. -/
structure ChildSort where
  sort : List SessionTreeNode → List SessionTreeNode
  perm : ∀ nodes, (sort nodes).Perm nodes
  sorted : ∀ nodes, (sort nodes).Pairwise fun a b => a.entry.timestamp ≤ b.entry.timestamp

namespace SessionTree

def nodeOf (tree : SessionTree) (entry : SessionEntry) (children : List SessionTreeNode) : SessionTreeNode :=
  let label := (labels tree.entries).find entry.entryId
  .mk (tree.display entry) children (label.bind Prod.fst) (label.bind Prod.snd)

/-- The nodes at a list of positions, with what hangs under them to a given depth. -/
def buildNode (tree : SessionTree) (sorting : ChildSort) : Nat → Nat → List SessionTreeNode
  | 0, index => (tree.entries[index]?).toList.map fun entry => tree.nodeOf entry []
  | depth + 1, index =>
    (tree.entries[index]?).toList.map fun entry =>
      tree.nodeOf entry
        (sorting.sort ((tree.childIndexes index).flatMap (tree.buildNode sorting depth)))

/-- `get_tree`. A chain of children has no repetition, so the number of entries bounds its depth. -/
def getTree (tree : SessionTree) (sorting : ChildSort) : List SessionTreeNode :=
  tree.rootIndexes.flatMap (tree.buildNode sorting tree.entries.length)

/-! ## The index -/

/-- Every indexed id is not empty and leads to an entry of the tree. -/
def Indexed (tree : SessionTree) : Prop :=
  ∀ entryId index, tree.indexOf entryId = some index → entryId ≠ [] ∧ index < tree.entries.length

@[simp] theorem indexAppendedEntry_entries (tree : SessionTree) (index : Nat) (entry : SessionEntry) :
    (tree.indexAppendedEntry index entry).entries = tree.entries := by
  unfold indexAppendedEntry
  dsimp only
  split <;> split <;> rfl

@[simp] theorem indexAppendedEntry_idToIndex (tree : SessionTree) (index : Nat) (entry : SessionEntry) :
    (tree.indexAppendedEntry index entry).idToIndex = if entry.entryId = [] then tree.idToIndex
      else tree.idToIndex.insertOrAssign entry.entryId index := by
  unfold indexAppendedEntry
  dsimp only
  split <;> split <;> rfl

@[simp] theorem push_entries (tree : SessionTree) (entry : SessionEntry) :
    (tree.push entry).entries = tree.entries ++ [entry] := by
  simp [push]

variable {tree : SessionTree}

theorem push_indexed (h : tree.Indexed) (entry : SessionEntry) : (tree.push entry).Indexed := by
  intro entryId index hfind
  rw [indexOf, push, indexAppendedEntry_idToIndex] at hfind
  rw [push_entries, List.length_append, List.length_singleton]
  by_cases hempty : entry.entryId = []
  · rw [if_pos hempty] at hfind
    obtain ⟨hne, hlt⟩ := h entryId index hfind
    exact ⟨hne, by omega⟩
  rw [if_neg hempty, JsonObject.find_insertOrAssign] at hfind
  split at hfind
  · next heq =>
    cases hfind
    exact ⟨heq ▸ hempty, by omega⟩
  · obtain ⟨hne, hlt⟩ := h entryId index hfind
    exact ⟨hne, by omega⟩

theorem foldl_push_indexed (h : tree.Indexed) (entries : List SessionEntry) : (entries.foldl push tree).Indexed := by
  induction entries generalizing tree with
  | nil => exact h
  | cons entry rest ih => exact ih (push_indexed h entry)

theorem ofEntries_indexed (entries : List SessionEntry) : (ofEntries entries).Indexed :=
  foldl_push_indexed (fun _ _ h => by simp [indexOf] at h) _

/-! ## The parent walk -/

/-- `getBranch` ends for every start and repeats no entry. -/
def WalksEnd (tree : SessionTree) : Prop :=
  ∀ fromId, ∃ fuel path, tree.getBranch fuel fromId = some path ∧ path.Nodup

theorem parentIndex_lt (h : tree.Indexed) {index parent : Nat}
    (hpar : tree.parentIndex index = some parent) : parent < tree.entries.length := by
  obtain ⟨entry, -, hpar⟩ := Option.bind_eq_some_iff.1 hpar
  obtain ⟨parentId, -, hpar⟩ := Option.bind_eq_some_iff.1 hpar
  exact (h parentId parent hpar).2

theorem walksEnd_iff (h : tree.Indexed) : tree.WalksEnd ↔ Acyclic (Climbs tree.parentIndex) := by
  constructor
  · intro hends index hcycle
    -- A point on a cycle is the parent of another one, so an id leads to it.
    obtain ⟨last, -, hlast⟩ := TransGen.tail'_iff.1 hcycle
    obtain ⟨entry, -, hpar⟩ := Option.bind_eq_some_iff.1 hlast
    obtain ⟨entryId, -, hindex⟩ := Option.bind_eq_some_iff.1 hpar
    obtain ⟨fuel, path, hbranch, -⟩ := hends entryId
    rw [getBranch, if_neg (h entryId index hindex).1, hindex] at hbranch
    cases hbranch.symm.trans (chain_of_cycle hcycle fuel)
  intro hacyclic fromId
  cases hstart : tree.indexOf (if fromId = [] then tree.leafId else fromId) with
  | none => exact ⟨0, [], by rw [getBranch, hstart], List.nodup_nil⟩
  | some start =>
    have hall : ∀ a b, tree.parentIndex a = some b → b ∈ List.range tree.entries.length :=
      fun a b hab => List.mem_range.2 (parentIndex_lt h hab)
    obtain ⟨fuel, path, hpath⟩ := exists_chain hacyclic hall start
    exact ⟨fuel, path, by rw [getBranch, hstart]; exact hpath, chain_nodup hpath⟩

/-! ## The forest -/

/-- `getTree` shows every tracked entry exactly once. -/
def LosesNothing (tree : SessionTree) (sorting : ChildSort) : Prop :=
  (SessionTreeNode.flattenAll (tree.getTree sorting)).Perm (tree.entries.map tree.display)

theorem nodeParent_lt {index parent : Nat} (h : tree.nodeParent index = some parent):
    index < tree.entries.length ∧ parent < tree.entries.length := by
  obtain ⟨entry, hentry, h⟩ := Option.bind_eq_some_iff.1 h
  obtain ⟨parentId, -, h⟩ := Option.bind_eq_some_iff.1 h
  split at h
  · cases h
  · exact ⟨(List.getElem?_eq_some_iff.1 hentry).1, (List.findIdx?_eq_some_iff_getElem.1 h).choose⟩

theorem forest (tree : SessionTree) :
    Forest tree.nodeParent tree.childIndexes tree.rootIndexes (List.range tree.entries.length) where
  nodup := List.nodup_range
  inside a b hab := by
    simpa only [List.mem_range] using nodeParent_lt hab
  mem_children a b := by
    simp only [childIndexes, List.mem_filter, List.mem_range, decide_eq_true_eq, and_iff_right_iff_imp]
    exact fun hab => (nodeParent_lt hab).1
  children_nodup a := List.nodup_range.filter _
  mem_roots a := by simp [rootIndexes]
  roots_nodup := List.nodup_range.filter _

def shown (tree : SessionTree) (index : Nat) : List SessionEntry := (tree.entries[index]?).toList.map tree.display

open SessionTreeNode in
theorem flattenAll_append (xs ys : List SessionTreeNode) :
    flattenAll (xs ++ ys) = flattenAll xs ++ flattenAll ys := by
  induction xs with
  | nil => rfl
  | cons node rest ih => simp [flattenAll, ih]

open SessionTreeNode in
theorem flattenAll_flatMap (indexes : List Nat) (nodes : Nat → List SessionTreeNode) :
    flattenAll (indexes.flatMap nodes) = indexes.flatMap fun index => flattenAll (nodes index) := by
  induction indexes with
  | nil => rfl
  | cons index rest ih => simp [flattenAll_append, ih]

open SessionTreeNode in
theorem flattenAll_perm {xs ys : List SessionTreeNode} (h : xs.Perm ys) : (flattenAll xs).Perm (flattenAll ys) := by
  induction h with
  | nil => exact .refl _
  | cons node _ ih => exact ih.append_left (flatten node)
  | swap a b rest =>
    simp only [flattenAll, ← List.append_assoc]
    exact List.perm_append_comm.append_right _
  | trans _ _ ih ih' => exact ih.trans ih'

theorem flattenAll_buildNode (tree : SessionTree) (sorting : ChildSort) (depth : Nat) {index : Nat}
    (hindex : index < tree.entries.length) : (SessionTreeNode.flattenAll (tree.buildNode sorting depth index)).Perm
      ((below tree.childIndexes depth index).flatMap tree.shown) := by
  induction depth generalizing index with
  | zero => simp [buildNode, below, shown, hindex, SessionTreeNode.flattenAll, nodeOf, SessionTreeNode.flatten]
  | succ depth ih =>
    have hchildren : ∀ child ∈ tree.childIndexes index,
        (SessionTreeNode.flattenAll (tree.buildNode sorting depth child)).Perm
          ((below tree.childIndexes depth child).flatMap tree.shown) := by
      intro child hchild
      exact ih (List.mem_range.1 (List.mem_filter.1 hchild).1)
    simp only [buildNode, below, hindex, List.getElem?_eq_getElem, Option.toList_some,
      List.map_cons, List.map_nil, SessionTreeNode.flattenAll, nodeOf, SessionTreeNode.flatten,
      List.append_nil, List.flatMap_cons, shown, List.singleton_append, List.flatMap_assoc]
    refine List.Perm.cons _ (((flattenAll_perm (sorting.perm _))).trans ?_)
    rw [flattenAll_flatMap]
    exact List.Perm.flatMap_left _ hchildren

theorem flattenAll_getTree (tree : SessionTree) (sorting : ChildSort) :
    (SessionTreeNode.flattenAll (tree.getTree sorting)).Perm ((Forest.listing tree.childIndexes tree.rootIndexes
        (List.range tree.entries.length)).flatMap tree.shown) := by
  rw [getTree, flattenAll_flatMap, Forest.listing, List.flatMap_assoc, List.length_range]
  refine List.Perm.flatMap_left _ fun index hindex => ?_
  exact tree.flattenAll_buildNode sorting _ (List.mem_range.1 (List.mem_filter.1 hindex).1)

theorem flatMap_range_getElem {α β : Type} (items : List α) (f : α → β) :
    ((List.range items.length).flatMap fun index => (items[index]?).toList.map f) = items.map f := by
  induction items using List.reverseRecOn with
  | nil => rfl
  | append_singleton items item ih =>
    rw [List.length_append, List.length_singleton, List.range_succ, List.flatMap_append, List.map_append, ← ih]
    congr 1
    · refine List.flatMap_congr fun index hindex => ?_
      rw [List.getElem?_append_left (List.mem_range.1 hindex)]
    · simp

theorem length_flatMap_shown (tree : SessionTree) {indexes : List Nat}
    (h : indexes ⊆ List.range tree.entries.length) : (indexes.flatMap tree.shown).length = indexes.length := by
  induction indexes with
  | nil => rfl
  | cons index rest ih =>
    obtain ⟨hindex, hrest⟩ := List.cons_subset.1 h
    have hlt := List.mem_range.1 hindex
    simp [ih hrest, shown, hlt]

theorem losesNothing_iff (tree : SessionTree) (sorting : ChildSort) :
    tree.LosesNothing sorting ↔ Acyclic (Climbs tree.nodeParent) := by
  have hshown := tree.flattenAll_getTree sorting
  have hall : (List.range tree.entries.length).flatMap tree.shown = tree.entries.map tree.display :=
    flatMap_range_getElem tree.entries tree.display
  rw [LosesNothing, ← tree.forest.listing_perm_iff, ← hall]
  constructor
  · intro hperm
    -- Counting the entries shown counts the positions.
    refine tree.forest.listing_perm_of_length (le_of_eq ?_)
    have hlen := (hshown.symm.trans hperm).length_eq
    rw [length_flatMap_shown tree tree.forest.listing_subset, length_flatMap_shown tree (List.Subset.refl _)] at hlen
    exact hlen.symm
  · intro hperm
    exact hshown.trans (hperm.flatMap_right tree.shown)

/-- For every loaded file: the parent walk ends everywhere without a repeated entry and the forest shows
every entry once, exactly when no entry is its own ancestor, neither through the last entry with each id
nor through the first one. -/
theorem walks_iff (entries : List SessionEntry) (sorting : ChildSort) :
    (ofEntries entries).WalksEnd ∧ (ofEntries entries).LosesNothing sorting ↔
      Acyclic (Climbs (ofEntries entries).parentIndex) ∧ Acyclic (Climbs (ofEntries entries).nodeParent) := by
  rw [walksEnd_iff (ofEntries_indexed entries), losesNothing_iff]

/-! ## Files with a cycle -/

/-- One of the orders that `std::sort` may produce. -/
def stableSort : ChildSort where
  sort nodes := nodes.mergeSort fun a b => decide (a.entry.timestamp ≤ b.entry.timestamp)
  perm nodes := List.mergeSort_perm nodes _
  sorted nodes := by
    have h : (nodes.mergeSort fun a b => decide (a.entry.timestamp ≤ b.entry.timestamp)).Pairwise
        fun a b => decide (a.entry.timestamp ≤ b.entry.timestamp) = true :=
      List.pairwise_mergeSort
        (fun a b c => by simp only [decide_eq_true_eq]; exact le_trans)
        (fun a b => by simpa using le_total a.entry.timestamp b.entry.timestamp) nodes
    exact h.imp fun hle => by simpa using hle

/-- An entry that names another one as its parent. -/
def child (entryId parentId : String) : SessionEntry where
  entryId := ofString entryId
  parentId := .entry (ofString parentId)
  value := .sessionInfo none

/-- An entry that names itself keeps the parent walk busy for ever, and two entries that name each other
do not appear in the forest. -/
theorem cycles_break_walks : ¬ (ofEntries [child "a" "a"]).WalksEnd ∧
      ¬ (ofEntries [child "a" "b", child "b" "a"]).LosesNothing stableSort := by
  constructor
  · rw [walksEnd_iff (ofEntries_indexed _)]
    have hstep : (ofEntries [child "a" "a"]).parentIndex 0 = some 0 := by decide +kernel
    exact fun h => h 0 (.single hstep)
  rw [losesNothing_iff]
  have hup : (ofEntries [child "a" "b", child "b" "a"]).nodeParent 0 = some 1 := by decide +kernel
  have hback : (ofEntries [child "a" "b", child "b" "a"]).nodeParent 1 = some 0 := by
    decide +kernel
  exact fun h => h 0 (.tail (.single hup) hback)

/-! ## Moves -/

/-- `branch`. -/
def branch (tree : SessionTree) (entryId : Bytes) : Expected SessionTree :=
  if (tree.getEntry entryId).isNone then .error ⟨.session, "entry not found: " ++ entryId⟩
  else .ok { tree with leafId := entryId }

/-- `reset_leaf`: the next entry without a parent starts a new root. -/
def resetLeaf (tree : SessionTree) : SessionTree := { tree with leafId := [], chainTail := none }

/-- A call on the tree. -/
inductive Move where
  | append (entry : SessionEntry)
  | branch (entryId : Bytes)
  | resetLeaf

/-- One call; a branch to an unknown entry changes nothing. -/
def step (tree : SessionTree) : Move → SessionTree
  | .append entry => tree.appendEntry entry
  | .branch entryId => (tree.branch entryId).toOption.getD tree
  | .resetLeaf => tree.resetLeaf

def Move.entry : Move → Option SessionEntry
  | .append entry => some entry
  | _ => none

/-- The index looks at the tail of the chain for entries without a parent field only, and never at the leaf. -/
theorem push_moved (tree : SessionTree) (leaf : Bytes) (tail : Option Bytes) {entry : SessionEntry}
    (h : entry.parentId ≠ .absent) :
    push { tree with leafId := leaf, chainTail := tail } entry = { push tree entry with leafId := leaf } := by
  unfold push indexAppendedEntry
  cases hparent : entry.parentId with
  | absent => exact absurd hparent h
  | _ => split_ifs <;> cases parentEntryId _ <;> cases tail <;> cases tree.chainTail <;> rfl

theorem step_append (entries : List SessionEntry) (leaf : Bytes) (tail : Option Bytes) {entry : SessionEntry}
    (h : entry.parentId ≠ .absent) :
    ∃ leaf' tail', appendEntry { ofEntries entries with leafId := leaf, chainTail := tail } entry =
      { ofEntries (entries ++ [entry]) with leafId := leaf', chainTail := tail' } := by
  unfold appendEntry ofEntries
  rw [List.filter_append]
  cases htracked : entry.isTracked with
  | false => exact ⟨leaf, tail, by simp [htracked]⟩
  | true =>
    simp only [if_true]
    rw [push_moved _ _ _ h]
    split_ifs
    · exact ⟨leaf, _, by simp [htracked]; rfl⟩
    · exact ⟨entry.entryId, _, by simp [htracked]; rfl⟩

/-- **Moves leave the index alone.** However entries with a parent field are appended between moves of the active
leaf, the tree is the one of all the entries read at once, up to the leaf and the tail of the chain. -/
theorem foldl_step (entries : List SessionEntry) (moves : List Move)
    (h : ∀ entry ∈ moves.filterMap Move.entry, entry.parentId ≠ .absent) :
    ∃ leaf tail, moves.foldl step (ofEntries entries) =
      { ofEntries (entries ++ moves.filterMap Move.entry) with leafId := leaf, chainTail := tail } := by
  suffices hrun : ∀ leaf tail, ∃ leaf' tail',
      moves.foldl step { ofEntries entries with leafId := leaf, chainTail := tail } =
        { ofEntries (entries ++ moves.filterMap Move.entry) with leafId := leaf', chainTail := tail' } from
    hrun (ofEntries entries).leafId (ofEntries entries).chainTail
  induction moves generalizing entries with
  | nil => exact fun leaf tail => ⟨leaf, tail, by simp⟩
  | cons move moves ih =>
    intro leaf tail
    cases move with
    | append entry =>
      obtain ⟨hparent, hrest⟩ := List.forall_mem_cons.1 h
      obtain ⟨leaf', tail', hstep⟩ := step_append entries leaf tail hparent
      obtain ⟨last, end', hrun⟩ := ih (entries ++ [entry]) hrest leaf' tail'
      refine ⟨last, end', ?_⟩
      rw [List.foldl_cons, step, hstep, hrun]
      simp [Move.entry]
    | branch entryId =>
      rw [List.foldl_cons, step, branch]
      split_ifs
      · exact ih entries h leaf tail
      · exact ih entries h entryId tail
    | resetLeaf => exact ih entries h [] none

theorem foldl_step_moves : ∃ leaf tail,
    [.append (child "b" "a"), .resetLeaf, .branch "a", .append (child "c" "b")].foldl step (ofEntries [child "a" "a"]) =
      { ofEntries [child "a" "a", child "b" "a", child "c" "b"] with leafId := leaf, chainTail := tail } :=
  foldl_step [child "a" "a"] [.append (child "b" "a"), .resetLeaf, .branch "a", .append (child "c" "b")] (by decide)

end SessionTree

end CodingHarness.Agent
