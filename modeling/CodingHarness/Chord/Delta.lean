import CodingHarness.Chord.Utf16
import CodingHarness.Library.Vectors

/-!
# Chord delta operations

The seven delta operations, the path functions of `Delta.cpp` and the applier `applyImmutable`.
A path function of the source walks a path by offset and reports the whole path on failure; here it
recurses on the remaining path and carries the whole path for its messages.
-/

namespace CodingHarness.Chord

open Support

/-! ## Paths and operations -/

/-- An object key or an array index. -/
inductive PathSegment where
  | key (key : Bytes)
  | index (index : Nat)
  deriving DecidableEq

/-- A path to a place in a document. -/
abbrev Path := List PathSegment

/-- A delta operation. -/
inductive Op where
  | replace (value : Json)
  | set (path : Path) (value : Json)
  | delete (path : Path)
  | append (path : Path) (text : Bytes)
  | truncate (path : Path) (count : Nat)
  | splice (path : Path) (index remove : Nat) (items : List Json)
  | move (path : Path) (permutation : List Nat)
  deriving DecidableEq

/-- A batch of operations, applied in order. -/
abbrev OpBatch := List Op

/-- One segment as `path_to_string` prints it. -/
def segmentText : PathSegment → Bytes
  | .key key => ofString "\"" ++ key ++ ofString "\""
  | .index index => intText index

def pathToString (path : Path) : Bytes :=
  ofString "[" ++ (ofString ",").intercalate (path.map segmentText) ++ ofString "]"

/-- The error of a path that leads nowhere. -/
def pathError (path : Path) : Error := validationError (ofString "unresolvable path: " ++ pathToString path)

/-- The keys that no path may contain. -/
def isReservedSegment (key : Bytes) : Bool :=
  key == "__proto__" || key == "constructor" || key == "prototype"

def pathIsPrefix ( pre path : Path) : Bool := pre.isPrefixOf path

def validateSafePath : Path → Expected Unit
  | [] => .ok ()
  | .key key :: rest =>
    if isReservedSegment key then
      .error (validationError (ofString "unsafe path segment: " ++ key))
    else validateSafePath rest
  | .index _ :: rest => validateSafePath rest

/-- `validate_permutation`, with the indices seen so far. -/
def validatePermutationLoop (size : Nat) : List Nat → List Nat → Expected Unit
  | _, [] => .ok ()
  | seen, index :: rest =>
    if index ≥ size || seen.contains index then
      .error (validationError "m permutation is not a bijection")
    else validatePermutationLoop size (index :: seen) rest

def validatePermutation (permutation : List Nat) : Expected Unit :=
  validatePermutationLoop permutation.length [] permutation

def pathIsIdentityPermutation (permutation : List Nat) : Bool := permutation == List.range permutation.length

/-! ## Reading and writing at a path -/

/-- What a segment selects: a member by key, an item by index. -/
def child : PathSegment → Json → Option Json
  | .key key, .object members => JsonObject.find key members
  | .index index, .array items => items[index]?
  | _, _ => none

/-- The value at a path, if every segment selects something. -/
def tryGetPath (root : Json) : Path → Option Json
  | [] => some root
  | segment :: rest =>
    match child segment root with
    | none => none
    | some value => tryGetPath value rest

/-- `get_path`: the value at a path, or the error that names the path. -/
def getPath (root : Json) (path : Path) : Expected Json := match tryGetPath root path with
  | none => .error (pathError path)
  | some value => .ok value

/-- `set_path` from an offset; `whole` is the complete path. -/
def setPathFrom (whole : Path) (value : Json) : Path → Json → Expected Json
  | [], _ => .ok value
  | .key key :: rest, .object members =>
    if rest.isEmpty then .ok (.object (JsonObject.insertOrAssign key value members))
    else
      match JsonObject.find key members with
      | none => .error (pathError whole)
      | some current => do
          let updated ← setPathFrom whole value rest current
          return .object (JsonObject.insertOrAssign key updated members)
  | .index index :: rest, .array items =>
    if index > items.length then
      .error (validationError (ofString "unsafe path segment: " ++ intText index))
    else if rest.isEmpty then
      .ok (.array (if index = items.length then items ++ [value] else items.set index value))
    else
      match items[index]? with
      | none => .error (pathError whole)
      | some current => do
          let updated ← setPathFrom whole value rest current
          return .array (items.set index updated)
  | _ :: _, _ => .error (pathError whole)

/-- `set_path`: only the last segment may add, a member or the item at the end. -/
def setPath (root : Json) (path : Path) (value : Json) : Expected Json := setPathFrom path value path root

/-- `erase_path` from an offset, with its `changed` output. -/
def erasePathFrom (whole : Path) : Path → Json → Expected (Json × Bool)
  | [], _ => .error (pathError whole)
  | .key key :: rest, .object members =>
    match JsonObject.find key members with
    | none =>
      if rest.isEmpty then .ok (.object members, false) else .error (pathError whole)
    | some current =>
      if rest.isEmpty then .ok (.object (JsonObject.erase key members), true)
      else do
        let (updated, changed) ← erasePathFrom whole rest current
        return (.object (JsonObject.insertOrAssign key updated members), changed)
  | .index index :: rest, .array items =>
    match items[index]? with
    | none => .error (pathError whole)
    | some current =>
      if rest.isEmpty then .ok (.array (items.eraseIdx index), true)
      else do
        let (updated, changed) ← erasePathFrom whole rest current
        return (.array (items.set index updated), changed)
  | _ :: _, _ => .error (pathError whole)

/-- `erase_path`, and whether something was erased; a missing last member is no error. -/
def erasePath (root : Json) (path : Path) : Expected (Json × Bool) := erasePathFrom path path root

/-- The string at a path. -/
def getString (root : Json) (path : Path) : Expected Bytes := do
  match ← getPath root path with
  | .string text => .ok text
  | _ => .error (pathError path)

/-- The array at a path. -/
def getArray (root : Json) (path : Path) : Expected (List Json) := do
  match ← getPath root path with
  | .array items => .ok items
  | _ => .error (pathError path)

def appendStringPath (root : Json) (path : Path) (text : Bytes) : Expected Json := do
  let current ← getString root path
  setPath root path (.string (current ++ text))

def truncateStringPath (root : Json) (path : Path) (count : Nat) : Expected Json := do
  let current ← getString root path
  let truncated ← truncateFrontUtf16 current count
  setPath root path (.string truncated)

/-- `splice_path`: both positions are clamped to the array. -/
def splicePath (root : Json) (path : Path) (index remove : Nat) (items : List Json) : Expected Json := do
  let array ← getArray root path
  let effectiveIndex := min index array.length
  let effectiveRemove := min remove (array.length - effectiveIndex)
  setPath root path
    (.array (array.take effectiveIndex ++ items ++ array.drop (effectiveIndex + effectiveRemove)))

/-- The items a permutation selects, in its order. -/
def permuted (items : List Json) : List Nat → Expected (List Json)
  | [] => .ok []
  | index :: rest =>
    match items[index]? with
    | none => .error (validationError "m permutation is not a bijection")
    | some item => do
        let later ← permuted items rest
        return item :: later

/-- `move_path`: the permutation has the length of the array. -/
def movePath (root : Json) (path : Path) (permutation : List Nat) : Expected Json := do
  let array ← getArray root path
  if array.length ≠ permutation.length then .error (pathError path)
  else
    let updated ← permuted array permutation
    setPath root path (.array updated)

/-! ## Validation and application -/

/-- `validate_op`: the root can be replaced, spliced and moved, but not set or deleted. -/
def validateOp : Op → Expected Unit
  | .replace _ => .ok ()
  | .splice path _ _ _ => validateSafePath path
  | .move path permutation => do
      validateSafePath path
      validatePermutation permutation
  | .set path _ | .delete path | .append path _ | .truncate path _ =>
    if path.isEmpty then .error (validationError "path is empty")
    else validateSafePath path

def validateBatch : OpBatch → Expected Unit
  | [] => .ok ()
  | op :: rest => do
      validateOp op
      validateBatch rest

/-- One operation of the `apply_immutable` loop. -/
def applyOp (root : Json) : Op → Expected Json
  | .replace value => .ok value
  | .set path value => setPath root path value
  | .delete path => Prod.fst <$> erasePath root path
  | .append path text => appendStringPath root path text
  | .truncate path count => truncateStringPath root path count
  | .splice path index remove items => splicePath root path index remove items
  | .move path permutation => movePath root path permutation

/-- The loop of `apply_immutable`. -/
def applyOps : Json → OpBatch → Expected Json
  | root, [] => .ok root
  | root, op :: rest => do
      let updated ← applyOp root op
      applyOps updated rest

/-- `apply_immutable`: the whole batch is validated before any operation runs. -/
def applyImmutable (target : Json) (ops : OpBatch) : Expected Json := do
  validateBatch ops
  applyOps target ops

/-- The batches in order, each validated as a whole. -/
def applyImmutableBatches : Json → List OpBatch → Expected Json
  | root, [] => .ok root
  | root, batch :: rest => do
      let updated ← applyImmutable root batch
      applyImmutableBatches updated rest

/-! ## String deltas -/

/-- `kMaxOverlapScan`. -/
def maxOverlapScan : Nat := 65536
/-- `kOverlapProbe`. -/
def overlapProbe : Nat := 64
/-- `kMaxOverlapCandidates`. -/
def maxOverlapCandidates : Nat := 8

/-- `emit_string_change`: the operations that turn `before` into `after`. -/
def emitStringChange (before after : Bytes) (path : Path) : OpBatch :=
  if before.isPrefixOf after then [.append path (after.drop before.length)]
  else
    match decodeUtf8 before, decodeUtf8 after with
    | some beforeUnits, some afterUnits =>
      let shared := overlapUnits beforeUnits afterUnits maxOverlapScan overlapProbe
        maxOverlapCandidates
      let boundary := beforeUnits.length - shared
      if shared = 0 then [.set path (.string after)]
      else if boundary ≠ 0 && boundary < beforeUnits.length && (beforeUnits[boundary - 1]?.any isHighSurrogate) &&
          (beforeUnits[boundary]?.any isLowSurrogate) then
        [.set path (.string after)]
      else
        match encodeUtf8 (afterUnits.drop shared) with
        | none => [.set path (.string after)]
        | some suffix =>
          .truncate path boundary :: if suffix.isEmpty then [] else [.append path suffix]
    | _, _ => [.set path (.string after)]

attribute [grind =] child tryGetPath setPathFrom erasePathFrom applyOp

end CodingHarness.Chord
