import CodingHarness.Support.Json

/-!
# Ignore globs

The glob parser and the token matcher of `durable/GitIgnore.cpp`, and the language of a token list.
The parser puts the token for a trailing `/**` only at the end of a list; the matcher relies on it.
-/

namespace CodingHarness.Durable.GitIgnore

open Support List

/-- `Token`: what a glob is made of. -/
inductive Token
  | literal (byte : UInt8)
  | anyByte
  | star
  | byteClass (negated : Bool) (ranges : List (UInt8 × UInt8))
  | recursivePrefix
  | recursiveSuffix
  | recursiveZeroOrMore
  | alternates (branches : List (List Token))

/-! ## The parser -/

/-- `GlobParser`. `rest` is `chars_` from `pos_` on and `last` the byte before it; the vectors
`alternatesStack` and `branches`, and each branch, are kept with their back first. -/
structure GlobParser where
  rest : Bytes
  last : Option UInt8
  prev : Option UInt8
  foundUnclosedClass : Bool
  alternatesStack : List Nat
  branches : List (List Token)

/-- What the loop of `parse_class` ends in. -/
inductive ClassEnd
  | unclosed
  | invalid
  | closed (ranges : List (UInt8 × UInt8)) (rest : Bytes) (last : Option UInt8)

/-- The new upper end of the last range, unless it lies below the lower one. -/
def setHigh (high : UInt8) : List (UInt8 × UInt8) → Option (List (UInt8 × UInt8))
  | [] => none
  | range :: ranges => if high < range.1 then none else some ((range.1, high) :: ranges)

/-- The loop of `parse_class`. -/
def parseRanges : Bytes → Option UInt8 → List (UInt8 × UInt8) → (first inRange : Bool) → ClassEnd
  | [], _, _, _, _ => .unclosed
  | c :: rest, last, ranges, first, inRange =>
    if c = 0x5D then
      if first then parseRanges rest (some c) ((c, c) :: ranges) false inRange
      else .closed (if inRange then (0x2D, 0x2D) :: ranges else ranges) rest last
    else if c = 0x2D ∧ first then parseRanges rest (some c) ((c, c) :: ranges) false inRange
    else if inRange then
      match setHigh c ranges with
      | none => .invalid
      | some ranges => parseRanges rest (some c) ranges false false
    else if c = 0x2D then parseRanges rest (some c) ranges false true
    else parseRanges rest (some c) ((c, c) :: ranges) false false

namespace GlobParser

def bump (p : GlobParser) : Option (UInt8 × GlobParser) := match p.rest with
  | [] => none
  | c :: rest => some (c, { p with rest := rest, last := some c, prev := p.last })

/-- The parser after a `bump` whose byte is not used. -/
def bumped (p : GlobParser) : GlobParser := (p.bump.map (·.2)).getD p

def push (p : GlobParser) (token : Token) : GlobParser := match p.branches with
  | [] => p
  | branch :: outer => { p with branches := (token :: branch) :: outer }

def popAlternate (p : GlobParser) : Option GlobParser := match p.alternatesStack with
  | [] => none
  | start :: stack =>
    let count := p.branches.length - start
    some (push { p with alternatesStack := stack, branches := p.branches.drop count }
      (.alternates ((p.branches.take count).reverse.map reverse)))

/-- The end of `parse_star`: the recursive token replaces the token before it, unless that is itself
recursive. -/
def replaceLast (p : GlobParser) (token : Token) : GlobParser := match p.branches with
  | (.recursivePrefix :: _) :: _ => p
  | (.recursiveSuffix :: _) :: _ => p
  | (_ :: branch) :: outer => { p with branches := (token :: branch) :: outer }
  | _ => p

/-- `parse_star`, after the bump of the first star. -/
def parseStar (p : GlobParser) : GlobParser := let entryPrev := p.prev
  if p.rest.head? ≠ some 0x2A then p.push .star
  else
    let p := p.bumped
    let twoStars := (p.push .star).push .star
    if (p.branches.head?.getD []).isEmpty then
      match p.rest.head? with
      | none => p.push .recursivePrefix
      | some after => if after ≠ 0x2F then twoStars else (p.push .recursivePrefix).bumped
    else if entryPrev ≠ some 0x2F ∧
        (p.branches.length ≤ 1 ∨ (entryPrev ≠ some 0x2C ∧ entryPrev ≠ some 0x7B)) then twoStars
    else
      match p.rest.head? with
      | none => p.replaceLast .recursiveSuffix
      | some after =>
        if (after = 0x2C ∨ after = 0x7D) ∧ 2 ≤ p.branches.length then p.replaceLast .recursiveSuffix
        else if after = 0x2F then p.bumped.replaceLast .recursiveZeroOrMore
        else twoStars

/-- `parse_class`, after the bump of the bracket. -/
def parseClass (p : GlobParser) : Option GlobParser :=
  let negated := p.rest.head? = some 0x21 ∨ p.rest.head? = some 0x5E
  let q := if negated then p.bumped else p
  match parseRanges q.rest q.last [] true false with
  | .unclosed => some ({ p with foundUnclosedClass := true }.push (.literal 0x5B))
  | .invalid => none
  | .closed ranges rest last =>
    some ({ p with rest := rest, last := some 0x5D, prev := last }.push
      (.byteClass negated ranges.reverse))

/-- One round of the loop of `parse`, after the bump of `c`. -/
def parseByte (p : GlobParser) (c : UInt8) : Option GlobParser := if c = 0x3F then some (p.push .anyByte)
  else if c = 0x2A then some p.parseStar
  else if c = 0x5B ∧ ¬p.foundUnclosedClass then p.parseClass
  else if c = 0x7B then
    some { p with alternatesStack := p.branches.length :: p.alternatesStack, branches := [] :: p.branches }
  else if c = 0x7D then p.popAlternate
  else if c = 0x2C then
    if p.alternatesStack = [] then some (p.push (.literal c)) else some { p with branches := [] :: p.branches }
  else if c = 0x5C then p.bump.map fun escaped => escaped.2.push (.literal escaped.1)
  else some (p.push (.literal c))

/-- `parse`. Every round consumes a byte. -/
def parse : Nat → GlobParser → Option (List Token)
  | 0, _ => none
  | fuel + 1, p =>
    match p.bump with
    | none =>
      match p.alternatesStack, p.branches with
      | [], [branch] => some branch.reverse
      | _, _ => none
    | some (c, p) => (p.parseByte c).bind (parse fuel)

end GlobParser

def parseGlob (glob : Bytes) : Option (List Token) :=
  GlobParser.parse (glob.length + 1) ⟨glob, none, none, false, [], [[]]⟩

/-! ## The matcher -/

def inClass (negated : Bool) (ranges : List (UInt8 × UInt8)) (byte : UInt8) : Bool :=
  (ranges.any fun range => range.1 ≤ byte && byte ≤ range.2) != negated

/-- The places a star may end at, the farthest first: the path from each of them on. -/
def starEnds : Bytes → List Bytes
  | [] => [[]]
  | c :: path => if c = 0x2F then [c :: path] else starEnds path ++ [c :: path]

def afterSlashes : Bytes → List Bytes
  | [] => []
  | c :: path => if c = 0x2F then path :: afterSlashes path else afterSlashes path

/-- `match_branch`. `rest` is the call of `match_from` at the end of the branch. -/
def matchBranch (rest : Bytes → Bool) : List Token → Bytes → Bool
  | [], path => rest path
  | .literal byte :: branch, c :: path => c = byte && matchBranch rest branch path
  | .anyByte :: branch, c :: path => c ≠ 0x2F && matchBranch rest branch path
  | .star :: branch, path => (starEnds path).any (matchBranch rest branch)
  | .byteClass negated ranges :: branch, c :: path => inClass negated ranges c && matchBranch rest branch path
  | _, _ => false

def matchFrom : List Token → Bytes → Bool
  | [], path => path.isEmpty
  | .literal byte :: tokens, c :: path => c = byte && matchFrom tokens path
  | .anyByte :: tokens, c :: path => c ≠ 0x2F && matchFrom tokens path
  | .star :: tokens, path => (starEnds path).any (matchFrom tokens)
  | .byteClass negated ranges :: tokens, c :: path => inClass negated ranges c && matchFrom tokens path
  | .recursivePrefix :: tokens, path => matchFrom tokens path || (afterSlashes path).any (matchFrom tokens)
  | .recursiveSuffix :: tokens, c :: _ => c = 0x2F && matchFrom tokens []
  | .recursiveZeroOrMore :: tokens, c :: path =>
    c = 0x2F && (matchFrom tokens path || (afterSlashes path).any (matchFrom tokens))
  | .alternates branches :: tokens, path => branches.any fun branch => matchBranch (matchFrom tokens) branch path
  | _, _ => false

/-- `TokenMatcher::match`. -/
def matchTokens (tokens : List Token) (path : Bytes) : Bool := match tokens with
  | [.recursivePrefix] => true
  | _ => matchFrom tokens path

/-! ## The language of a token list -/

mutual
/-- The texts of one token. -/
inductive Token.Matches : Token → Bytes → Prop
  | literal (byte : UInt8) : Token.Matches (.literal byte) [byte]
  | anyByte {byte : UInt8} (h : byte ≠ 0x2F) : Token.Matches .anyByte [byte]
  | star {run : Bytes} (h : 0x2F ∉ run) : Token.Matches .star run
  | byteClass {negated : Bool} {ranges : List (UInt8 × UInt8)} {byte : UInt8}
      (h : (∃ range ∈ ranges, range.1 ≤ byte ∧ byte ≤ range.2) ↔ negated = false) :
      Token.Matches (.byteClass negated ranges) [byte]
  | noPrefix : Token.Matches .recursivePrefix []
  | somePrefix (text : Bytes) : Token.Matches .recursivePrefix (text ++ [0x2F])
  | suffix (text : Bytes) : Token.Matches .recursiveSuffix (0x2F :: text)
  | zero : Token.Matches .recursiveZeroOrMore [0x2F]
  | more (text : Bytes) : Token.Matches .recursiveZeroOrMore (0x2F :: (text ++ [0x2F]))
  | alternates {branches : List (List Token)} {branch : List Token} {text : Bytes} (h : branch ∈ branches)
      (htext : Language branch text) : Token.Matches (.alternates branches) text

/-- The texts of a token list. -/
inductive Language : List Token → Bytes → Prop
  | nil : Language [] []
  | cons {token : Token} {tokens : List Token} {front back : Bytes} (h : Token.Matches token front)
      (hrest : Language tokens back) : Language (token :: tokens) (front ++ back)
end

/-- The tokens that may stand in a branch. -/
def Token.simple : Token → Bool
  | .literal _ | .anyByte | .star | .byteClass _ _ => true
  | _ => false

/-- Every branch of an alternation is made of simple tokens. -/
def Token.flat : Token → Bool
  | .alternates branches => branches.all (·.all Token.simple)
  | _ => true

/-- The trailing token stands only at the end. -/
def SuffixLast : List Token → Prop
  | [] => True
  | token :: tokens => (token = .recursiveSuffix → tokens = []) ∧ SuffixLast tokens

/-! ## The matcher decides the language -/

/-- The places the matcher goes on from after one token other than an alternation. -/
def Token.ends : Token → Bytes → List Bytes
  | .literal byte, c :: path => if c = byte then [path] else []
  | .anyByte, c :: path => if c ≠ 0x2F then [path] else []
  | .star, path => starEnds path
  | .byteClass negated ranges, c :: path => if inClass negated ranges c then [path] else []
  | .recursivePrefix, path => path :: afterSlashes path
  | .recursiveSuffix, c :: _ => if c = 0x2F then [[]] else []
  | .recursiveZeroOrMore, c :: path => if c = 0x2F then path :: afterSlashes path else []
  | _, _ => []

theorem any_guard {condition : Prop} [Decidable condition] (ends : List Bytes) (next : Bytes → Bool) :
    (if condition then ends else []).any next = (decide condition && ends.any next) := by
  split
  · next h => rw [decide_eq_true h, Bool.true_and]
  · next h => rw [decide_eq_false h, Bool.false_and, any_nil]

variable {token : Token}

theorem matchFrom_cons (h : ∀ branches, token ≠ .alternates branches) (tokens : List Token)
    (path : Bytes) : matchFrom (token :: tokens) path = (token.ends path).any (matchFrom tokens) := by
  cases token with
  | alternates branches => exact absurd rfl (h branches)
  | star => rfl
  | recursivePrefix => rfl
  | _ =>
    cases path with
    | nil => rfl
    | cons c path => simp only [matchFrom, Token.ends, any_guard, any_cons, any_nil, Bool.or_false, Bool.decide_eq_true]

theorem matchBranch_cons (h : token.simple) (rest : Bytes → Bool) (branch : List Token)
    (path : Bytes) : matchBranch rest (token :: branch) path = (token.ends path).any (matchBranch rest branch) := by
  cases token with
  | star => rfl
  | recursivePrefix | recursiveSuffix | recursiveZeroOrMore | alternates => cases h
  | _ =>
    cases path with
    | nil => rfl
    | cons c path =>
      simp only [matchBranch, Token.ends, any_guard, any_cons, any_nil, Bool.or_false, Bool.decide_eq_true]

theorem mem_starEnds {path back : Bytes} : back ∈ starEnds path ↔ ∃ front, path = front ++ back ∧ 0x2F ∉ front := by
  induction path with
  | nil => simp [starEnds, append_eq_nil_iff]
  | cons c path ih =>
    rw [starEnds]
    split
    · next hslash =>
      rw [mem_singleton]
      constructor
      · rintro rfl
        exact ⟨[], rfl, not_mem_nil⟩
      rintro ⟨front, heq, hfront⟩
      cases front with
      | nil => exact heq.symm
      | cons d front =>
        rw [cons_append, cons.injEq] at heq
        exact absurd (mem_cons.2 (.inl (hslash.symm.trans heq.1))) hfront
    next hslash =>
    rw [mem_append, ih, mem_singleton]
    constructor
    · rintro (⟨front, rfl, hfront⟩ | rfl)
      · exact ⟨c :: front, rfl, by simp [hfront, Ne.symm hslash]⟩
      · exact ⟨[], rfl, not_mem_nil⟩
    rintro ⟨front, heq, hfront⟩
    cases front with
    | nil => exact .inr heq.symm
    | cons d front =>
      rw [cons_append, cons.injEq] at heq
      exact .inl ⟨front, heq.2, fun h => hfront (mem_cons_of_mem _ h)⟩

theorem mem_afterSlashes {path back : Bytes} : back ∈ afterSlashes path ↔ ∃ front, path = front ++ 0x2F :: back := by
  induction path with
  | nil => simp [afterSlashes]
  | cons c path ih =>
    rw [afterSlashes]
    split
    · next hslash =>
      rw [mem_cons, ih]
      constructor
      · rintro (rfl | ⟨front, rfl⟩)
        · exact ⟨[], hslash ▸ rfl⟩
        · exact ⟨c :: front, rfl⟩
      rintro ⟨front, heq⟩
      cases front with
      | nil => exact .inl (cons.inj heq).2.symm
      | cons d front => exact .inr ⟨front, (cons.inj heq).2⟩
    next hslash =>
    rw [ih]
    constructor
    · rintro ⟨front, rfl⟩
      exact ⟨c :: front, rfl⟩
    rintro ⟨front, heq⟩
    cases front with
    | nil => exact absurd (cons.inj heq).1 hslash
    | cons d front => exact ⟨front, (cons.inj heq).2⟩

theorem inClass_iff {negated : Bool} {ranges : List (UInt8 × UInt8)} {byte : UInt8} :
    inClass negated ranges byte ↔ ((∃ range ∈ ranges, range.1 ≤ byte ∧ byte ≤ range.2) ↔ negated = false) := by
  rw [inClass, bne_iff_ne, ne_eq, Bool.eq_iff_iff, any_eq_true]
  cases negated <;> simp

theorem Token.matches_of_mem_ends {path back : Bytes} (h : back ∈ token.ends path) :
    ∃ front, path = front ++ back ∧ token.Matches front := by
  cases token with
  | alternates branches => cases h
  | star =>
    obtain ⟨front, heq, hfront⟩ := mem_starEnds.1 h
    exact ⟨front, heq, .star hfront⟩
  | recursivePrefix =>
    obtain rfl | h := mem_cons.1 h
    · exact ⟨[], rfl, .noPrefix⟩
    · obtain ⟨front, rfl⟩ := mem_afterSlashes.1 h
      exact ⟨front ++ [0x2F], by simp, .somePrefix front⟩
  | literal byte =>
    cases path with
    | nil => cases h
    | cons c path =>
      obtain ⟨hc, h⟩ := mem_ite_nil_right.1 h
      obtain rfl := mem_singleton.1 h
      exact ⟨[c], rfl, hc ▸ .literal byte⟩
  | anyByte =>
    cases path with
    | nil => cases h
    | cons c path =>
      obtain ⟨hc, h⟩ := mem_ite_nil_right.1 h
      obtain rfl := mem_singleton.1 h
      exact ⟨[c], rfl, .anyByte hc⟩
  | byteClass negated ranges =>
    cases path with
    | nil => cases h
    | cons c path =>
      obtain ⟨hc, h⟩ := mem_ite_nil_right.1 h
      obtain rfl := mem_singleton.1 h
      exact ⟨[c], rfl, .byteClass (inClass_iff.1 hc)⟩
  | recursiveSuffix =>
    cases path with
    | nil => cases h
    | cons c path =>
      obtain ⟨rfl, h⟩ := mem_ite_nil_right.1 h
      obtain rfl := mem_singleton.1 h
      exact ⟨0x2F :: path, by simp, .suffix path⟩
  | recursiveZeroOrMore =>
    cases path with
    | nil => cases h
    | cons c path =>
      obtain ⟨rfl, h⟩ := mem_ite_nil_right.1 h
      obtain rfl | h := mem_cons.1 h
      · exact ⟨[0x2F], rfl, .zero⟩
      · obtain ⟨front, rfl⟩ := mem_afterSlashes.1 h
        exact ⟨0x2F :: (front ++ [0x2F]), by simp, .more front⟩

/-- After a text of a token the matcher goes on, after the trailing one at the end of the path only. -/
theorem Token.mem_ends_of_matches {front : Bytes} (h : token.Matches front)
    (hother : ∀ branches, token ≠ .alternates branches) (back : Bytes)
    (hback : token = .recursiveSuffix → back = []) : back ∈ token.ends (front ++ back) := by
  cases h with
  | literal byte => simp [Token.ends]
  | anyByte h => simp [Token.ends, h]
  | star h => exact mem_starEnds.2 ⟨_, rfl, h⟩
  | byteClass h => simp [Token.ends, inClass_iff.2 h]
  | noPrefix => exact mem_cons_self
  | somePrefix text => exact mem_cons_of_mem _ (mem_afterSlashes.2 ⟨text, by simp⟩)
  | suffix text =>
    rw [hback rfl]
    simp [Token.ends]
  | zero => simp [Token.ends]
  | more text => simp [Token.ends, mem_afterSlashes]
  | alternates h htext => exact absurd rfl (hother _)

theorem Token.simple_ne (h : token.simple) :
    (∀ branches, token ≠ .alternates branches) ∧ token ≠ .recursiveSuffix :=
  ⟨fun _ heq => (by rw [heq] at h; cases h), fun heq => by rw [heq] at h; cases h⟩

/-- A match of a branch is a text of the branch before a match of the rest. -/
theorem matchBranch_sound {rest : Bytes → Bool} {branch : List Token} {path : Bytes}
    (h : matchBranch rest branch path) : ∃ front back, path = front ++ back ∧ Language branch front ∧ rest back := by
  induction branch generalizing path with
  | nil => exact ⟨[], path, rfl, .nil, h⟩
  | cons token branch ih =>
    by_cases hsimple : token.simple
    · rw [matchBranch_cons hsimple, any_eq_true] at h
      obtain ⟨path, hmem, h⟩ := h
      obtain ⟨text, rfl, htext⟩ := Token.matches_of_mem_ends hmem
      obtain ⟨front, back, rfl, hfront, hback⟩ := ih h
      exact ⟨text ++ front, back, (append_assoc ..).symm, .cons htext hfront, hback⟩
    · cases token <;> first | exact absurd rfl hsimple | cases h

theorem matchBranch_complete {rest : Bytes → Bool} {branch : List Token} {front back : Bytes}
    (hsimple : branch.all Token.simple) (hfront : Language branch front) (hback : rest back) :
    matchBranch rest branch (front ++ back) := by
  induction branch generalizing front with
  | nil =>
    cases hfront
    exact hback
  | cons token branch ih =>
    obtain ⟨htoken, hbranch⟩ := Bool.and_eq_true_iff.1 hsimple
    cases hfront with
    | cons h hrest =>
      obtain ⟨hother, hsuffix⟩ := Token.simple_ne htoken
      rw [matchBranch_cons htoken, any_eq_true, append_assoc]
      exact ⟨_, Token.mem_ends_of_matches h hother _ fun h => absurd h hsuffix, ih hbranch hrest⟩

theorem matchFrom_sound {tokens : List Token} {path : Bytes} (hlast : SuffixLast tokens)
    (h : matchFrom tokens path) : Language tokens path := by
  induction tokens generalizing path with
  | nil =>
    obtain rfl := isEmpty_iff.1 h
    exact .nil
  | cons token tokens ih =>
    by_cases hother : ∀ branches, token ≠ .alternates branches
    · rw [matchFrom_cons hother, any_eq_true] at h
      obtain ⟨path, hmem, h⟩ := h
      obtain ⟨text, rfl, htext⟩ := Token.matches_of_mem_ends hmem
      exact .cons htext (ih hlast.2 h)
    push Not at hother
    obtain ⟨branches, rfl⟩ := hother
    obtain ⟨branch, hmem, h⟩ := any_eq_true.1 h
    obtain ⟨front, back, rfl, hfront, hback⟩ := matchBranch_sound h
    exact .cons (.alternates hmem hfront) (ih hlast.2 hback)

theorem matchFrom_complete {tokens : List Token} {path : Bytes} (hlast : SuffixLast tokens)
    (hflat : tokens.all Token.flat) (h : Language tokens path) : matchFrom tokens path := by
  induction tokens generalizing path with
  | nil =>
    cases h
    rfl
  | cons token tokens ih =>
    obtain ⟨htoken, hflat⟩ := Bool.and_eq_true_iff.1 hflat
    cases h with
    | cons h hrest =>
      have hmatch := ih hlast.2 hflat hrest
      by_cases hother : ∀ branches, token ≠ .alternates branches
      · rw [matchFrom_cons hother, any_eq_true]
        refine ⟨_, Token.mem_ends_of_matches h hother _ fun hsuffix => ?_, hmatch⟩
        rw [hlast.1 hsuffix] at hrest
        cases hrest
        rfl
      push Not at hother
      obtain ⟨branches, rfl⟩ := hother
      cases h with
      | alternates hmem htext =>
        refine any_eq_true.2 ⟨_, hmem, matchBranch_complete ?_ htext hmatch⟩
        exact all_eq_true.1 htoken _ hmem

/-! ## Where the parser puts the trailing token -/

/-- A branch without the trailing token. -/
def NoSuffix (branch : List Token) : Prop := Token.recursiveSuffix ∉ branch

/-- The open alternations: each starts where the stack says, after a branch without a trailing token. -/
def Levels : List Nat → List (List Token) → Prop
  | [], branches => ∃ root, branches = [root]
  | start :: stack, branches => ∃ inner branch outer, branches = inner ++ branch :: outer ∧ inner ≠ [] ∧
      start = outer.length + 1 ∧ NoSuffix branch ∧ Levels stack (branch :: outer)

theorem Levels.change {stack : List Nat} {branch other : List Token} {outer : List (List Token)}
    (h : Levels stack (branch :: outer)) : Levels stack (other :: outer) := by
  cases stack with
  | nil =>
    obtain ⟨root, heq⟩ := h
    obtain rfl := (cons.inj heq).2
    exact ⟨other, rfl⟩
  | cons start stack =>
    obtain ⟨inner, branch, outer, heq, hne, rest⟩ := h
    cases inner with
    | nil => exact absurd rfl hne
    | cons first inner =>
      obtain ⟨-, rfl⟩ := cons.inj heq
      exact ⟨other :: inner, branch, outer, rfl, cons_ne_nil _ _, rest⟩

theorem Levels.more {stack : List Nat} {branches : List (List Token)} (h : Levels stack branches)
    (hne : stack ≠ []) : Levels stack ([] :: branches) := by
  cases stack with
  | nil => exact absurd rfl hne
  | cons start stack =>
    obtain ⟨inner, branch, outer, rfl, -, rest⟩ := h
    exact ⟨[] :: inner, branch, outer, rfl, cons_ne_nil _ _, rest⟩

namespace GlobParser

/-- At most `limit` bytes remain, and another token may be added to the current branch. -/
def Open (limit : Nat) (p : GlobParser) : Prop := p.rest.length ≤ limit ∧ Levels p.alternatesStack p.branches ∧
    ∃ branch outer, p.branches = branch :: outer ∧ NoSuffix branch

/-- The text ends here, or the branch does. -/
def Closing (p : GlobParser) : Prop :=
  p.rest = [] ∨ p.alternatesStack ≠ [] ∧ (p.rest.head? = some 0x2C ∨ p.rest.head? = some 0x7D)

/-- At most `limit` bytes remain, and the trailing token ends the current branch, if it is there. -/
def Sound (limit : Nat) (p : GlobParser) : Prop := p.rest.length ≤ limit ∧ Levels p.alternatesStack p.branches ∧
    ∃ branch outer, p.branches = branch :: outer ∧ NoSuffix branch.tail ∧ (NoSuffix branch ∨ p.Closing)

variable {limit : Nat} {p q : GlobParser}

theorem Open.sound (h : p.Open limit) : p.Sound limit := by
  obtain ⟨hrest, hlevels, branch, outer, heq, hnone⟩ := h
  exact ⟨hrest, hlevels, branch, outer, heq, fun hmem => hnone (mem_of_mem_tail hmem), .inl hnone⟩

theorem Open.push (h : p.Open limit) (token : Token) (hne : token ≠ .recursiveSuffix) :
    (p.push token).Open limit := by
  obtain ⟨hrest, hlevels, branch, outer, heq, hnone⟩ := h
  rw [heq] at hlevels
  simp only [GlobParser.push, heq]
  exact ⟨hrest, hlevels.change, _, _, rfl, fun hmem => (mem_cons.1 hmem).elim (fun h => hne h.symm) hnone⟩

theorem Open.read (h : p.Open limit) (hbranches : q.branches = p.branches)
    (hstack : q.alternatesStack = p.alternatesStack) (hrest : q.rest.length ≤ limit) : q.Open limit := by
  refine ⟨hrest, ?_⟩
  rw [hbranches, hstack]
  exact h.2

theorem bump_eq {c : UInt8} (h : p.bump = some (c, q)) :
    p.rest = c :: q.rest ∧ q.branches = p.branches ∧ q.alternatesStack = p.alternatesStack := by
  rw [bump] at h
  split at h
  · cases h
  next hrest =>
  cases h
  exact ⟨hrest, rfl, rfl⟩

theorem Open.bumped (h : p.Open limit) : p.bumped.Open limit := by
  rw [GlobParser.bumped]
  cases hbump : p.bump with
  | none => exact h
  | some next =>
    obtain ⟨hrest, hbranches, hstack⟩ := bump_eq hbump
    have hlen := h.1
    rw [hrest, length_cons] at hlen
    exact h.read hbranches hstack ((Nat.le_succ _).trans hlen)

theorem Open.popAlternate (hrest : p.rest.length ≤ limit) (hlevels : Levels p.alternatesStack p.branches)
    (h : p.popAlternate = some q) : q.Open limit := by
  rw [GlobParser.popAlternate] at h
  split at h
  · cases h
  next start stack hstack =>
  cases h
  rw [hstack] at hlevels
  obtain ⟨inner, branch, outer, heq, -, rfl, hnone, hlevels⟩ := hlevels
  have hdrop : p.branches.drop (p.branches.length - (outer.length + 1)) = branch :: outer := by
    rw [heq, length_append, length_cons, Nat.add_sub_cancel, drop_left]
  refine Open.push ?_ _ nofun
  exact ⟨hrest, by rwa [hdrop], branch, outer, hdrop, hnone⟩

/-- What replaces the separator before `**`. -/
theorem Open.replaceLast (h : p.Open limit) (token : Token)
    (hclosing : token = .recursiveSuffix → p.Closing) : (p.replaceLast token).Sound limit := by
  obtain ⟨hrest, hlevels, branch, outer, heq, hnone⟩ := id h
  rw [GlobParser.replaceLast]
  split
  · exact h.sound
  · exact h.sound
  · next previous branch outer _ _ heq' =>
    rw [heq'] at heq hlevels
    obtain ⟨rfl, rfl⟩ := cons.inj heq
    have htail : NoSuffix branch := fun hmem => hnone (mem_cons_of_mem _ hmem)
    refine ⟨hrest, hlevels.change, _, _, rfl, htail, ?_⟩
    by_cases hsuffix : token = .recursiveSuffix
    · exact .inr (hclosing hsuffix)
    · exact .inl fun hmem => (mem_cons.1 hmem).elim (fun h => hsuffix h.symm) htail
  · exact h.sound

theorem Open.parseStar (h : p.Open limit) : p.parseStar.Sound limit := by
  have htwo := ((h.bumped.push .star nofun).push .star nofun).sound
  simp only [GlobParser.parseStar]
  split
  · exact (h.push .star nofun).sound
  split
  · split
    · exact (h.bumped.push .recursivePrefix nofun).sound
    · split
      · exact htwo
      · exact (h.bumped.push .recursivePrefix nofun).bumped.sound
  split
  · exact htwo
  split
  · next hend => exact h.bumped.replaceLast _ fun _ => .inl (head?_eq_none_iff.1 hend)
  next after hafter =>
  split
  · next hclose =>
    refine h.bumped.replaceLast _ fun _ => .inr ⟨fun hstack => ?_, ?_⟩
    · obtain ⟨-, hlevels, -⟩ := h.bumped
      rw [hstack] at hlevels
      obtain ⟨root, hroot⟩ := hlevels
      have hlen := hclose.2
      rw [hroot] at hlen
      exact absurd hlen (by simp)
    · rw [hafter]
      exact hclose.1.imp (congrArg some) (congrArg some)
  split
  · exact h.bumped.bumped.replaceLast _ nofun
  · exact htwo

theorem parseRanges_rest {bytes rest : Bytes} {last before : Option UInt8} {ranges closed : List (UInt8 × UInt8)}
    {first inRange : Bool} (h : parseRanges bytes last ranges first inRange = .closed closed rest before) :
    rest.length ≤ bytes.length := by
  fun_induction parseRanges bytes last ranges first inRange with
  | case1 => cases h
  | case3 =>
    cases h
    exact Nat.le_succ _
  | case5 => cases h
  | case2 | case4 | case6 | case7 | case8 =>
    rename_i ih
    exact (ih h).trans (Nat.le_succ _)

theorem Open.parseClass (h : p.Open limit) (hparse : p.parseClass = some q) : q.Open limit := by
  have hrest : (if p.rest.head? = some 0x21 ∨ p.rest.head? = some 0x5E then p.bumped else p).rest.length ≤ limit := by
    split
    · exact h.bumped.1
    · exact h.1
  simp only [GlobParser.parseClass] at hparse
  split at hparse
  · cases hparse
    refine Open.push ?_ _ nofun
    exact h.read rfl rfl h.1
  · cases hparse
  · next hclosed =>
    cases hparse
    refine Open.push ?_ _ nofun
    exact h.read rfl rfl ((parseRanges_rest hclosed).trans (by simpa using hrest))

theorem Open.parseByte {c : UInt8} (h : p.Open limit) (hparse : p.parseByte c = some q) : q.Sound limit := by
  obtain ⟨hrest, hlevels, branch, outer, heq, hnone⟩ := id h
  rw [GlobParser.parseByte] at hparse
  split at hparse
  · cases hparse
    exact (h.push .anyByte nofun).sound
  split at hparse
  · cases hparse
    exact h.parseStar
  split at hparse
  · exact (h.parseClass hparse).sound
  split at hparse
  · cases hparse
    refine Open.sound ⟨hrest, ⟨[[]], branch, outer, ?_, nofun, ?_, hnone, ?_⟩, [], p.branches, rfl, not_mem_nil⟩
    · rw [heq, singleton_append]
    · rw [heq, length_cons]
    · rwa [heq] at hlevels
  split at hparse
  · exact (Open.popAlternate hrest hlevels hparse).sound
  split at hparse
  · split at hparse
    · cases hparse
      exact (h.push (.literal c) nofun).sound
    · next hstack =>
      cases hparse
      exact Open.sound ⟨hrest, hlevels.more hstack, [], p.branches, rfl, not_mem_nil⟩
  split at hparse
  · obtain ⟨⟨escaped, rest⟩, hbump, rfl⟩ := Option.map_eq_some_iff.1 hparse
    obtain ⟨heq, hbranches, hstack⟩ := bump_eq hbump
    rw [heq, length_cons] at hrest
    exact ((h.read hbranches hstack (by omega)).push (.literal escaped) nofun).sound
  · cases hparse
    exact (h.push (.literal c) nofun).sound

/-- A round consumes a byte and keeps the trailing token at the end of its branch. -/
theorem Sound.round {next : GlobParser} {c : UInt8} (h : p.Sound limit) (hbump : p.bump = some (c, q))
    (hparse : q.parseByte c = some next) : next.Sound (limit - 1) := by
  obtain ⟨hlen, hlevels, branch, outer, heq, -, hend⟩ := h
  obtain ⟨hrest, hbranches, hstack⟩ := bump_eq hbump
  rw [← hbranches, ← hstack] at hlevels
  rw [hrest, length_cons] at hlen
  replace hlen := Nat.le_sub_one_of_lt hlen
  obtain hnone | hclosing | ⟨hne, hclose⟩ := hend
  · exact Open.parseByte ⟨hlen, hlevels, branch, outer, hbranches.trans heq, hnone⟩ hparse
  · rw [hclosing] at hrest
    cases hrest
  · rw [← hstack] at hne
    rw [hrest, head?_cons, Option.some.injEq, Option.some.injEq] at hclose
    obtain rfl | rfl := hclose
    · have hcomma : q.parseByte 0x2C = some { q with branches := [] :: q.branches } := if_neg hne
      cases hparse.symm.trans hcomma
      exact Open.sound ⟨hlen, hlevels.more hne, [], q.branches, rfl, not_mem_nil⟩
    · exact (Open.popAlternate hlen hlevels hparse).sound

theorem Sound.parse_fuel {fuel : Nat} (h : p.Sound limit) (hfuel : limit < fuel) (more : Nat) :
    p.parse (fuel + more) = p.parse fuel := by
  induction fuel generalizing p limit with
  | zero => exact absurd hfuel (Nat.not_lt_zero _)
  | succ fuel ih =>
    rw [Nat.add_right_comm, GlobParser.parse, GlobParser.parse]
    cases hbump : p.bump with
    | none => rfl
    | some read =>
      have hlen := h.1
      rw [(bump_eq hbump).1, length_cons] at hlen
      refine Option.bind_congr fun next hnext => ih (h.round hbump hnext) ?_
      omega

theorem suffixLast_append {tokens : List Token} (hnone : NoSuffix tokens) (last : Token) :
    SuffixLast (tokens ++ [last]) := by
  induction tokens with
  | nil => exact ⟨fun _ => rfl, trivial⟩
  | cons token tokens ih =>
    exact ⟨fun heq => absurd (mem_cons.2 (.inl heq.symm)) hnone, ih fun hmem => hnone (mem_cons_of_mem _ hmem)⟩

theorem Sound.parse {fuel : Nat} {tokens : List Token} (h : p.Sound limit)
    (hparse : p.parse fuel = some tokens) : SuffixLast tokens := by
  induction fuel generalizing p limit with
  | zero => cases hparse
  | succ fuel ih =>
    rw [GlobParser.parse] at hparse
    split at hparse
    · split at hparse
      · next root _ hbranches =>
        cases hparse
        obtain ⟨-, -, branch, outer, heq, hnone, -⟩ := h
        rw [hbranches] at heq
        obtain ⟨rfl, -⟩ := cons.inj heq
        cases root with
        | nil => trivial
        | cons last tokens =>
          rw [reverse_cons]
          exact suffixLast_append (fun hmem => hnone (mem_reverse.1 hmem)) last
      · cases hparse
    next hbump =>
    obtain ⟨next, hnext, hparse⟩ := Option.bind_eq_some_iff.1 hparse
    exact ih (h.round hbump hnext) hparse

end GlobParser

theorem start_sound (glob : Bytes) : GlobParser.Sound glob.length ⟨glob, none, none, false, [], [[]]⟩ :=
  GlobParser.Open.sound ⟨le_rfl, ⟨[], rfl⟩, [], [], rfl, not_mem_nil⟩

theorem parseGlob_fuel (glob : Bytes) (more : Nat) :
    GlobParser.parse (glob.length + 1 + more) ⟨glob, none, none, false, [], [[]]⟩ = parseGlob glob :=
  (start_sound glob).parse_fuel (Nat.lt_succ_self _) more

/-- **Ignore globs match their language.** What an accepted glob matches is a text of its tokens, or the
glob is `**`, which matches every path; and every text of the tokens is matched when the branches of its
alternations are made of literals, classes, `?` and `*`. -/
theorem matchTokens_language {glob : Bytes} {tokens : List Token} (h : parseGlob glob = some tokens) (path : Bytes) :
    (matchTokens [.recursivePrefix] path) ∧
    (matchTokens tokens path → tokens = [.recursivePrefix] ∨ Language tokens path) ∧
    (tokens.all Token.flat → Language tokens path → matchTokens tokens path) := by
  have hlast := (start_sound glob).parse h
  refine ⟨rfl, fun hmatch => ?_, fun hflat htext => ?_⟩
  · unfold matchTokens at hmatch
    split at hmatch
    · exact .inl rfl
    · exact .inr (matchFrom_sound hlast hmatch)
  unfold matchTokens
  split
  · rfl
  · exact matchFrom_complete hlast hflat htext

/-- `{a,b}?c/**` and `xb/c/d`. -/
theorem matchTokens_language_alternation :
    matchTokens [.alternates [[.literal 0x61], [.literal 0x62]], .anyByte, .literal 0x63, .recursiveSuffix]
      [0x62, 0x78, 0x63, 0x2F, 0x64] :=
  (@matchTokens_language [0x7B, 0x61, 0x2C, 0x62, 0x7D, 0x3F, 0x63, 0x2F, 0x2A, 0x2A] _ rfl _).2.2 rfl
    (.cons (.alternates (mem_cons_of_mem _ mem_cons_self) (.cons (.literal 0x62) .nil))
      (.cons (.anyByte (by decide)) (.cons (.literal 0x63) (.cons (.suffix [0x64]) .nil))))

/-- `**` matches `a`, which is not a text of the token for leading components, and `{{a}}` does not match
`a`, its only text. -/
theorem nested_alternation_unmatched :
    parseGlob [0x2A, 0x2A] = some [.recursivePrefix] ∧ matchTokens [.recursivePrefix] [0x61] = true ∧
    ¬Language [.recursivePrefix] [0x61] ∧
    parseGlob [0x7B, 0x7B, 0x61, 0x7D, 0x7D] = some [.alternates [[.alternates [[.literal 0x61]]]]] ∧
    matchTokens [.alternates [[.alternates [[.literal 0x61]]]]] [0x61] = false ∧
    Language [.alternates [[.alternates [[.literal 0x61]]]]] [0x61] := by
  refine ⟨rfl, rfl, fun h => ?_, rfl, rfl, ?_⟩
  · exact Bool.false_ne_true (@matchFrom_complete [.recursivePrefix] _ ⟨nofun, trivial⟩ rfl h)
  have htext : Token.Matches (.alternates [[.literal 0x61]]) [0x61] :=
    .alternates mem_cons_self (.cons (.literal 0x61) .nil)
  exact .cons (.alternates mem_cons_self (.cons htext .nil)) .nil

end CodingHarness.Durable.GitIgnore
