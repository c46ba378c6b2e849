import Mathlib.Data.List.TakeWhile
import CodingHarness.Support.Json
import CodingHarness.Library.Tokens

/-!
# Hosts of URLs

`parse_url` and `extract_host` of `Url.cpp`. The one cuts an address at its path before it looks for the userinfo,
the other looks for the last `@` of a bare authority first, also behind the path. `extractHost_agrees_iff` says when
both name one host.
-/

namespace CodingHarness.Mcp

open Library Support

/-- `std::tolower` in the C locale. -/
def toLower (c : UInt8) : UInt8 := if 0x41 ≤ c ∧ c ≤ 0x5A then c + 0x20 else c

/-- One of the bytes of `find_first_of("/?#")`. -/
def isDelimiter (c : UInt8) : Bool := c == 0x2F || c == 0x3F || c == 0x23

def beforePath (text : Bytes) : Bytes := text.takeWhile fun c => !isDelimiter c

def fromPath (text : Bytes) : Bytes := text.dropWhile fun c => !isDelimiter c

/-- What is before and what is after the byte that `rfind` finds. -/
def splitLast (c : UInt8) : Bytes → Option (Bytes × Bytes)
  | [] => none
  | byte :: rest =>
    match splitLast c rest with
    | some (front, back) => some (byte :: front, back)
    | none => if byte = c then some ([], rest) else none

/-- The text after its last `@`, or all of it. -/
def afterUserinfo (text : Bytes) : Bytes := match splitLast 0x40 text with
  | some (_, rest) => rest
  | none => text

/-- The host and the port text of an authority without userinfo, if it has a host to look for. -/
def hostAndPort (authority : Bytes) : Option (Bytes × Bytes) := match authority with
  | [] => none
  | 0x5B :: _ =>
    match cutAt [0x5D] authority with
    | none => none
    | some (inner, after) =>
      some (inner ++ [0x5D], match after with | 0x3A :: port => port | _ => [])
  | _ => some ((splitLast 0x3A authority).getD (authority, []))

/-- `std::from_chars` into a `std::uint16_t`, when it reads the whole text. -/
def portNumber (port : Bytes) : Option UInt16 := let value := port.foldl (fun n c => n * 10 + (c.toNat - 0x30)) 0
  if (port.all fun c => 0x30 ≤ c && c ≤ 0x39) ∧ value < 2 ^ 16 then some (UInt16.ofNat value) else none

structure ParsedUrl where
  valid : Bool := false
  scheme : Bytes := []
  host : Bytes := []
  port : Bytes := []
  portNumber : Option UInt16 := none
  path : Bytes := "/"
  search : Bytes := []
  hash : Bytes := []
  origin : Bytes := []
  authority : Bytes := []

/-- The port that is kept: it has to be a number, and not the default one of the scheme. -/
def keptPort (scheme port : Bytes) : Bytes × Option UInt16 := match portNumber port with
  | none => ([], none)
  | some number =>
    if port = [] ∨ (scheme = ofString "https" ∧ port = ofString "443") ∨ (scheme = ofString "http" ∧ port = ofString "80")
    then ([], none) else (port, some number)

def parseUrl (value : Bytes) : ParsedUrl := match cutAt "://" value with
  | none => {}
  | some (scheme, rest) =>
    if scheme = [] then {}
    else
      let result : ParsedUrl := { scheme := scheme.map toLower, authority := beforePath rest }
      match hostAndPort (afterUserinfo (beforePath rest)) with
      | none => result
      | some (host, port) =>
        if host = [] then result
        else
          let (kept, number) := keptPort (scheme.map toLower) port
          let target := (fromPath rest).takeWhile (· != 0x23)
          let path := target.takeWhile (· != 0x3F)
          { result with
            valid := true
            host := host.map toLower
            port := kept
            portNumber := number
            path := if path = [] then "/" else path
            search := target.dropWhile (· != 0x3F)
            hash := (fromPath rest).dropWhile (· != 0x23)
            origin := scheme.map toLower ++ ofString "://" ++ host.map toLower ++
              (if kept = [] then [] else ofString ":" ++ kept) }

/-- The host of a bare authority without userinfo. -/
def bareHost (authority : Bytes) : Bytes := match authority with
  | 0x5B :: _ =>
    match cutAt [0x5D] authority with
    | some (inner, _) => inner ++ [0x5D]
    | none => authority
  | _ => ((splitLast 0x3A authority).map Prod.fst).getD authority

def extractHost (address : Bytes) : Bytes := match cutAt "://" address with
  | some _ => if (parseUrl address).valid then (parseUrl address).host else []
  | none => (bareHost (beforePath (afterUserinfo address))).map toLower

/-! ## Splitting at a byte -/

variable {text : Bytes}

theorem splitLast_of_notMem {c : UInt8} (h : c ∉ text) : splitLast c text = none := by
  induction text with
  | nil => rfl
  | cons byte rest ih =>
    rw [List.mem_cons, not_or] at h
    simp [splitLast, ih h.2, Ne.symm h.1]

theorem splitLast_append {c : UInt8} {back : Bytes} (front : Bytes) (h : c ∉ back) :
    splitLast c (front ++ c :: back) = some (front, back) := by
  induction front with
  | nil => simp [splitLast, splitLast_of_notMem h]
  | cons byte front ih => simp [splitLast, ih]

theorem exists_last {c : UInt8} (h : c ∈ text) : ∃ front back, text = front ++ c :: back ∧ c ∉ back := by
  obtain ⟨back, front, hreverse, hback⟩ := List.eq_append_cons_of_mem (List.mem_reverse.2 h)
  refine ⟨front.reverse, back.reverse, ?_, by simpa using hback⟩
  rw [← List.reverse_inj, hreverse]
  simp

theorem afterUserinfo_of_notMem (h : 0x40 ∉ text) : afterUserinfo text = text := by
  rw [afterUserinfo, splitLast_of_notMem h]

theorem afterUserinfo_last (front : Bytes) {back : Bytes} (h : 0x40 ∉ back) :
    afterUserinfo (front ++ 0x40 :: back) = back := by
  rw [afterUserinfo, splitLast_append front h]

theorem afterUserinfo_append_of_notMem (front : Bytes) {back : Bytes} (h : 0x40 ∉ back) :
    afterUserinfo (front ++ back) = afterUserinfo front ++ back := by
  by_cases hfront : 0x40 ∈ front
  · obtain ⟨first, last, rfl, hlast⟩ := exists_last hfront
    rw [List.append_assoc, List.cons_append, afterUserinfo_last first hlast,
      afterUserinfo_last first (by simp [hlast, h])]
  · rw [afterUserinfo_of_notMem hfront, afterUserinfo_of_notMem (by simp [hfront, h])]

theorem afterUserinfo_append_of_mem (front : Bytes) {back : Bytes} (h : 0x40 ∈ back) :
    afterUserinfo (front ++ back) = afterUserinfo back := by
  obtain ⟨first, last, rfl, hlast⟩ := exists_last h
  rw [← List.append_assoc, afterUserinfo_last _ hlast, afterUserinfo_last first hlast]

/-! ## The host of an authority -/

/-- The authority names the host: in brackets, or before its last colon, or with all of it. -/
inductive Names : Bytes → Bytes → Prop where
  | bracket (inner after : Bytes) (closed : 0x5D ∉ inner) :
      Names (0x5B :: inner ++ 0x5D :: after) (0x5B :: inner ++ [0x5D])
  | port (host port : Bytes) (plain : (host ++ 0x3A :: port).head? ≠ some 0x5B) (last : 0x3A ∉ port) :
      Names (host ++ 0x3A :: port) host
  | whole (host : Bytes) (plain : host.head? ≠ some 0x5B) (bare : 0x3A ∉ host) : Names host host

theorem bareHost_plain (h : text.head? ≠ some 0x5B) :
    bareHost text = ((splitLast 0x3A text).map Prod.fst).getD text := by
  unfold bareHost
  split
  · exact absurd rfl h
  · rfl

theorem Names.bareHost_eq {text host : Bytes} (h : Names text host) : bareHost text = host := by
  cases h with
  | bracket inner after closed =>
    have hcut : cutAt [0x5D] (0x5B :: inner ++ 0x5D :: after) = some (0x5B :: inner, after) :=
      cutAt_symbol (by simp [closed])
    simp only [bareHost, List.cons_append] at hcut ⊢
    rw [hcut]
    rfl
  | port host port plain last =>
    rw [bareHost_plain plain, splitLast_append host last]
    rfl
  | whole host plain bare =>
    rw [bareHost_plain plain, splitLast_of_notMem bare]
    rfl

/-- A text that opens a bracket has to close it to name a host. -/
theorem names_bareHost (h : text.head? = some 0x5B → 0x5D ∈ text) : Names text (bareHost text) := by
  by_cases hhead : text.head? = some 0x5B
  · obtain ⟨front, after, rfl, hclosed⟩ := List.eq_append_cons_of_mem (h hhead)
    have hnames : ∃ host, Names (front ++ 0x5D :: after) host := by
      cases front with
      | nil => cases hhead
      | cons first inner =>
        cases hhead
        exact ⟨_, .bracket inner after fun hmem => hclosed (List.mem_cons_of_mem _ hmem)⟩
    obtain ⟨host, hnames⟩ := hnames
    rw [hnames.bareHost_eq]
    exact hnames
  rw [bareHost_plain hhead]
  by_cases hcolon : 0x3A ∈ text
  · obtain ⟨host, port, rfl, hlast⟩ := exists_last hcolon
    rw [splitLast_append host hlast]
    exact .port host port hhead hlast
  · rw [splitLast_of_notMem hcolon]
    exact .whole text hhead hcolon

theorem hostAndPort_names {text host port : Bytes} (h : hostAndPort text = some (host, port)) : Names text host := by
  have hhost : (text.head? = some 0x5B → 0x5D ∈ text) ∧ host = bareHost text := by
    unfold hostAndPort at h
    split at h
    · cases h
    · next rest =>
      split at h
      · cases h
      next inner after hcut =>
      cases h
      refine ⟨fun _ => by rw [(cutAt_symbol_eq hcut).1]; simp, ?_⟩
      simp [bareHost, hcut]
    · next hfirst =>
      have hplain : text.head? ≠ some 0x5B := by
        intro hhead
        obtain ⟨rest, rfl⟩ := List.head?_eq_some_iff.1 hhead
        exact hfirst rest rfl
      refine ⟨fun hhead => absurd hhead hplain, ?_⟩
      rw [bareHost_plain hplain]
      cases hsplit : splitLast 0x3A text with
      | none =>
        rw [hsplit] at h
        cases h
        rfl
      | some parts =>
        rw [hsplit] at h
        cases h
        rfl
  rw [hhost.2]
  exact names_bareHost hhost.1

/-! ## Both extractors -/

theorem eq_of_toLower {c d : UInt8} (h : toLower c = d) (hd : ¬ (0x61 ≤ d ∧ d ≤ 0x7A)) : c = d := by
  unfold toLower at h
  split at h
  · next hupper =>
    simp only [UInt8.le_iff_toNat_le, ← UInt8.toNat_inj, UInt8.toNat_add] at *
    have hsmall : (0x41 : UInt8).toNat = 65 ∧ (0x5A : UInt8).toNat = 90 ∧ (0x61 : UInt8).toNat = 97 ∧
        (0x7A : UInt8).toNat = 122 ∧ (0x20 : UInt8).toNat = 32 := by decide
    omega
  · exact h

theorem beforePath_append_fromPath (text : Bytes) : beforePath text ++ fromPath text = text :=
  List.takeWhile_append_dropWhile

theorem afterUserinfo_subset (text : Bytes) : afterUserinfo text ⊆ text := by
  by_cases hat : 0x40 ∈ text
  · obtain ⟨front, back, rfl, hback⟩ := exists_last hat
    rw [afterUserinfo_last front hback]
    intro c hc
    simp [hc]
  · rw [afterUserinfo_of_notMem hat]
    exact List.Subset.refl _

theorem takeWhile_dropWhile (p : UInt8 → Bool) (text : Bytes) : (text.dropWhile p).takeWhile p = [] := by
  induction text with
  | nil => rfl
  | cons c text ih =>
    by_cases hc : p c = true
    · rw [List.dropWhile_cons_of_pos hc, ih]
    · rw [List.dropWhile_cons_of_neg hc, List.takeWhile_cons_of_neg hc]

/-- With the scheme in front, a bare authority is cut at the scheme. -/
theorem cutAt_http (address : Bytes) : cutAt "://" (ofString "http://" ++ address) = some (ofString "http", address) := rfl

theorem parseUrl_names {address : Bytes} (h : (parseUrl (ofString "http://" ++ address)).valid = true) :
    ∃ host, Names (afterUserinfo (beforePath address)) host ∧ host ≠ [] ∧
      (parseUrl (ofString "http://" ++ address)).host = host.map toLower := by
  have hscheme : ofString "http" ≠ [] := by decide
  rw [parseUrl, cutAt_http] at h ⊢
  simp only [hscheme, if_false] at h ⊢
  cases hhost : hostAndPort (afterUserinfo (beforePath address)) with
  | none =>
    rw [hhost] at h
    cases h
  | some parts =>
    obtain ⟨host, port⟩ := parts
    rw [hhost] at h
    by_cases hempty : host = []
    · simp [hempty] at h
    · simp only [hempty, if_false]
      exact ⟨host, hostAndPort_names hhost, hempty, rfl⟩

/-- The texts name one host, up to the case of its letters. -/
def SameHost (first second : Bytes) : Prop :=
  ∃ host host', Names first host ∧ Names second host' ∧ host.map toLower = host'.map toLower

/-- A bracket that is not closed names no host that another text could name. -/
theorem sameHost_iff {first second host : Bytes} (hnames : Names second host) (hhost : host ≠ []) :
    SameHost first second ↔ (bareHost first).map toLower = host.map toLower := by
  constructor
  · rintro ⟨named, host', hfirst, hsnd, heq⟩
    rw [hfirst.bareHost_eq, heq, ← hsnd.bareHost_eq, hnames.bareHost_eq]
  intro heq
  refine ⟨bareHost first, host, names_bareHost fun hopen => ?_, hnames, heq⟩
  by_contra hclosed
  obtain ⟨rest, rfl⟩ := List.head?_eq_some_iff.1 hopen
  have hcut : cutAt [0x5D] (0x5B :: rest) = none := by
    cases hcut : cutAt [0x5D] (0x5B :: rest) with
    | none => rfl
    | some parts =>
      rw [cutAt_eq hcut] at hclosed
      simp at hclosed
  have hwhole : bareHost (0x5B :: rest) = 0x5B :: rest := by simp [bareHost, hcut]
  rw [hwhole] at heq
  cases hnames with
  | bracket inner after closed =>
    have hmem : (0x5D : UInt8) ∈ (0x5B :: rest).map toLower := by
      rw [heq]
      exact List.mem_map.2 ⟨0x5D, by simp, by decide⟩
    obtain ⟨c, hc, hlower⟩ := List.mem_map.1 hmem
    rw [eq_of_toLower hlower (by decide)] at hc
    exact hclosed hc
  | port host port plain last =>
    cases host with
    | nil => exact hhost rfl
    | cons first host =>
      exact plain (congrArg some (eq_of_toLower (List.cons.inj heq).1.symm (by decide)))
  | whole host plain bare =>
    cases second with
    | nil => exact hhost rfl
    | cons first host =>
      exact plain (congrArg some (eq_of_toLower (List.cons.inj heq).1.symm (by decide)))

/-- **Both extractors name one host** exactly when there is no `@` from the path on, or what stands behind the last
one names the host of the authority. -/
theorem extractHost_agrees_iff {address : Bytes} (hbare : cutAt "://" address = none)
    (hvalid : (parseUrl (ofString "http://" ++ address)).valid = true) :
    extractHost address = (parseUrl (ofString "http://" ++ address)).host ↔ 0x40 ∉ fromPath address ∨
        SameHost (beforePath (afterUserinfo (fromPath address))) (afterUserinfo (beforePath address)) := by
  obtain ⟨host, hnames, hhost, hparsed⟩ := parseUrl_names hvalid
  have hextract : extractHost address = (bareHost (beforePath (afterUserinfo address))).map toLower := by
    rw [extractHost, hbare]
  rw [hparsed, hextract]
  by_cases hat : 0x40 ∈ fromPath address
  · have hbehind := afterUserinfo_append_of_mem (beforePath address) hat
    rw [beforePath_append_fromPath] at hbehind
    rw [hbehind, sameHost_iff hnames hhost]
    simp [hat]
  have hsplit := afterUserinfo_append_of_notMem (beforePath address) hat
  rw [beforePath_append_fromPath] at hsplit
  have hcut : beforePath (afterUserinfo address) = afterUserinfo (beforePath address) := by
    have hinside : ∀ c ∈ afterUserinfo (beforePath address), (!isDelimiter c) = true :=
      fun c hc => List.mem_takeWhile_imp (p := fun c => !isDelimiter c) (afterUserinfo_subset _ hc)
    rw [hsplit, beforePath, List.takeWhile_append_of_pos hinside, fromPath, takeWhile_dropWhile, List.append_nil]
  rw [hcut, hnames.bareHost_eq]
  simp [hat]

theorem extractHost_agrees_iff_userinfo :
    extractHost "me@Host:80/a" = (parseUrl (ofString "http://" ++ ofString "me@Host:80/a")).host :=
  (extractHost_agrees_iff (by decide) (by decide)).2 (Or.inl (by decide))

/-- An `@` in the path names another host. -/
theorem path_names_host : cutAt (ofString "://") (ofString "a/x@b") = none ∧
    (parseUrl (ofString "http://" ++ ofString "a/x@b")).valid = true ∧
    extractHost "a/x@b" ≠ (parseUrl (ofString "http://" ++ ofString "a/x@b")).host := by
  decide

end CodingHarness.Mcp
