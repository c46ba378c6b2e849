import CodingHarness.Durable.ContextView
import CodingHarness.Durable.Transcript

/-!
# Planning the prompt

Before a request, `plan_prompt` compares what the transcript's system messages show with what the
registry wants shown, and plans the system messages that turn the one into the other. The plan is
appended as `pi.system` entries and read back from the context at the next request, so a plan should
leave nothing to plan.

The comparison of two tools covers `constrainedSampling`, and the transcript does not: `tool_json`
drops it. This module has the planner, the codec and the replay, and shows that the planned patches
lead from the shown sections and tools to the wanted ones.
-/

namespace CodingHarness.Durable

open Library Support Chord
open List (filter_eq_nil_iff foldl_cons mapM_cons map_append map_cons map_map mem_cons_of_mem mem_cons_self
  mem_map_of_mem mem_singleton nodup_append nodup_cons)
open Bool (and_eq_true not_eq_true')

namespace Prompt

open Transcript (JsonValue Section)

/-! ## Declarations -/

/-- `Tool`. -/
structure Declaration extends Transcript.Tool where
  constrainedSampling : Option (OrdMap Bytes Bytes) := none

def jsonEqual (left right : JsonValue) : Bool := writeJson left.value == writeJson right.value

/-- `json_equal` of two optional values. -/
def schemasEqual : Option JsonValue → Option JsonValue → Bool
  | none, none => true
  | some left, some right => jsonEqual left right
  | _, _ => false

def declarationsEqual (left right : Declaration) : Bool :=
  left.name == right.name && left.description == right.description && jsonEqual left.parameters right.parameters &&
    schemasEqual left.outputSchema right.outputSchema &&
    left.constrainedSampling == right.constrainedSampling

/-- `Json::from_support` converts the parameters and the output schema. -/
def Declaration.Convertible (tool : Declaration) : Prop :=
  tool.parameters.value.Finite ∧ ∀ schema ∈ tool.outputSchema, schema.value.Finite

/-! ## The registry -/

structure PromptSection where
  key : Bytes
  text : Bytes := []
  tag : Bool := true

/-- `ToolRegistration`. `Registry::install` refuses a declaration that cannot be converted. -/
structure ToolRegistration where
  declaration : Declaration
  deferred : Bool := false
  convertible : declaration.Convertible

/-- `Registry::Snapshot`. -/
structure Snapshot where
  tools : List ToolRegistration := []
  sections : List PromptSection := []

def stringArray (value : Option Json) : List Bytes := ((value.bind Json.asArray).getD []).filterMap Json.asString

def Snapshot.tool (snapshot : Snapshot) (name : Bytes) : Option ToolRegistration :=
  snapshot.tools.find? fun tool => tool.declaration.name == name

def offeredToolDeclarations (snapshot : Snapshot) (modelTools : Json) : List Declaration :=
  match modelTools.asArray with
  | some _ =>
    (stringArray (some modelTools)).filterMap fun name =>
      (snapshot.tool name).map ToolRegistration.declaration
  | none =>
    let removed := stringArray (Transcript.member modelTools "remove")
    (snapshot.tools.filter fun tool =>
        !tool.deferred && !removed.contains tool.declaration.name).map
      ToolRegistration.declaration ++
    (stringArray (Transcript.member modelTools "add")).filterMap fun name =>
      (snapshot.tool name).bind fun tool =>
        if tool.deferred && !removed.contains name then some tool.declaration else none

def PromptSection.shown (section_ : PromptSection) : Section where
  name := section_.key
  text := some (if section_.tag then
      ofString "<" ++ section_.key ++ ofString ">\n" ++ section_.text ++ ofString "\n</" ++
        section_.key ++ ofString ">"
    else section_.text)

def Snapshot.desired (snapshot : Snapshot) : List Section := snapshot.sections.map PromptSection.shown

/-! ## The planner -/

structure ToolChanges where
  removed : List Bytes := []
  added : List Declaration := []

/-- A tool of the same name is in the list. -/
def named (tools : List Declaration) (tool : Declaration) : Bool := tools.any fun each => each.name == tool.name

/-- The offered tools that are wanted as they are. -/
def keptTools (offered desired : List Declaration) : List Declaration := offered.filter fun tool =>
    desired.any fun candidate => candidate.name == tool.name && declarationsEqual tool candidate

def planTools (offered desired : List Declaration) : ToolChanges := let kept := keptTools offered desired
  let added := desired.filter fun tool => !named kept tool
  if (kept ++ added).map (·.name) = desired.map (·.name) then
    { removed := (offered.filter fun tool => !named kept tool).map (·.name), added := added }
  else { removed := offered.map (·.name), added := desired }

def wanted (desired : List Section) (name : Bytes) : Option Section := desired.find? fun each => each.name == name

def isShown (shown : List Section) (each : Section) : Bool := shown.any fun other => other.name == each.name

/-- What the minimal patch does with a shown section. -/
def patchShown (desired : List Section) (each : Section) : Option Section := match wanted desired each.name with
  | none => some ⟨each.name, none⟩
  | some next => if next.text = each.text then none else some next

def planSections (shown desired : List Section) : List (List Section) :=
  let fresh := desired.filter fun each => !isShown shown each
  let kept := shown.filter fun each => (wanted desired each.name).isSome
  if (kept ++ fresh).map Section.name = desired.map Section.name then
    let patch := shown.filterMap (patchShown desired) ++ fresh
    if patch.isEmpty then [] else [patch]
  else [shown.map fun each => ⟨each.name, none⟩, desired]

/-- `SystemMessage`, as the planner builds it: without a content. -/
structure PlannedSystem where
  sections : List Section := []
  toolsAdded : List Declaration := []
  toolsRemoved : List Bytes := []
  timestamp : Int

/-- `PromptPlan`, without the provider context. -/
structure Plan where
  systems : List PlannedSystem := []
  edits : List ContextEdit := []

/-- The messages of the section patches; the tool changes ride on the last one. -/
def systemMessages (timestamp : Int) (changes : ToolChanges) : List (List Section) → List PlannedSystem
  | [] =>
    if changes.removed.isEmpty && changes.added.isEmpty then []
    else [⟨[], changes.added, changes.removed, timestamp⟩]
  | [patch] => [⟨patch, changes.added, changes.removed, timestamp⟩]
  | patch :: rest => ⟨patch, [], [], timestamp⟩ :: systemMessages timestamp changes rest

def laterSystem (view : Context.View) : Bool := view.head.any fun head =>
    view.entries.any fun entry => entry.kind == Context.systemKind && decide (head.id < entry.id)

def startsOver (view : Context.View) : Bool := view.head.isSome && !laterSystem view

/-- What the transcript shows. -/
structure Shown where
  sections : List Section := []
  tools : List Declaration := []

def planPrompt (snapshot : Snapshot) (shown : Shown) (modelTools : Json) (view : Context.View)
    (timestamp : Int) : Plan :=
  let offered := offeredToolDeclarations snapshot modelTools
  if startsOver view then
    { systems := [⟨snapshot.desired, offered, [], timestamp⟩]
      edits := (view.entries.filter fun entry => entry.kind == Context.systemKind).map fun entry =>
        { target := entry.id, action := "omit" } }
  else
    { systems := systemMessages timestamp (planTools shown.tools offered)
        (planSections shown.sections snapshot.desired) }

/-! ## The codec -/

def toolJson (tool : Declaration) : Expected Json := do
  let parameters ← fromSupport tool.parameters.value
  let outputSchema ← Transcript.optionalSupport tool.outputSchema
  return .object (Transcript.stringField "name" tool.name ++
    Transcript.stringField "description" tool.description ++ field "parameters" parameters ++
    optionalField "outputSchema" id outputSchema)

/-- An array member that is left out when it is empty. -/
def arrayField (name : String) (items : List Json) : JsonObject Json :=
  if items.isEmpty then [] else field name (.array items)

/-- The members of the `sections` object; a repeated name keeps its first text. -/
def sectionMembers (sections : List Section) : JsonObject Json :=
  JsonObject.emplaceAll (sections.map fun each => (each.name, (each.text.map Json.string).getD .null)) []

def systemJson (message : PlannedSystem) : Expected Json := do
  let added ← message.toolsAdded.mapM toolJson
  let sections := sectionMembers message.sections
  return .object (Transcript.stringField "role" (ofString "system") ++
    Transcript.stringField "content" [] ++ field "timestamp" (number message.timestamp) ++
    (if sections.isEmpty then [] else field "sections" (.object sections)) ++
    arrayField "toolsAdded" added ++
    arrayField "toolsRemoved" (message.toolsRemoved.map fun name =>
      .object (Transcript.stringField "name" name)))

/-! ## The replay -/

def replaySection : List Section → Section → List Section
  | [], each => if each.text.isSome then [each] else []
  | other :: rest, each =>
    if other.name = each.name then
      if each.text.isSome then each :: rest else rest
    else other :: replaySection rest each

/-- A tool that a system message removes. -/
def dropTool (tools : List Declaration) (name : Bytes) : List Declaration :=
  tools.filter fun tool => tool.name != name

def addTool (tools : List Declaration) (tool : Declaration) : List Declaration := dropTool tools tool.name ++ [tool]

/-- One system message. The declarations that are read have no sampling constraint. -/
def Shown.system (shown : Shown) (message : Transcript.SystemMessage) : Shown where
  sections := message.sections.foldl replaySection shown.sections
  tools := (message.toolsAdded.map fun tool => { tool with }).foldl addTool
    (message.toolsRemoved.foldl dropTool shown.tools)

def Shown.message (shown : Shown) (json : Json) : Shown := match Transcript.messageFromJson json with
  | some (.system message) => shown.system message
  | _ => shown

/-- The replay of a context, as `prepare` and `request` do it. -/
def replay (messages : List Json) : Shown := messages.foldl Shown.message {}

/-! ## Lists that agree in their names -/

section Names

variable {α β γ : Type} {f : α → γ} {g : β → γ}

theorem forall₂_of_names {R : α → β → Prop} {xs : List α} {ys : List β}
    (hnames : xs.map f = ys.map g) (hnodup : (ys.map g).Nodup)
    (h : ∀ x ∈ xs, ∃ y ∈ ys, g y = f x ∧ R x y) : List.Forall₂ R xs ys := by
  induction xs generalizing ys with
  | nil =>
    cases ys with
    | nil => exact .nil
    | cons y ys => cases hnames
  | cons x xs ih =>
    cases ys with
    | nil => cases hnames
    | cons y ys =>
      rw [map_cons, map_cons] at hnames
      obtain ⟨hhead, htail⟩ := List.cons.inj hnames
      rw [map_cons, nodup_cons] at hnodup
      refine .cons ?_ (ih htail hnodup.2 ?_)
      · obtain ⟨z, hz, hname, hR⟩ := h x mem_cons_self
        rcases List.mem_cons.1 hz with rfl | hz
        · exact hR
        · refine absurd (List.mem_map.2 ⟨z, hz, ?_⟩) hnodup.1
          rw [hname, hhead]
      intro x' hx'
      obtain ⟨z, hz, hname, hR⟩ := h x' (mem_cons_of_mem _ hx')
      rcases List.mem_cons.1 hz with rfl | hz
      · refine absurd ?_ hnodup.1
        rw [hname, ← htail]
        exact mem_map_of_mem hx'
      · exact ⟨z, hz, hname, hR⟩

theorem eq_of_names {xs ys : List α} (hnames : xs.map f = ys.map f)
    (hnodup : (ys.map f).Nodup) (h : ∀ x ∈ xs, x ∈ ys) : xs = ys := by
  rw [← List.forall₂_eq_eq_eq]
  exact forall₂_of_names hnames hnodup fun x hx => ⟨x, h x hx, rfl, rfl⟩

theorem find?_name [BEq γ] [LawfulBEq γ] {xs : List α} (hnodup : (xs.map f).Nodup) {x : α}
    (hx : x ∈ xs) : (xs.find? fun each => f each == f x) = some x := by
  induction xs with
  | nil => cases hx
  | cons y ys ih =>
    rw [map_cons, nodup_cons] at hnodup
    rcases List.mem_cons.1 hx with rfl | hx
    · simp
    have hne : f y ≠ f x := by
      intro heq
      exact hnodup.1 (heq ▸ mem_map_of_mem hx)
    rw [List.find?_cons_of_neg (by simpa using hne)]
    exact ih hnodup.2 hx

end Names

/-! ## Section patches -/

/-- Sections with distinct names that all have a text. -/
structure Tidy (sections : List Section) : Prop where
  nodup : (sections.map Section.name).Nodup
  texts : ∀ each ∈ sections, each.text.isSome = true

variable {sections : List Section}

theorem replaySection_new {each : Section}
    (hnew : ∀ other ∈ sections, other.name ≠ each.name) (htext : each.text.isSome = true) :
    replaySection sections each = sections ++ [each] := by
  induction sections with
  | nil => simp [replaySection, htext]
  | cons other rest ih =>
    rw [replaySection, if_neg (hnew other mem_cons_self),
      ih fun x hx => hnew x (mem_cons_of_mem _ hx), List.cons_append]

theorem replaySection_at {before rest : List Section} {other each : Section}
    (hprev : ∀ x ∈ before, x.name ≠ each.name) (hname : other.name = each.name) :
    replaySection (before ++ other :: rest) each = before ++ (if each.text.isSome then each :: rest else rest) := by
  induction before with
  | nil => simp [replaySection, hname]
  | cons x before ih =>
    rw [List.cons_append, replaySection, if_neg (hprev x mem_cons_self),
      ih fun y hy => hprev y (mem_cons_of_mem _ hy), List.cons_append]

theorem replay_fresh {shown fresh : List Section} (hnodup : ((shown ++ fresh).map Section.name).Nodup)
    (htexts : ∀ each ∈ fresh, each.text.isSome = true) : fresh.foldl replaySection shown = shown ++ fresh := by
  induction fresh generalizing shown with
  | nil => simp
  | cons each fresh ih =>
    have hnew : ∀ other ∈ shown, other.name ≠ each.name := by
      rw [map_append, nodup_append] at hnodup
      intro other hother
      exact hnodup.2.2 _ (mem_map_of_mem hother) _ (by simp)
    rw [foldl_cons, replaySection_new hnew (htexts each mem_cons_self), ih]
    · simp
    · simpa using hnodup
    · exact fun x hx => htexts x (mem_cons_of_mem _ hx)

theorem replay_removeAll (shown : List Section) :
    (shown.map fun each => (⟨each.name, none⟩ : Section)).foldl replaySection shown = [] := by
  induction shown with
  | nil => rfl
  | cons each rest ih =>
    rw [map_cons, foldl_cons]
    have hfirst : replaySection (each :: rest) ⟨each.name, none⟩ = rest := by
      simp [replaySection]
    rw [hfirst, ih]

theorem wanted_eq_some {desired : List Section} {name : Bytes} {next : Section}
    (h : wanted desired name = some next) : next ∈ desired ∧ next.name = name :=
  ⟨List.mem_of_find?_eq_some h, by simpa using List.find?_some h⟩

/-- The minimal patch of the shown sections leaves what is wanted of them, in their order. -/
theorem replay_patchShown {desired shown : List Section} (before : List Section) (hdesired : Tidy desired)
    (hnodup : ((before ++ shown).map Section.name).Nodup) :
    (shown.filterMap (patchShown desired)).foldl replaySection (before ++ shown) =
      before ++ shown.filterMap fun each => wanted desired each.name := by
  induction shown generalizing before with
  | nil => simp
  | cons each rest ih =>
    have hprev : ∀ x ∈ before, x.name ≠ each.name := by
      rw [map_append, nodup_append] at hnodup
      intro x hx
      exact hnodup.2.2 _ (mem_map_of_mem hx) _ (by simp)
    have hrest : ∀ x : List Section, x.map Section.name = [] ∨ x.map Section.name = [each.name] →
        ((before ++ x ++ rest).map Section.name).Nodup := by
      intro x hx
      have hsub : ((before ++ x ++ rest).map Section.name).Sublist ((before ++ each :: rest).map Section.name) := by
        rcases hx with hx | hx
        · simp [hx]
        · simp [hx]
      exact hnodup.sublist hsub
    cases hwanted : wanted desired each.name with
    | none =>
      have hpatch : patchShown desired each = some ⟨each.name, none⟩ := by
        simp [patchShown, hwanted]
      have hrem : replaySection (before ++ each :: rest) ⟨each.name, none⟩ = before ++ rest :=
        replaySection_at hprev rfl
      have hnone : (each :: rest).filterMap (fun each => wanted desired each.name) =
          rest.filterMap fun each => wanted desired each.name := by
        simp [hwanted]
      rw [List.filterMap_cons_some hpatch, foldl_cons, hrem, hnone]
      exact ih before (by simpa using hrest [] (Or.inl rfl))
    | some next =>
      obtain ⟨hmem, hname⟩ := wanted_eq_some hwanted
      have hsome : (each :: rest).filterMap (fun each => wanted desired each.name) =
          next :: rest.filterMap fun each => wanted desired each.name := by
        simp [hwanted]
      rw [hsome]
      by_cases htext : next.text = each.text
      · have hpatch : patchShown desired each = none := by simp [patchShown, hwanted, htext]
        have hsame : next = each := by
          cases next
          cases each
          simp_all
        rw [List.filterMap_cons_none hpatch, hsame]
        have := ih (before ++ [each]) (by simpa using hrest [each] (Or.inr rfl))
        simpa using this
      have hpatch : patchShown desired each = some next := by
        simp [patchShown, hwanted, htext]
      rw [List.filterMap_cons_some hpatch, foldl_cons, replaySection_at (fun x hx => hname ▸ hprev x hx) hname.symm,
        if_pos (hdesired.texts next hmem)]
      have := ih (before ++ [next]) (by simpa using hrest [next] (Or.inr (by simp [hname])))
      simpa using this

/-- **Section patches lead to the desired sections**, in their order. -/
theorem replay_planSections {shown desired : List Section} (hshown : Tidy shown) (hdesired : Tidy desired) :
    (planSections shown desired).foldl (fun sections patch => patch.foldl replaySection sections)
      shown = desired := by
  unfold planSections
  dsimp only
  split
  · rename_i horder
    have hminimal : (shown.filterMap (patchShown desired) ++
        desired.filter fun each => !isShown shown each).foldl replaySection shown = desired := by
      have hkept := replay_patchShown [] hdesired (by simpa using hshown.nodup)
      rw [List.nil_append, List.nil_append] at hkept
      have hnames : (shown.filterMap fun each => wanted desired each.name).map Section.name =
          (shown.filter fun each => (wanted desired each.name).isSome).map Section.name := by
        clear horder hkept
        induction shown with
        | nil => rfl
        | cons each rest ih =>
          have hrest : Tidy rest := ⟨(List.nodup_cons.1 hshown.nodup).2,
            fun x hx => hshown.texts x (mem_cons_of_mem _ hx)⟩
          cases hwanted : wanted desired each.name with
          | none => simp [hwanted, ih hrest]
          | some next => simp [hwanted, ih hrest, (wanted_eq_some hwanted).2]
      have hall : (shown.filterMap (fun each => wanted desired each.name) ++
          desired.filter fun each => !isShown shown each) = desired := by
        apply eq_of_names (f := Section.name) _ hdesired.nodup
        · intro x hx
          rcases List.mem_append.1 hx with hx | hx
          · obtain ⟨each, -, heach⟩ := List.mem_filterMap.1 hx
            exact (wanted_eq_some heach).1
          · exact (List.mem_filter.1 hx).1
        · rw [map_append, hnames, ← map_append, horder]
      rw [List.foldl_append, hkept, replay_fresh]
      · exact hall
      · rw [hall]
        exact hdesired.nodup
      · intro each heach
        exact hdesired.texts each (List.mem_filter.1 heach).1
    split
    · rename_i hempty
      rw [List.isEmpty_iff] at hempty
      rw [hempty] at hminimal
      exact hminimal
    · exact hminimal
  · show desired.foldl replaySection ((shown.map _).foldl replaySection shown) = desired
    rw [replay_removeAll, replay_fresh]
    · rfl
    · simpa using hdesired.nodup
    · exact hdesired.texts

theorem planSections_eq_nil_iff {shown desired : List Section} (hshown : Tidy shown)
    (hdesired : Tidy desired) : planSections shown desired = [] ↔ shown = desired := by
  constructor
  · intro h
    have hreplay := replay_planSections hshown hdesired
    rw [h] at hreplay
    exact hreplay
  rintro rfl
  have hwanted : ∀ each ∈ shown, wanted shown each.name = some each := by
    intro each heach
    unfold wanted
    exact find?_name hshown.nodup heach
  have hfresh : (shown.filter fun each => !isShown shown each) = [] := by
    rw [filter_eq_nil_iff]
    intro each heach
    simp only [isShown, not_eq_true', Bool.not_eq_false, List.any_eq_true]
    exact ⟨each, heach, by simp⟩
  have hkept : (shown.filter fun each => (wanted shown each.name).isSome) = shown := by
    rw [List.filter_eq_self]
    intro each heach
    simp [hwanted each heach]
  have hpatch : shown.filterMap (patchShown shown) = [] := by
    rw [List.filterMap_eq_nil_iff]
    intro each heach
    simp [patchShown, hwanted each heach]
  simp [planSections, hfresh, hkept, hpatch]

/-! ## Tool changes -/

/-- The declaration as the transcript brings it back. -/
def Declaration.read (tool : Declaration) : Declaration := { tool with constrainedSampling := none }

/-- A declaration without a sampling constraint is equal to itself after the codec. -/
theorem declarationsEqual_read (tool : Declaration) :
    declarationsEqual tool.read tool = true ↔ tool.constrainedSampling = none := by
  have hschema : schemasEqual tool.outputSchema tool.outputSchema = true := by
    cases tool.outputSchema <;> simp [schemasEqual, jsonEqual]
  simp only [declarationsEqual, Declaration.read, hschema, jsonEqual, beq_self_eq_true,
    Bool.and_self, Bool.true_and, beq_iff_eq]
  exact eq_comm

variable {left right : Declaration}

theorem declarationsEqual_name (h : declarationsEqual left right = true) : left.name = right.name := by
  simp only [declarationsEqual, and_eq_true, beq_iff_eq] at h
  exact h.1.1.1.1

theorem declarationsEqual_sampling
    (h : declarationsEqual left right = true) (hleft : left.constrainedSampling = none) :
    right.constrainedSampling = none := by
  simp only [declarationsEqual, and_eq_true, beq_iff_eq] at h
  rw [← h.2, hleft]

theorem foldl_dropTool (names : List Bytes) (tools : List Declaration) :
    names.foldl dropTool tools = tools.filter fun tool => !names.contains tool.name := by
  induction names generalizing tools with
  | nil => simp
  | cons name rest ih =>
    rw [foldl_cons, ih, dropTool, List.filter_filter]
    congr 1
    funext tool
    by_cases h : tool.name = name
    · simp [h]
    · simp [h]

variable {tools : List Declaration} {added : List Declaration}

theorem foldl_addTool (hnodup : (added.map (·.name)).Nodup) : added.foldl addTool tools =
      (tools.filter fun tool => !(added.map (·.name)).contains tool.name) ++ added := by
  induction added generalizing tools with
  | nil => simp
  | cons tool rest ih =>
    rw [map_cons, nodup_cons] at hnodup
    have hself : ([tool].filter fun tool => !(rest.map (·.name)).contains tool.name) = [tool] := by
      rw [List.filter_eq_self]
      intro other hother
      rw [mem_singleton] at hother
      simpa [hother] using hnodup.1
    rw [foldl_cons, ih hnodup.2, addTool, List.filter_append, dropTool, List.filter_filter,
      hself, List.append_assoc, List.singleton_append]
    congr 2
    funext other
    by_cases h : other.name = tool.name
    · simp [h]
    · simp [h]

/-- The shown tools after planned changes have been written and read. -/
def afterChanges (shown : List Declaration) (changes : ToolChanges) : List Declaration :=
  (changes.added.map Declaration.read).foldl addTool (changes.removed.foldl dropTool shown)

theorem read_names (tools : List Declaration) : (tools.map Declaration.read).map (·.name) = tools.map (·.name) := by
  rw [map_map]
  rfl

variable {tool : Declaration}

theorem named_kept {shown desired : List Declaration} (hshown : (shown.map (·.name)).Nodup)
    (htool : tool ∈ shown) :
    named (keptTools shown desired) tool = true ↔ tool ∈ keptTools shown desired := by
  constructor
  · intro h
    obtain ⟨other, hother, hname⟩ := List.any_eq_true.1 h
    have hsame : other = tool := List.inj_on_of_nodup_map hshown (List.mem_filter.1 hother).1 htool
      (by simpa using hname)
    exact hsame ▸ hother
  · intro h
    exact List.any_eq_true.2 ⟨tool, h, by simp⟩

theorem kept_wanted {shown desired : List Declaration} (h : tool ∈ keptTools shown desired) :
    ∃ want ∈ desired, want.name = tool.name ∧ declarationsEqual tool want = true := by
  obtain ⟨want, hwant, heq⟩ := List.any_eq_true.1 (List.mem_filter.1 h).2
  simp only [and_eq_true, beq_iff_eq] at heq
  exact ⟨want, hwant, heq⟩

/-- **Tool changes lead to the desired tools**, in their order, each as it was shown with an equal
declaration or as it is read back. -/
theorem afterChanges_planTools {shown desired : List Declaration}
    (hshown : (shown.map (·.name)).Nodup) (hdesired : (desired.map (·.name)).Nodup) :
    List.Forall₂ (fun tool want => declarationsEqual tool want = true ∨ tool = want.read)
      (afterChanges shown (planTools shown desired)) desired := by
  unfold planTools
  dsimp only
  split
  · rename_i horder
    have hadded : ((desired.filter fun tool => !named (keptTools shown desired) tool).map
        (·.name)).Nodup := hdesired.sublist (List.filter_sublist.map _)
    have hleft : (((shown.filter fun tool => !named (keptTools shown desired) tool).map
        (·.name)).foldl dropTool shown) = keptTools shown desired := by
      rw [foldl_dropTool]
      refine Eq.trans (List.filter_congr ?_) (show shown.filter _ = keptTools shown desired from rfl)
      intro tool htool
      have hkept : named (keptTools shown desired) tool = true ↔ tool ∈ keptTools shown desired :=
        named_kept hshown htool
      rw [Bool.eq_iff_iff, not_eq_true', List.contains_eq_mem, decide_eq_false_iff_not]
      have hmem : tool ∈ keptTools shown desired ↔ (desired.any fun candidate =>
          candidate.name == tool.name && declarationsEqual tool candidate) = true := by
        simp [keptTools, htool]
      rw [← hmem, ← hkept]
      constructor
      · intro h
        by_contra hnot
        exact h (List.mem_map.2 ⟨tool, List.mem_filter.2 ⟨htool, by simpa using hnot⟩, rfl⟩)
      intro h hin
      obtain ⟨other, hother, hname⟩ := List.mem_map.1 hin
      obtain ⟨hotherShown, hunkept⟩ := List.mem_filter.1 hother
      have hsame : other = tool := List.inj_on_of_nodup_map hshown hotherShown htool hname
      rw [hsame, h] at hunkept
      cases hunkept
    rw [afterChanges, hleft, foldl_addTool (by rw [read_names]; exact hadded)]
    have hdisjoint : ((keptTools shown desired).filter fun tool =>
        !(((desired.filter fun tool => !named (keptTools shown desired) tool).map
          Declaration.read).map (·.name)).contains tool.name) = keptTools shown desired := by
      rw [List.filter_eq_self]
      intro tool htool
      rw [read_names, not_eq_true', List.contains_eq_mem, decide_eq_false_iff_not]
      intro hin
      obtain ⟨other, hother, hname⟩ := List.mem_map.1 hin
      have hunkept := (List.mem_filter.1 hother).2
      have : named (keptTools shown desired) other = true :=
        List.any_eq_true.2 ⟨tool, htool, by simpa using hname.symm⟩
      rw [this] at hunkept
      cases hunkept
    rw [hdisjoint]
    apply forall₂_of_names (f := (·.name)) (g := (·.name)) _ hdesired
    · intro tool htool
      rcases List.mem_append.1 htool with htool | htool
      · obtain ⟨want, hwant, hname, heq⟩ := kept_wanted htool
        exact ⟨want, hwant, hname, Or.inl heq⟩
      · obtain ⟨want, hwant, rfl⟩ := List.mem_map.1 htool
        exact ⟨want, (List.mem_filter.1 hwant).1, rfl, Or.inr rfl⟩
    · rw [map_append, read_names, ← map_append, horder]
  · rw [afterChanges]
    dsimp only
    have hnone : (shown.map (·.name)).foldl dropTool shown = [] := by
      rw [foldl_dropTool, filter_eq_nil_iff]
      intro tool htool
      simp only [List.contains_eq_mem, not_eq_true', decide_eq_false_iff_not, not_not]
      exact mem_map_of_mem htool
    rw [hnone, foldl_addTool (by rw [read_names]; exact hdesired), List.filter_nil, List.nil_append]
    rw [List.forall₂_map_left_iff]
    exact List.forall₂_same.2 fun _ _ => Or.inr rfl

/-- Nothing is planned exactly when every desired tool is shown with an equal declaration, in
order. -/
theorem planTools_eq_empty_iff {shown desired : List Declaration}
    (hshown : (shown.map (·.name)).Nodup) (hdesired : (desired.map (·.name)).Nodup) :
    ((planTools shown desired).removed = [] ∧ (planTools shown desired).added = []) ↔
      List.Forall₂ (fun tool want => declarationsEqual tool want = true) shown desired := by
  constructor
  · rintro ⟨hrem, hadded⟩
    unfold planTools at hrem hadded
    dsimp only at hrem hadded
    split at hrem
    · rename_i horder
      rw [if_pos horder] at hadded
      dsimp only at hrem hadded
      have hkept : ∀ tool ∈ shown, tool ∈ keptTools shown desired := by
        intro tool htool
        rw [← named_kept hshown htool]
        rw [List.map_eq_nil_iff, filter_eq_nil_iff] at hrem
        simpa using hrem tool htool
      have hall : keptTools shown desired = shown :=
        List.filter_eq_self.2 fun tool htool => (List.mem_filter.1 (hkept tool htool)).2
      rw [hadded, List.append_nil, hall] at horder
      exact forall₂_of_names horder hdesired fun tool htool => kept_wanted (hkept tool htool)
    rename_i horder
    rw [if_neg horder] at hadded
    rw [List.map_eq_nil_iff] at hrem
    rw [hrem, show desired = [] from hadded]
    exact .nil
  · intro h
    have hnames : shown.map (·.name) = desired.map (·.name) := by
      clear hshown hdesired
      induction h with
      | nil => rfl
      | cons hfirst _ ih => rw [map_cons, map_cons, ih, declarationsEqual_name hfirst]
    have hkept : keptTools shown desired = shown := by
      apply List.filter_eq_self.2
      intro tool htool
      obtain ⟨want, hwant, heq⟩ : ∃ want ∈ desired, declarationsEqual tool want = true := by
        clear hshown hdesired hnames
        induction h with
        | nil => cases htool
        | cons hfirst _ ih =>
          rcases List.mem_cons.1 htool with rfl | htool
          · exact ⟨_, mem_cons_self, hfirst⟩
          · obtain ⟨want, hwant, heq⟩ := ih htool
            exact ⟨want, mem_cons_of_mem _ hwant, heq⟩
      exact List.any_eq_true.2 ⟨want, hwant, by simp [heq, declarationsEqual_name heq]⟩
    have hadded : (desired.filter fun tool => !named shown tool) = [] := by
      rw [filter_eq_nil_iff]
      intro want hwant
      have hin : want.name ∈ shown.map (·.name) := hnames ▸ mem_map_of_mem hwant
      obtain ⟨tool, htool, hname⟩ := List.mem_map.1 hin
      simp only [named, not_eq_true', Bool.not_eq_false, List.any_eq_true]
      exact ⟨tool, htool, by simpa using hname⟩
    have hrem : (shown.filter fun tool => !named shown tool) = [] := by
      rw [filter_eq_nil_iff]
      intro tool htool
      simp only [named, not_eq_true', Bool.not_eq_false, List.any_eq_true]
      exact ⟨tool, htool, by simp⟩
    simp [planTools, hkept, hadded, hrem, hnames]

/-! ## What the codec brings back -/

theorem toolJson_ok (h : tool.Convertible) :
    ∃ json, toolJson tool = .ok json ∧ Transcript.toolFromJson json = some tool.toTool := by
  have hparameters : fromSupport tool.parameters.value = .ok tool.parameters.value :=
    fromSupport_eq ⟨h.1, tool.parameters.wf⟩
  obtain ⟨schema, hschema⟩ : ∃ schema, Transcript.optionalSupport tool.outputSchema = .ok schema := by
    cases houtput : tool.outputSchema with
    | none => exact ⟨none, rfl⟩
    | some schema =>
      have hcvt := fromSupport_eq (v := schema.value) ⟨h.2 schema houtput, schema.wf⟩
      exact ⟨some schema.value, by rw [Transcript.optionalSupport, hcvt]; rfl⟩
  refine ⟨_, by rw [toolJson, hparameters, hschema]; rfl, ?_⟩
  have hread := Transcript.optionalSupport_read hschema
  have hvalue := Transcript.supportValue_fromSupport hparameters
  simp [Transcript.toolFromJson, Transcript.stringField, Json.asString, hread, hvalue]

theorem toolsJson_ok (h : ∀ tool ∈ tools, tool.Convertible) : ∃ jsons, tools.mapM toolJson = .ok jsons ∧
      jsons.filterMap Transcript.toolFromJson = tools.map Declaration.toTool := by
  induction tools with
  | nil => exact ⟨[], rfl, rfl⟩
  | cons tool rest ih =>
    obtain ⟨json, hjson, hread⟩ := toolJson_ok (h tool mem_cons_self)
    obtain ⟨jsons, hjsons, hreads⟩ := ih fun other hother => h other (mem_cons_of_mem _ hother)
    refine ⟨json :: jsons, ?_, ?_⟩
    · rw [mapM_cons, hjson, hjsons]
      rfl
    · rw [List.filterMap_cons_some hread, hreads, map_cons]

theorem sectionMembers_eq (h : (sections.map Section.name).Nodup) : sectionMembers sections =
      sections.map fun each => (each.name, (each.text.map Json.string).getD .null) := by
  unfold sectionMembers
  rw [JsonObject.emplaceAll_of_nodup]
  · rfl
  · simpa [JsonObject.NodupKeys, Function.comp_def] using h

/-- **What is read back of a planned message**: its sections and its tool changes, each tool without
its sampling constraint. -/
theorem message_systemJson (message : PlannedSystem) (hsecs : (message.sections.map Section.name).Nodup)
    (htools : ∀ tool ∈ message.toolsAdded, tool.Convertible) :
    ∃ json, systemJson message = .ok json ∧ Context.isSystem json = true ∧ ∀ shown : Shown, shown.message json =
        { sections := message.sections.foldl replaySection shown.sections
          tools := afterChanges shown.tools ⟨message.toolsRemoved, message.toolsAdded⟩ } := by
  obtain ⟨added, hadded, hread⟩ := toolsJson_ok htools
  refine ⟨_, by rw [systemJson, hadded]; rfl, rfl, ?_⟩
  intro shown
  have hsectionText : ∀ each : Section, ((each.text.map Json.string).getD .null).asString = each.text := by
    intro each
    cases each.text <;> rfl
  generalize hjson : Json.object _ = json
  have hsystem : Transcript.messageFromJson json = some (.system (Transcript.systemFromJson json)) := by
    rw [← hjson]
    rfl
  have hreadSections : (Transcript.systemFromJson json).sections = message.sections := by
    rw [← hjson, sectionMembers_eq hsecs]
    cases hlist : message.sections with
    | nil =>
      simp [Transcript.systemFromJson, Transcript.stringField, arrayField]
    | cons first rest =>
      simp [Transcript.systemFromJson, Transcript.stringField, arrayField, Json.asObject,
        hsectionText, Function.comp_def]
  have hreadAdded : (Transcript.systemFromJson json).toolsAdded = message.toolsAdded.map Declaration.toTool := by
    rw [← hjson, ← hread]
    cases added with
    | nil => simp [Transcript.systemFromJson, Transcript.stringField, arrayField, Transcript.arrayMember]
    | cons first rest => simp [Transcript.systemFromJson, Transcript.stringField, arrayField,
        Transcript.arrayMember, Json.asArray]
  have hreadRemoved : (Transcript.systemFromJson json).toolsRemoved = message.toolsRemoved := by
    rw [← hjson]
    cases hlist : message.toolsRemoved with
    | nil => simp [Transcript.systemFromJson, Transcript.stringField, arrayField, Transcript.arrayMember]
    | cons first rest => simp [Transcript.systemFromJson, Transcript.stringField, arrayField,
        Transcript.arrayMember, Json.asArray, Json.asString, Function.comp_def]
  rw [Shown.message, hsystem]
  simp only [Shown.system, hreadSections, hreadAdded, hreadRemoved, afterChanges, map_map]
  rfl

/-! ## What a replay shows -/

/-- Shown sections and tools: each name once, every section with a text, no tool with a sampling
constraint. -/
structure Shown.Tidy (shown : Shown) : Prop where
  sections : Prompt.Tidy shown.sections
  tools : (shown.tools.map (·.name)).Nodup
  read : ∀ tool ∈ shown.tools, tool.constrainedSampling = none

theorem tidy_replaySection (h : Tidy sections) (each : Section) : Tidy (replaySection sections each) ∧
      ∀ other ∈ replaySection sections each, other.name = each.name ∨ other ∈ sections := by
  induction sections with
  | nil =>
    unfold replaySection
    split
    · rename_i htext
      exact ⟨⟨by simp, by simpa using htext⟩, by simp⟩
    · exact ⟨h, by simp⟩
  | cons first rest ih =>
    have hnodup := List.nodup_cons.1 h.nodup
    have hrest : Tidy rest := ⟨hnodup.2, fun x hx => h.texts x (mem_cons_of_mem _ hx)⟩
    rw [replaySection]
    split
    · rename_i hname
      split
      · rename_i htext
        refine ⟨⟨?_, ?_⟩, ?_⟩
        · rw [map_cons, ← hname]
          exact h.nodup
        · intro x hx
          rcases List.mem_cons.1 hx with rfl | hx
          · exact htext
          · exact hrest.texts x hx
        · intro x hx
          rcases List.mem_cons.1 hx with rfl | hx
          · exact Or.inl rfl
          · exact Or.inr (mem_cons_of_mem _ hx)
      · exact ⟨hrest, fun x hx => Or.inr (mem_cons_of_mem _ hx)⟩
    · rename_i hname
      obtain ⟨htidy, hmem⟩ := ih hrest
      refine ⟨⟨?_, ?_⟩, ?_⟩
      · rw [map_cons, nodup_cons]
        refine ⟨?_, htidy.nodup⟩
        intro hin
        obtain ⟨x, hx, hxname⟩ := List.mem_map.1 hin
        rcases hmem x hx with hsame | hold
        · exact hname (hxname.symm.trans hsame)
        · exact hnodup.1 (List.mem_map.2 ⟨x, hold, hxname⟩)
      · intro x hx
        rcases List.mem_cons.1 hx with rfl | hx
        · exact h.texts x mem_cons_self
        · exact htidy.texts x hx
      · intro x hx
        rcases List.mem_cons.1 hx with rfl | hx
        · exact Or.inr mem_cons_self
        rcases hmem x hx with hsame | hold
        · exact Or.inl hsame
        · exact Or.inr (mem_cons_of_mem _ hold)

theorem tidy_sections (h : Tidy sections) (patch : List Section) : Tidy (patch.foldl replaySection sections) := by
  induction patch generalizing sections with
  | nil => exact h
  | cons each rest ih => exact ih (tidy_replaySection h each).1

/-- Distinct names, and no sampling constraint. -/
def TidyTools (tools : List Declaration) : Prop :=
  (tools.map (·.name)).Nodup ∧ ∀ tool ∈ tools, tool.constrainedSampling = none

theorem tidyTools_drop (h : TidyTools tools) (names : List Bytes) : TidyTools (names.foldl dropTool tools) := by
  rw [foldl_dropTool]
  exact ⟨h.1.sublist (List.filter_sublist.map _), fun tool htool => h.2 tool (List.mem_filter.1 htool).1⟩

theorem tidyTools_add (h : TidyTools tools) (hadded : ∀ tool ∈ added, tool.constrainedSampling = none) :
    TidyTools (added.foldl addTool tools) := by
  induction added generalizing tools with
  | nil => exact h
  | cons tool rest ih =>
    refine ih ⟨?_, ?_⟩ fun other hother => hadded other (mem_cons_of_mem _ hother)
    · rw [addTool, map_append, nodup_append]
      refine ⟨h.1.sublist (List.filter_sublist.map _), by simp, ?_⟩
      intro a ha b hb
      obtain ⟨other, hother, rfl⟩ := List.mem_map.1 ha
      simp only [map_cons, List.map_nil, mem_singleton] at hb
      rw [hb]
      simpa using (List.mem_filter.1 hother).2
    intro other hother
    rcases List.mem_append.1 hother with hother | hother
    · exact h.2 other (List.mem_filter.1 hother).1
    · rw [mem_singleton] at hother
      exact hother ▸ hadded tool mem_cons_self

theorem Shown.Tidy.message {shown : Shown} (h : shown.Tidy) (json : Json) : (shown.message json).Tidy := by
  unfold Shown.message
  split
  · rename_i message _
    have htools : TidyTools (shown.system message).tools := by
      refine tidyTools_add (tidyTools_drop ⟨h.tools, h.read⟩ _) ?_
      intro tool htool
      obtain ⟨read, -, rfl⟩ := List.mem_map.1 htool
      rfl
    exact ⟨tidy_sections h.sections _, htools.1, htools.2⟩
  · exact h

/-- **A run of the replay.** -/
theorem tidy_foldl {shown : Shown} (h : shown.Tidy) (messages : List Json) :
    (messages.foldl Shown.message shown).Tidy := by
  induction messages generalizing shown with
  | nil => exact h
  | cons json rest ih => exact ih (h.message json)

theorem tidy_replay (messages : List Json) : (replay messages).Tidy :=
  tidy_foldl ⟨⟨by simp, by simp⟩, by simp, by simp⟩ messages

/-! ## What the registry wants shown -/

/-- A `modelTools` value that names no tool twice. -/
def DistinctNames (modelTools : Json) : Prop :=
  (stringArray (some modelTools)).Nodup ∧ (stringArray (Transcript.member modelTools "add")).Nodup

/-- A snapshot with distinct section keys and tool names. -/
structure Snapshot.Distinct (snapshot : Snapshot) : Prop where
  sections : (snapshot.sections.map PromptSection.key).Nodup
  tools : (snapshot.tools.map fun tool => tool.declaration.name).Nodup

variable {snapshot : Snapshot}

theorem Snapshot.Distinct.desired (h : snapshot.Distinct) : Tidy snapshot.desired where
  nodup := by
    rw [Snapshot.desired, map_map]
    exact h.sections
  texts := by
    intro each heach
    obtain ⟨section_, -, rfl⟩ := List.mem_map.1 heach
    rfl

theorem Snapshot.tool_eq_some {name : Bytes} {tool : ToolRegistration}
    (h : snapshot.tool name = some tool) : tool ∈ snapshot.tools ∧ tool.declaration.name = name :=
  ⟨List.mem_of_find?_eq_some h, by simpa using List.find?_some h⟩

variable {modelTools : Json}

theorem offered_registered (h : tool ∈ offeredToolDeclarations snapshot modelTools) :
    ∃ registration ∈ snapshot.tools, registration.declaration = tool := by
  unfold offeredToolDeclarations at h
  split at h
  · obtain ⟨name, -, hname⟩ := List.mem_filterMap.1 h
    obtain ⟨registration, hfound, rfl⟩ := Option.map_eq_some_iff.1 hname
    exact ⟨registration, (Snapshot.tool_eq_some hfound).1, rfl⟩
  rcases List.mem_append.1 h with h | h
  · obtain ⟨registration, hin, rfl⟩ := List.mem_map.1 h
    exact ⟨registration, (List.mem_filter.1 hin).1, rfl⟩
  obtain ⟨name, -, hname⟩ := List.mem_filterMap.1 h
  obtain ⟨registration, hfound, hsome⟩ := Option.bind_eq_some_iff.1 hname
  split at hsome
  · cases hsome
    exact ⟨registration, (Snapshot.tool_eq_some hfound).1, rfl⟩
  · cases hsome

theorem offered_convertible
    (h : tool ∈ offeredToolDeclarations snapshot modelTools) : tool.Convertible := by
  obtain ⟨registration, -, rfl⟩ := offered_registered h
  exact registration.convertible

theorem names_filterMap {find : Bytes → Option Declaration} (names : List Bytes)
    (h : ∀ name tool, find name = some tool → tool.name = name) :
    ((names.filterMap find).map (·.name)).Sublist names := by
  induction names with
  | nil => exact List.Sublist.refl _
  | cons name rest ih =>
    cases hfind : find name with
    | none =>
      rw [List.filterMap_cons_none hfind]
      exact ih.cons name
    | some tool =>
      rw [List.filterMap_cons_some hfind, map_cons, h name tool hfind]
      exact ih.cons_cons name

theorem offered_nodup (hsnap : snapshot.Distinct) (hnames : DistinctNames modelTools) :
    ((offeredToolDeclarations snapshot modelTools).map (·.name)).Nodup := by
  unfold offeredToolDeclarations
  split
  · refine hnames.1.sublist (names_filterMap _ ?_)
    intro name tool htool
    obtain ⟨registration, hfound, rfl⟩ := Option.map_eq_some_iff.1 htool
    exact (Snapshot.tool_eq_some hfound).2
  dsimp only
  have hdeferred : ∀ name tool, ((snapshot.tool name).bind fun registration =>
      if registration.deferred && !(stringArray (Transcript.member modelTools "remove")).contains name
      then some registration.declaration else none) = some tool →
      ∃ registration ∈ snapshot.tools, registration.declaration = tool ∧
        registration.deferred = true ∧ tool.name = name := by
    intro name tool htool
    obtain ⟨registration, hfound, hsome⟩ := Option.bind_eq_some_iff.1 htool
    split at hsome
    · rename_i hguard
      cases hsome
      rw [and_eq_true] at hguard
      exact ⟨registration, (Snapshot.tool_eq_some hfound).1, rfl, hguard.1, (Snapshot.tool_eq_some hfound).2⟩
    · cases hsome
  rw [map_append, nodup_append]
  refine ⟨?_, ?_, ?_⟩
  · rw [map_map]
    exact hsnap.tools.sublist (List.filter_sublist.map _)
  · refine hnames.2.sublist (names_filterMap _ ?_)
    intro name tool htool
    obtain ⟨-, -, -, -, hname⟩ := hdeferred name tool htool
    exact hname
  · -- A tool of the first part is not deferred and one of the second is.
    intro first hfirst second hsnd heq
    obtain ⟨tool, htool, rfl⟩ := List.mem_map.1 hfirst
    obtain ⟨registration, hin, rfl⟩ := List.mem_map.1 htool
    obtain ⟨hreg, hguard⟩ := List.mem_filter.1 hin
    obtain ⟨other, hother, rfl⟩ := List.mem_map.1 hsnd
    obtain ⟨name, -, hname⟩ := List.mem_filterMap.1 hother
    obtain ⟨deferred, hdeferredIn, rfl, hflag, -⟩ := hdeferred name other hname
    have hsame : registration = deferred := List.inj_on_of_nodup_map hsnap.tools hreg hdeferredIn heq
    rw [hsame, hflag] at hguard
    cases hguard

/-! ## The planned messages together -/

theorem planSections_nodup {shown desired : List Section} (hshown : Tidy shown)
    (hdesired : Tidy desired) {patch : List Section} (h : patch ∈ planSections shown desired) :
    (patch.map Section.name).Nodup := by
  have hpatched : ∀ list : List Section,
      ((list.filterMap (patchShown desired)).map Section.name).Sublist (list.map Section.name) := by
    intro list
    induction list with
    | nil => exact List.Sublist.refl _
    | cons each rest ih =>
      cases hpatch : patchShown desired each with
      | none =>
        rw [List.filterMap_cons_none hpatch]
        exact ih.cons _
      | some next =>
        have hname : next.name = each.name := by
          unfold patchShown at hpatch
          split at hpatch
          · cases hpatch
            rfl
          rename_i wantedNext hwanted
          split at hpatch
          · cases hpatch
          · cases hpatch
            exact (wanted_eq_some hwanted).2
        rw [List.filterMap_cons_some hpatch, map_cons, hname]
        exact ih.cons_cons _
  unfold planSections at h
  dsimp only at h
  split at h
  · split at h
    · cases h
    · rw [mem_singleton] at h
      subst h
      rw [map_append, nodup_append]
      refine ⟨hshown.nodup.sublist (hpatched shown), hdesired.nodup.sublist (List.filter_sublist.map _), ?_⟩
      intro a ha b hb heq
      obtain ⟨each, heach, rfl⟩ := List.mem_map.1 ((hpatched shown).subset ha)
      obtain ⟨fresh, hfresh, rfl⟩ := List.mem_map.1 hb
      have hnot := (List.mem_filter.1 hfresh).2
      have hshownName : isShown shown fresh = true := List.any_eq_true.2 ⟨each, heach, by simpa using heq⟩
      rw [hshownName] at hnot
      cases hnot
  simp only [List.mem_cons, List.not_mem_nil, or_false] at h
  rcases h with rfl | rfl
  · rw [map_map]
    exact hshown.nodup
  · exact hdesired.nodup

/-- **The planned messages, written and read**, apply every section patch and the tool changes. -/
theorem replay_systemMessages (timestamp : Int) {changes : ToolChanges}
    (htools : ∀ tool ∈ changes.added, tool.Convertible) {patches : List (List Section)}
    (hpatches : ∀ patch ∈ patches, (patch.map Section.name).Nodup) (shown : Shown) :
    ∃ jsons, (systemMessages timestamp changes patches).mapM systemJson = .ok jsons ∧
      (∀ json ∈ jsons, Context.isSystem json = true) ∧ jsons.foldl Shown.message shown =
        { sections := patches.foldl (fun sections patch => patch.foldl replaySection sections)
            shown.sections
          tools := afterChanges shown.tools changes } := by
  induction patches generalizing shown with
  | nil =>
    rw [systemMessages]
    split
    · rename_i hempty
      simp only [and_eq_true, List.isEmpty_iff] at hempty
      refine ⟨[], rfl, by simp, ?_⟩
      simp [afterChanges, hempty.1, hempty.2]
    obtain ⟨json, hjson, hsystem, hmsg⟩ := message_systemJson
      ⟨[], changes.added, changes.removed, timestamp⟩ (by simp) htools
    refine ⟨[json], ?_, by simpa using hsystem, ?_⟩
    · rw [mapM_cons, hjson]
      rfl
    · rw [foldl_cons, hmsg]
      rfl
  | cons patch rest ih =>
    cases rest with
    | nil =>
      obtain ⟨json, hjson, hsystem, hmsg⟩ := message_systemJson ⟨patch, changes.added, changes.removed, timestamp⟩
        (hpatches patch mem_cons_self) htools
      refine ⟨[json], ?_, by simpa using hsystem, ?_⟩
      · rw [systemMessages, mapM_cons, hjson]
        rfl
      · rw [foldl_cons, hmsg]
        rfl
    | cons second rest =>
      obtain ⟨json, hjson, hsystem, hmsg⟩ := message_systemJson
        ⟨patch, [], [], timestamp⟩ (hpatches patch mem_cons_self) (by simp)
      obtain ⟨jsons, hjsons, hsystems, hfold⟩ := ih
        (fun other hother => hpatches other (mem_cons_of_mem _ hother)) (shown.message json)
      refine ⟨json :: jsons, ?_, ?_, ?_⟩
      · rw [systemMessages, mapM_cons, hjson, hjsons]
        · rfl
        · simp
      · intro other hother
        rcases List.mem_cons.1 hother with rfl | hother
        · exact hsystem
        · exact hsystems other hother
      · rw [foldl_cons, hfold, hmsg]
        rfl

end Prompt

end CodingHarness.Durable
