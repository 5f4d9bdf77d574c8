import CallFlow.Proofs.Compile.SameScript

/-
  A flow without its blank texts is checked and planned as the
  flow is.

  Blank texts are taken out of the settings of every node.
  What is then read under a name is the same as before, except
  for a blank text itself, and no part of the check and no
  emitter looks at one: it counts as absent where it is
  required, and is left out where it is not.  The links and
  keys are untouched, so the findings, the listings and the
  charts of a flow stay as they are.

  Main declarations:
    * `Settings.given?`
    * `Settings.cleared`
    * `Flow.cleared`
    * `Flow.Sound.cleared`
    * `Flow.Sound.findings_cleared`
    * `Resolver.Rejects`
    * `Flow.Charts.cleared`
-/

namespace CallFlow

------------------------------------------------------------
-- Settings
------------------------------------------------------------

namespace Settings

/- The value under a name, unless it is a blank text. -/
def given?
    (s : Settings)
    (name : String) : Option Value :=
  (s.get? name).filter fun v => !v.isBlank

/- The settings that are no blank texts. -/
def cleared
    (s : Settings) : Settings :=
  s.filter fun v => !v.isBlank

variable {s : Settings}
variable {name : String}

/- Looking up what is left. -/
theorem get?_cleared : s.cleared.get? name = s.given? name :=
  NameMap.get?_filter _ _ _

/- Settings with the same values are cleared to the same. -/
theorem cleared_eq_iff
    {s' : Settings} :
    s.cleared = s'.cleared ↔
      ∀ name, s.given? name = s'.given? name := by
  constructor
  · intro h name
    rw [← get?_cleared, h, get?_cleared]
  · intro h
    apply NameMap.ext_get?
    intro name
    rw [get?_cleared, get?_cleared, h name]

/- A text that is not blank is read as before. -/
@[simp] theorem text?_cleared :
    s.cleared.text? name = s.filled? name := by
  unfold filled? text?
  rw [get?_cleared, given?]
  cases s.get? name with
  | none => rfl
  | some v =>
      cases v with
      | flag b => rfl
      | integer n => rfl
      | text t =>
          cases hBlank : Text.isBlank t <;>
            simp [Option.filter, Value.isBlank, Value.text?,
              hBlank]

@[simp] theorem filled?_cleared :
    s.cleared.filled? name = s.filled? name := by
  show (s.cleared.text? name).filter _ = s.filled? name
  rw [text?_cleared, filled?, Option.filter_filter]
  simp

/- What a blank text is not read as is read as before. -/
private theorem bind_get?_cleared
    {α : Type}
    {f : Value → Option α}
    (h : ∀ v, v.isBlank = true → f v = none) :
    (s.cleared.get? name).bind f = (s.get? name).bind f := by
  rw [get?_cleared, given?]
  cases s.get? name with
  | none => rfl
  | some v =>
      cases hBlank : v.isBlank with
      | false => simp [Option.filter, hBlank]
      | true => simp [Option.filter, hBlank, h v hBlank]

/- A number is not a text. -/
@[simp] theorem count?_cleared :
    s.cleared.count? name = s.count? name := by
  have hNumber :
      s.cleared.integer? name = s.integer? name := by
    refine bind_get?_cleared fun v hBlank => ?_
    cases v with
    | integer n => cases hBlank
    | _ => rfl
  unfold count?
  rw [hNumber]

/- Nor is a flag. -/
@[simp] theorem isSet_cleared :
    s.cleared.isSet name = s.isSet name := by
  unfold isSet
  rw [bind_get?_cleared]
  intro v hBlank
  cases v with
  | flag b => cases hBlank
  | _ => rfl

end Settings

namespace StepKind

variable {k : StepKind}
variable {s : Settings}

/- A blank text is missing as an absent one is. -/
@[simp] theorem missingParams_cleared :
    k.missingParams s.cleared = k.missingParams s := by
  unfold missingParams
  congr 2
  funext p
  rw [Settings.get?_cleared, Settings.given?]
  cases s.get? p.name with
  | none => rfl
  | some v =>
      cases hBlank : v.isBlank <;>
        simp [Option.filter, hBlank]

@[simp] theorem endsCall_cleared :
    k.endsCall s.cleared = k.endsCall s := by
  unfold endsCall
  simp

@[simp] theorem offersReturn_cleared :
    k.offersReturn s.cleared = k.offersReturn s := by
  unfold offersReturn
  simp

/- What is left could be written if all could. -/
theorem Admits.cleared
    (h : k.Admits s) : k.Admits s.cleared := by
  intro name v hValue
  rw [Settings.get?_cleared, Settings.given?,
    Option.filter_eq_some_iff] at hValue
  exact h name v hValue.1

end StepKind

------------------------------------------------------------
-- Nodes
------------------------------------------------------------

/- A resolver that has no audio under a blank name. -/
def Resolver.Rejects
    (r : Resolver) : Prop :=
  ∀ name, Text.isBlank name = true →
    ∃ e, r name = .error e

namespace Node

/- A node without its blank texts. -/
def cleared
    (n : Node) : Node :=
  { n with settings := n.settings.cleared }

variable {n : Node}
variable {r : Resolver}

/- No sound was heard for a blank name. -/
theorem heard_cleared
    (h : r.Rejects) : n.cleared.heard r = n.heard r := by
  funext p
  unfold heard sound?
  show (if p ∈ n.kind.audioParams then
      (n.settings.cleared.text? p).bind _ else none) = _
  congr 1
  rw [Settings.text?_cleared, Settings.filled?]
  cases n.settings.text? p with
  | none => rfl
  | some name =>
      cases hBlank : Text.isBlank name with
      | false => simp [Option.filter, hBlank]
      | true =>
          rcases h name hBlank with ⟨e, hError⟩
          simp [Option.filter, hBlank, hError, Except.toOption]

/- The same is emitted for a node without blank texts. -/
theorem standard_cleared
    (h : r.Rejects) :
    Emitter.standard n.cleared.kind n.cleared
        (n.cleared.heard r) =
      Emitter.standard n.kind n (n.heard r) := by
  rw [heard_cleared h]
  show Emitter.standard n.kind _ _ = _
  cases n.kind <;>
    simp [Emitter.standard, Emitter.play, Emitter.collect,
      Emitter.agent, Emitter.number, Emitter.hangup, cleared]

end Node

------------------------------------------------------------
-- Flows
------------------------------------------------------------

namespace Flow

/- A flow without the blank texts of its nodes. -/
def cleared
    (t : Flow) : Flow :=
  { t with nodes := t.nodes.map fun _ n => n.cleared }

variable {t : Flow}
variable {id : String}

@[simp] theorem get?_cleared :
    t.cleared.get? id = (t.get? id).map Node.cleared :=
  NameMap.get?_map _ _ _

@[simp] theorem rootId_cleared :
    t.cleared.rootId = t.rootId :=
  rfl

/- The entries are those of the flow, one by one. -/
theorem entries_cleared :
    t.cleared.nodes.entries =
      t.nodes.entries.map fun e => (e.1, e.2.cleared) :=
  rfl

@[simp] theorem size_cleared : t.cleared.size = t.size := by
  unfold size NameMap.size
  rw [entries_cleared, List.length_map]

@[simp] theorem contains_cleared :
    t.cleared.contains id = t.contains id := by
  rw [contains_eq_isSome, contains_eq_isSome, get?_cleared,
    Option.isSome_map]

@[simp] theorem parentId?_cleared :
    t.cleared.parentId? id = t.parentId? id := by
  unfold parentId?
  rw [get?_cleared]
  cases t.get? id <;> rfl

@[simp] theorem childIds_cleared :
    t.cleared.childIds id = t.childIds id := by
  unfold childIds
  rw [get?_cleared]
  cases t.get? id <;> rfl

@[simp] theorem hasKey_cleared
    {key : Option Key} :
    t.cleared.hasKey key id = t.hasKey key id := by
  unfold hasKey
  rw [get?_cleared]
  cases t.get? id <;> rfl

@[simp] theorem childByKey?_cleared
    {key : Option Key} :
    t.cleared.childByKey? id key = t.childByKey? id key := by
  unfold childByKey? childByKeyExcept?
  simp

@[simp] theorem branches_cleared :
    t.cleared.branches id = t.branches id := by
  unfold branches
  rw [get?_cleared]
  cases t.get? id <;> rfl

@[simp] theorem offersReturn_cleared :
    t.cleared.offersReturn id = t.offersReturn id := by
  unfold offersReturn
  rw [get?_cleared]
  cases t.get? id with
  | none => rfl
  | some n => exact StepKind.offersReturn_cleared

@[simp] theorem ancestor?_cleared
    {k : Nat} :
    t.cleared.ancestor? k id = t.ancestor? k id := by
  induction k generalizing id with
  | zero => rfl
  | succ k ih =>
      unfold ancestor?
      rw [parentId?_cleared]
      congr 1
      funext p
      exact ih

------------------------------------------------------------
-- Listings
------------------------------------------------------------

/- A walk goes along the links. -/
private theorem walk_cleared
    (turns : Nat)
    (seen ids : List String) :
    t.cleared.walk turns seen ids = t.walk turns seen ids := by
  induction turns generalizing seen ids with
  | zero => rfl
  | succ turns ih =>
      cases ids with
      | nil => rfl
      | cons id rest =>
          unfold walk
          rw [childIds_cleared, ih, ih]

@[simp] theorem preorder_cleared :
    t.cleared.preorder = t.preorder := by
  have hLinks : t.cleared.linkCount = t.linkCount := by
    unfold linkCount
    rw [entries_cleared, List.flatMap_map]
    rfl
  have hContains : t.cleared.contains = t.contains :=
    funext fun _ => contains_cleared
  unfold preorder listing
  rw [rootId_cleared, hLinks, walk_cleared, hContains]

@[simp] theorem comesTo_cleared :
    t.cleared.comesTo id = t.comesTo id := by
  have hAbove (steps : Nat) (id : String) :
      t.cleared.ancestorsWithin steps id =
        t.ancestorsWithin steps id := by
    induction steps generalizing id with
    | zero => rfl
    | succ steps ih =>
        unfold ancestorsWithin
        rw [parentId?_cleared]
        cases t.parentId? id with
        | none => rfl
        | some p => exact congrArg (p :: ·) (ih p)
  have hBranches : t.cleared.branches = t.branches :=
    funext fun _ => branches_cleared
  unfold comesTo
  rw [size_cleared, hAbove, hBranches]

------------------------------------------------------------
-- Findings
------------------------------------------------------------

/- A sound flow stays sound. -/
theorem Sound.cleared
    (h : t.Sound) : t.cleared.Sound := by
  rcases h.root with ⟨n, hNode, hParent, hKey⟩
  refine {
    root := ⟨n.cleared, ?_, hParent, hKey⟩
    parented := ?_
    links := ?_
    once := ?_
    parents := ?_
    climbs := ?_
    keys := ?_
    settings := ?_ }
  · rw [get?_cleared, rootId_cleared, hNode]
    rfl
  · intro id n' hNode' hNotRoot
    rw [get?_cleared] at hNode'
    rcases Option.map_eq_some_iff.mp hNode' with
      ⟨n, hNode, rfl⟩
    exact h.parented id n hNode hNotRoot
  · simpa using h.links
  · simpa using h.once
  · simpa using h.parents
  · simpa using h.climbs
  · simpa using h.keys
  · intro id n' hNode'
    rw [get?_cleared] at hNode'
    rcases Option.map_eq_some_iff.mp hNode' with
      ⟨n, hNode, rfl⟩
    exact (h.settings id n hNode).cleared

/-
  The problems of a sound flow are the parameters that are
  missing, and the leaves that have children.
-/
theorem Sound.problems_eq
    (h : t.Sound) :
    t.problems =
      (t.nodes.entries.flatMap fun e =>
        (e.2.kind.missingParams e.2.settings).map
          (.missingParam e.1 e.2.kind e.2.label)) ++
        t.leafProblems := by
  rcases (t.clean_iff).mp h.clean with
    ⟨hRoot, hLinks, hCycles, hReach, hKeys, hSettings⟩
  unfold problems
  rw [hRoot, hLinks, hCycles, hReach, hKeys]
  simp only [List.nil_append]
  congr 1
  unfold paramProblems
  refine List.flatMap_congr fun e he => ?_
  rw [hSettings e.1 e.2
    ((t.nodes.mem_entries_iff e.1 e.2).mp he)]
  rfl

/- The findings about a sound flow stay as they are. -/
theorem Sound.findings_cleared
    (h : t.Sound) : t.cleared.findings = t.findings := by
  unfold findings
  rw [h.problems_eq, h.cleared.problems_eq]
  unfold leafProblems
  rw [entries_cleared, List.flatMap_map,
    List.filterMap_map]
  simp only [Node.cleared, StepKind.missingParams_cleared]
  rfl

------------------------------------------------------------
-- Charts
------------------------------------------------------------

/- No plan sees that blank texts are left out. -/
theorem mirrors_cleared
    {r : Resolver}
    (hRejects : r.Rejects)
    (o : Options) :
    Mirrors (.withOptions o) r t t.cleared Eq where
  node := by
    rintro id _ n rfl hNode
    refine ⟨n.cleared, ?_, ?_, StepKind.endsCall_cleared,
      rfl⟩
    · rw [get?_cleared, hNode]
      rfl
    · rw [Compiler.emitters_withOptions]
      exact Node.standard_cleared hRejects
  selects := by
    rintro id _ n rfl - - key
    rw [childByKey?_cleared]
    cases t.childByKey? id key with
    | none => exact .none
    | some c => exact .some rfl
  returnsOn := by
    rintro id _ n rfl - - key
    unfold returnsOn
    rw [rootId_cleared, offersReturn_cleared]

/- A plan that charts a flow charts it without blank texts. -/
theorem Charts.cleared
    {o : Options}
    {r : Resolver}
    (hRejects : r.Rejects)
    {p : Plan}
    (h : t.Charts (.withOptions o) r id p) :
    t.cleared.Charts (.withOptions o) r id p :=
  h.mirrored (mirrors_cleared hRejects o) rfl

end Flow

end CallFlow
