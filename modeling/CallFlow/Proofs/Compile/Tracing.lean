import CallFlow.Proofs.Compile.Outcome
import CallFlow.Proofs.Compile.Stacking

/-
  Compiling a flow, with a record of what is asked for.

  Plans and sounds are made in any monad, so that what is
  asked of emitters and of the resolver can be recorded.  The
  plan is made by recursion on the ids of children, which
  opens a menu where there are children and the kind can
  branch.  It goes down as far as it may, and what lies deeper
  is given.  Where an outline leaves nothing out, the same
  bound is enough for the recursion: it makes the plan of the
  outline, and asks the emitters about the nodes that are
  emitted, each of them once.

  Main declarations:
    * `Flow.planBy`
    * `Traced.Covers`
    * `Traced.Covers.bind`
    * `Outline.planRoutes`
    * `Outline.covers_planBy`
    * `Compiler.resolveBy`
    * `Compiler.resolveBy_asked`
-/

namespace CallFlow

------------------------------------------------------------
-- Plans by Recursion on Ids
------------------------------------------------------------

/-
  The plan of a node, with a way to ask for the action of a
  node, and with what is given for a node that is too deep.
-/
def Flow.planBy
    {m : Type → Type}
    [Monad m]
    (t : Flow)
    (action : String × Node → m (List Instr))
    (tooDeep : m Plan)
    (returnKey : Key) :
    Nat → Bool → String × Node → m Plan
  | 0, _, _ => tooDeep
  | depth + 1, first, e => do
      let instrs ← action e
      if e.2.opensMenu then
        let routes := e.2.choices returnKey first none
          ((t.childNodes e.2).map fun c => (c.2.key, some c))
        let choices ← routes.mapM fun c => do
          let p ← c.2.elim (pure .back)
            (t.planBy action tooDeep returnKey depth false)
          return (c.1, p)
        return .menu instrs choices
      else
        return .leaf instrs (e.2.kind.endsCall e.2.settings)

/-
  What may come to no end, or else may fail, and records the
  nodes that emitters are asked about.
-/
abbrev Traced : Type → Type :=
  ExceptT CompileError (StateT (List (String × Node)) Option)

namespace Traced

variable {α β : Type}

/- Ask the emitter of a node for its action. -/
def action
    (emitters : Emitters)
    (sounds : List Sound)
    (e : String × Node) : Traced (List Instr) := do
  modify (· ++ [e])
  ExceptT.mk (pure (e.2.action emitters sounds e.1))

/- There is no end. -/
def endless : Traced α :=
  ExceptT.mk fun _ => none

/- What comes out from the start, and what was recorded. -/
def trace?
    (b : Traced α) :
    Option (Except CompileError α × List (String × Node)) :=
  b.run.run []

/- There is an end, with a result and more on the record. -/
def Yields
    (b : Traced α)
    (result : Except CompileError α)
    (asked : List (String × Node)) : Prop :=
  ∀ before, b.run.run before = some (result, before ++ asked)

/-
  There is an end, with a result.  The emitters are asked
  about some nodes, in some order, up to one that fails.
-/
def Covers
    (b : Traced α)
    (result : Except CompileError α)
    (nodes : List (String × Node)) : Prop :=
  ∃ asked, b.Yields result asked ∧ asked.Subperm nodes ∧
    ∀ a, result = .ok a → asked.Perm nodes

/- Nothing is asked for a result that is there. -/
theorem Covers.pure
    (a : α) : Covers (Pure.pure a) (.ok a) [] := by
  refine ⟨[], fun before => ?_, List.Subperm.refl _,
    fun _ _ => .refl _⟩
  rw [List.append_nil]
  rfl

/- One emitter is asked for an action. -/
theorem Covers.action
    {emitters : Emitters}
    {sounds : List Sound}
    {e : String × Node} :
    Covers (Traced.action emitters sounds e)
      (e.2.action emitters sounds e.1) [e] :=
  ⟨[e], fun _ => rfl, List.Subperm.refl _,
    fun _ _ => .refl _⟩

/- It does not matter in which order the nodes are listed. -/
theorem Covers.perm
    {b : Traced α}
    {x : Except CompileError α}
    {nodes nodes' : List (String × Node)}
    (h : b.Covers x nodes)
    (hSame : nodes.Perm nodes') : b.Covers x nodes' := by
  rcases h with ⟨asked, hYields, hSome, hAll⟩
  exact ⟨asked, hYields, hSome.trans hSame.subperm,
    fun a ha => (hAll a ha).trans hSame⟩

/- What is asked first comes first, and alone if it fails. -/
theorem Covers.bind
    {b : Traced α}
    {f : α → Traced β}
    {x : Except CompileError α}
    {g : α → Except CompileError β}
    {nodes nodes' : List (String × Node)}
    (h : b.Covers x nodes)
    (hNext : ∀ a, x = .ok a → (f a).Covers (g a) nodes') :
    Covers (b >>= f) (x >>= g) (nodes ++ nodes') := by
  rcases h with ⟨asked, hYields, hSome, hAll⟩
  cases x with
  | error e =>
      -- Nothing more is asked after a failure.
      refine ⟨asked, fun before => ?_,
        hSome.trans
          (List.sublist_append_left _ _).subperm, nofun⟩
      show (b.run.run before).bind _ = _
      rw [hYields before]
      rfl
  | ok a =>
      rcases hNext a rfl with
        ⟨asked', hYields', hSome', hAll'⟩
      have hAsked : asked.Perm nodes := hAll a rfl
      refine ⟨asked ++ asked', fun before => ?_,
        ((List.subperm_append_left asked).mpr hSome').trans
          (hAsked.append_right nodes').subperm,
        fun b hb => hAsked.append (hAll' b hb)⟩
      show (b.run.run before).bind _ = _
      rw [hYields before, ← List.append_assoc]
      exact hYields' (before ++ asked)

end Traced

section Plans

variable {t : Flow}
variable {emitters : Emitters}
variable {sounds : List Sound}
variable {returnKey : Key}
variable {first : Bool}
variable {step : Node}

/- The plan of what a choice leads to, if not back. -/
def Outline.planRoute
    (emitters : Emitters)
    (sounds : List Sound)
    (returnKey : Key)
    (child : Option Outline) : Except CompileError Plan :=
  child.elim (.ok .back)
    (plan emitters sounds returnKey false)

/- The choices that some routes lead to, planned in turn. -/
def Outline.planRoutes
    (emitters : Emitters)
    (sounds : List Sound)
    (returnKey : Key)
    (routes : List (Option Key × Option Outline)) :
    Except CompileError (List (Option Key × Plan)) :=
  (routes.map fun c =>
    (c.1, planRoute emitters sounds returnKey c.2)).mapM
      Plan.settled

/- The first route is planned before the others. -/
theorem Outline.planRoutes_cons
    (c : Option Key × Option Outline)
    (rest : List (Option Key × Option Outline)) :
    planRoutes emitters sounds returnKey (c :: rest) =
      planRoute emitters sounds returnKey c.2 >>= fun p =>
        planRoutes emitters sounds returnKey rest >>=
          fun ps => .ok ((c.1, p) :: ps) := by
  unfold planRoutes
  rw [List.map_cons, List.mapM_cons]
  cases planRoute emitters sounds returnKey c.2 <;> rfl

/- Routes are planned before those that come after them. -/
theorem Outline.planRoutes_append
    (routes routes' : List (Option Key × Option Outline)) :
    planRoutes emitters sounds returnKey (routes ++ routes') =
      planRoutes emitters sounds returnKey routes >>=
        fun ps =>
          planRoutes emitters sounds returnKey routes' >>=
            fun ps' => .ok (ps ++ ps') := by
  unfold planRoutes
  rw [List.map_append, List.mapM_append]
  rfl

/- The choices of a menu are planned one after the other. -/
private theorem Outline.covers_choices
    {f : String × Node → Traced Plan}
    {routes : List (Option Key × Option Outline)}
    (h :
      ∀ c ∈ routes, ∀ o, c.2 = some o →
        (f o.top).Covers
          (o.plan emitters sounds returnKey false)
          o.emitted) :
    Traced.Covers
      ((routes.map fun c => (c.1, c.2.map top)).mapM fun c => do
        let p ← c.2.elim (pure Plan.back) f
        return (c.1, p))
      (planRoutes emitters sounds returnKey routes)
      (routes.flatMap fun c => c.2.elim [] emitted) := by
  induction routes with
  | nil => exact .pure []
  | cons c rest ih =>
      have hRest := ih fun d hd =>
        h d (List.mem_cons_of_mem c hd)
      have hHead :
          Traced.Covers ((c.2.map top).elim (pure .back) f)
            (planRoute emitters sounds returnKey c.2)
            (c.2.elim [] emitted) := by
        cases hRoute : c.2 with
        | none => exact .pure Plan.back
        | some o => exact h c List.mem_cons_self o hRoute
      rw [planRoutes_cons]
      simp only [List.map_cons, List.mapM_cons, bind_assoc,
        pure_bind, List.flatMap_cons]
      refine hHead.bind fun p _ => ?_
      rw [← List.append_nil (List.flatMap _ rest)]
      exact hRest.bind fun ps _ => .pure _

/- The routes of a menu, before anything is planned. -/
def Outline.routes
    (returnKey : Key)
    (first : Bool)
    (step : Node)
    (children : List Outline) :
    List (Option Key × Option Outline) :=
  step.choices returnKey first none
    (children.map fun o => (o.key?, some o))

/- The routes that the recursion on ids takes. -/
theorem Outline.choices_top_eq_map
    (children : List Outline) :
    step.choices returnKey first none
        ((children.map top).map fun c => (c.2.key, some c)) =
      (routes returnKey first step children).map fun c =>
        (c.1, c.2.map top) := by
  have hKey : ∀ o : Outline, o.top.2.key = o.key? := by
    rintro ⟨id, n, children⟩
    rfl
  unfold routes
  rw [Node.map_choices (Option.map top), List.map_map,
    List.map_map]
  simp only [Function.comp_def, hKey]
  rfl

/- The routes that the plan of the outline takes. -/
theorem Outline.mapM_settled_choices
    (children : List Outline) :
    (step.choices returnKey first (.ok .back)
        (planAll emitters sounds returnKey children)).mapM
          Plan.settled =
      planRoutes emitters sounds returnKey
        (routes returnKey first step children) := by
  unfold planRoutes routes
  rw [Node.map_choices (planRoute emitters sounds returnKey),
    planAll_eq_map, List.map_map]
  rfl

/- The routes lead to the children, apart from the way back. -/
private theorem Outline.flatMap_routes_perm
    (children : List Outline) :
    ((routes returnKey first step children).flatMap fun c =>
        c.2.elim [] emitted).Perm (emittedAll children) := by
  refine (Node.flatMap_choices_perm fun _ => rfl).trans ?_
  rw [emittedAll_eq_flatMap, List.flatMap_map]
  exact List.Perm.refl _

/- A route that is not the way back leads to a child. -/
theorem Outline.of_mem_routes
    {children : List Outline}
    {c : Option Key × Option Outline}
    (h : c ∈ routes returnKey first step children)
    {o : Outline}
    (hRoute : c.2 = some o) : o ∈ children := by
  rcases Node.mem_choices_iff.mp h with
    hChild | ⟨-, -, -, rfl⟩
  · rcases List.mem_map.mp hChild with ⟨x, hx, rfl⟩
    cases hRoute
    exact hx
  · cases hRoute

/- An outline down to some depth is that of a child below. -/
theorem Outline.outlineWithin?_child
    {depth : Nat}
    {id : String}
    {step : Node}
    {children : List Outline}
    (h :
      t.outlineWithin? (depth + 1) id =
        some (.node id step children))
    {o : Outline}
    (ho : o ∈ children) :
    t.outlineWithin? depth o.id = some o := by
  rcases Option.map_eq_some_iff.mp h with ⟨n, hNode, hSame⟩
  cases hSame
  rcases List.mem_filterMap.mp ho with ⟨c, hc, hSome⟩
  have hId : o.id = c := by
    cases depth with
    | zero => cases hSome
    | succ depth =>
        rcases Option.map_eq_some_iff.mp hSome with
          ⟨m, -, rfl⟩
        rfl
  rw [hId]
  exact hSome

/-
  The stack goes by kinds alone, and menus by children too.
  Nothing is emitted below a node without children.
-/
private theorem Outline.emitted_node
    {id : String}
    {step : Node}
    {children : List Outline}
    (hIds : children.map Outline.id = step.children) :
    emitted (.node id step children) =
      [(id, step)] ++
        if step.opensMenu then emittedAll children
        else [] := by
  unfold emitted Node.opensMenu
  rw [← hIds]
  cases children with
  | nil => simp [emittedAll]
  | cons o os => simp

/- A plan made by recursion is the plan of the outline. -/
theorem Outline.covers_planBy
    {depth : Nat}
    {o : Outline}
    (hShows : o.Shows t)
    (hOutline : t.outlineWithin? depth o.id = some o)
    (first : Bool) :
    Traced.Covers
      (t.planBy (Traced.action emitters sounds)
        Traced.endless returnKey depth first o.top)
      (o.plan emitters sounds returnKey first)
      o.emitted := by
  -- The recursion has the same bound as the outline, which is
  -- known to leave no child out.
  induction depth generalizing o first with
  | zero => cases hOutline
  | succ depth ih =>
      cases hShows with
      | @node id step children hNode hIds hChildren =>
          unfold plan
          rw [emitted_node hIds]
          refine Traced.Covers.action.bind fun instrs _ => ?_
          show Traced.Covers (if step.opensMenu then _ else _)
            _ _
          by_cases hMenu : step.opensMenu = true
          · rw [if_pos hMenu, if_pos hMenu, if_pos hMenu,
              ← List.append_nil (emittedAll children)]
            refine .bind ?_ fun choices _ => .pure _
            show Traced.Covers ((step.choices _ _ _
              ((t.childNodes step).map _)).mapM _) _ _
            rw [childNodes_eq hIds hChildren,
              choices_top_eq_map, mapM_settled_choices]
            refine .perm (covers_choices fun c hc o ho => ?_)
              (flatMap_routes_perm children)
            have hMem : o ∈ children :=
              of_mem_routes hc ho
            exact ih (hChildren o hMem)
              (outlineWithin?_child hOutline hMem) false
          · rw [if_neg hMenu, if_neg hMenu, if_neg hMenu]
            exact .pure _

end Plans

------------------------------------------------------------
-- Audio Asked For
------------------------------------------------------------

section Audio

/-
  Ask for the audio of a parameter, if the node names any,
  after some sounds and problems have been found.
-/
def Node.askBy
    {m : Type → Type}
    [Monad m]
    (ask : String → m (Except AudioError String))
    (id : String)
    (n : Node)
    (found : List Sound × List Problem)
    (p : String) : m (List Sound × List Problem) :=
  match n.settings.text? p with
  | none => pure found
  | some name => do
      match ← ask name with
      | .ok location =>
          return (found.1 ++ [⟨id, p, location⟩], found.2)
      | .error e =>
          return (found.1, found.2 ++
            [.unresolvedAudio id n.kind n.label e])

/- Ask for the audio of some nodes, parameter by parameter. -/
def Compiler.resolveBy
    {m : Type → Type}
    [Monad m]
    (ask : String → m (Except AudioError String))
    (nodes : List (String × Node)) :
    m (List Sound × List Problem) :=
  nodes.foldlM
    (fun found e =>
      e.2.kind.audioParams.foldlM (e.2.askBy ask e.1) found)
    ([], [])

/- Ask a resolver, and record the name. -/
def Resolver.asked
    (r : Resolver)
    (name : String) :
    StateM (List String) (Except AudioError String) := do
  modify (· ++ [name])
  return r name

variable {r : Resolver}

/- A step asks for some audio, name by name. -/
private def Asks
    (r : Resolver)
    (step :
      List Sound × List Problem →
        StateM (List String) (List Sound × List Problem))
    (asked : List AudioRequest) : Prop :=
  ∀ found names,
    (step found).run names =
      ((found.1 ++ AudioRequest.sounds r asked,
          found.2 ++ AudioRequest.problems r asked),
        names ++ asked.map AudioRequest.name)

/- Steps over a list ask for what each of them asks for. -/
private theorem asks_foldlM
    {α : Type}
    {l : List α}
    {f :
      List Sound × List Problem → α →
        StateM (List String) (List Sound × List Problem)}
    {asked : α → List AudioRequest}
    (h : ∀ a ∈ l, Asks r (f · a) (asked a)) :
    Asks r (l.foldlM f) (l.flatMap asked) := by
  induction l with
  | nil =>
      intro found names
      simp [AudioRequest.sounds, AudioRequest.problems]
      rfl
  | cons a l ih =>
      intro found names
      have hHead := h a List.mem_cons_self found names
      have hRest := ih fun b hb =>
        h b (List.mem_cons_of_mem a hb)
      show ((a :: l).foldlM f found).run names = _
      rw [List.foldlM_cons, StateT.run_bind]
      show (f found a).run names >>= _ = _
      rw [show (f found a).run names = _ from hHead]
      show (l.foldlM f _).run _ = _
      rw [show (l.foldlM f _).run _ = _ from hRest _ _]
      simp [AudioRequest.sounds, AudioRequest.problems]

/- A parameter asks for the audio that it names. -/
private theorem asks_param
    {id : String}
    {n : Node}
    {p : String} :
    Asks r (n.askBy r.asked id · p)
      ((n.settings.text? p).map fun name =>
        (⟨id, n, p, name⟩ : AudioRequest)).toList := by
  intro found names
  unfold Node.askBy
  cases n.settings.text? p with
  | none =>
      simp [AudioRequest.sounds, AudioRequest.problems]
      rfl
  | some name =>
      cases hResolved : r name with
      | ok location =>
          simp [Resolver.asked, hResolved, AudioRequest.sounds,
            AudioRequest.problems]
          rfl
      | error e =>
          simp [Resolver.asked, hResolved, AudioRequest.sounds,
            AudioRequest.problems]
          rfl

/- The audio of an outline is asked for, name by name. -/
theorem Compiler.resolveBy_asked
    (x : Outline) :
    (resolveBy r.asked x.emitted).run [] =
      ((AudioRequest.sounds r x.requests,
          AudioRequest.problems r x.requests),
        x.requests.map AudioRequest.name) := by
  have hNode : ∀ e : String × Node,
      Asks r (e.2.kind.audioParams.foldlM
        (e.2.askBy r.asked e.1)) (e.2.requests e.1) := by
    intro e
    unfold Node.requests
    rw [List.filterMap_eq_flatMap_toList]
    exact asks_foldlM fun p _ => asks_param
  have hAll := asks_foldlM (l := x.emitted)
    (f := fun found e =>
      e.2.kind.audioParams.foldlM (e.2.askBy r.asked e.1)
        found)
    fun e _ => hNode e
  exact hAll ([], []) []

end Audio

end CallFlow
