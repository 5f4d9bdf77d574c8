import CallFlow.Compile.Outline
import CallFlow.Proofs.Compile.Walking
import CallFlow.Proofs.Flow.Sound

/-
  The outline of a sound flow shows the whole flow, and the
  sounds found for its nodes are those that their settings
  name.

  No node of a sound flow lies as many steps below the root
  as there are nodes, so the depth of the outline is enough.

  Main declarations:
    * `Outline.Shows`
    * `Outline.Shows.unique`
    * `Flow.Sound.exists_outlineWithin?`
    * `Flow.Sound.exists_outline?`
    * `Outline.get?_of_mem_emitted`
    * `Outline.mem_requests_iff`
    * `Outline.find?_sounds`
    * `Outline.find?_sounds_eq_none`
-/

namespace CallFlow

variable {t : Flow}

------------------------------------------------------------
-- Whole Outlines
------------------------------------------------------------

namespace Outline

/- The id at the top of an outline. -/
def id : Outline → String
  | node id _ _ => id

/- An outline shows a flow if it leaves no child out. -/
inductive Shows
    (t : Flow) : Outline → Prop where
  | node
      {id : String}
      {step : Node}
      {children : List Outline}
      (hNode : t.get? id = some step)
      (hIds : children.map Outline.id = step.children)
      (hChildren : ∀ o ∈ children, Shows t o) :
      Shows t (.node id step children)

end Outline

/- Lists of outlines with the same ids are the same. -/
private theorem eq_of_map_id_eq
    {outlines outlines' : List Outline}
    (hIds :
      outlines.map Outline.id = outlines'.map Outline.id)
    (h :
      ∀ o ∈ outlines, ∀ o' ∈ outlines', o.id = o'.id →
        o = o') : outlines = outlines' := by
  induction outlines generalizing outlines' with
  | nil =>
      cases outlines' with
      | nil => rfl
      | cons o' rest' => cases hIds
  | cons o rest ih =>
      cases outlines' with
      | nil => cases hIds
      | cons o' rest' =>
          rw [List.map_cons, List.map_cons,
            List.cons.injEq] at hIds
          have hHead := h o List.mem_cons_self o'
            List.mem_cons_self hIds.1
          have hRest := ih hIds.2 fun x hx x' hx' =>
            h x (List.mem_cons_of_mem o hx) x'
              (List.mem_cons_of_mem o' hx')
          rw [hHead, hRest]

/- There is one outline of a node that leaves nothing out. -/
theorem Outline.Shows.unique
    {o o' : Outline}
    (h : o.Shows t)
    (h' : o'.Shows t)
    (hId : o.id = o'.id) : o = o' := by
  induction h generalizing o' with
  | @node id step children hNode hIds hChildren ih =>
      cases h' with
      | @node id' step' children' hNode' hIds' hChildren' =>
          have hSame : id = id' := hId
          subst hSame
          rw [hNode] at hNode'
          cases hNode'
          have hBelow : children = children' :=
            eq_of_map_id_eq (hIds.trans hIds'.symm)
              fun x hx x' hx' =>
                ih x hx (hChildren' x' hx')
          rw [hBelow]

/- Outlines of all children are outlines in their order. -/
private theorem map_id_filterMap
    {f : String → Option Outline}
    {ids : List String}
    (h : ∀ c ∈ ids, ∃ o, f c = some o ∧ o.id = c) :
    (ids.filterMap f).map Outline.id = ids := by
  induction ids with
  | nil => rfl
  | cons c rest ih =>
      rcases h c List.mem_cons_self with ⟨o, hOutline, hId⟩
      have hRest := ih fun d hd =>
        h d (List.mem_cons_of_mem c hd)
      rw [List.filterMap_cons_some hOutline, List.map_cons,
        hRest, hId]

/- The outline of a node shows what lies below the node. -/
theorem Flow.Sound.exists_outlineWithin?
    (h : t.Sound)
    {depth k : Nat}
    {id : String}
    (hk : t.ancestor? k id = some t.rootId)
    (hContains : t.contains id = true)
    (hDepth : t.size ≤ depth + k) :
    ∃ o, t.outlineWithin? depth id = some o ∧
      o.id = id ∧ o.Shows t := by
  induction depth generalizing k id with
  | zero =>
      have hSteps := h.steps_lt_size hk
      omega
  | succ depth ih =>
      rcases (t.contains_iff id).mp hContains with ⟨n, hNode⟩
      have hBelow : ∀ c ∈ n.children,
          ∃ o, t.outlineWithin? depth c = some o ∧
            o.id = c ∧ o.Shows t := by
        intro c hc
        have hListed : c ∈ t.childIds id := by
          rw [Flow.childIds_of_get? hNode]
          exact hc
        have hParent := (h.links id c).mp hListed
        have hkc : t.ancestor? (k + 1) c = some t.rootId := by
          rw [Flow.ancestor?_succ hParent]
          exact hk
        exact ih hkc (h.contains_of_mem_childIds hListed)
          (by omega)
      refine
        ⟨.node id n
            (n.children.filterMap (t.outlineWithin? depth)),
          ?_, rfl, .node hNode ?_ ?_⟩
      · have hStep :
            t.outlineWithin? (depth + 1) id =
              (t.get? id).map fun n =>
                .node id n (n.children.filterMap
                  (t.outlineWithin? depth)) := rfl
        rw [hStep, hNode]
        rfl
      · apply map_id_filterMap
        intro c hc
        rcases hBelow c hc with ⟨o, hOutline, hId, -⟩
        exact ⟨o, hOutline, hId⟩
      · intro o ho
        rcases List.mem_filterMap.mp ho with ⟨c, hc, hSome⟩
        rcases hBelow c hc with ⟨o', hOutline, -, hShows⟩
        rw [hOutline] at hSome
        cases hSome
        exact hShows

/- The outline of a sound flow shows it from the root on. -/
theorem Flow.Sound.exists_outline?
    (h : t.Sound) :
    ∃ o, t.outline? = some o ∧ o.id = t.rootId ∧
      o.Shows t :=
  h.exists_outlineWithin? (k := 0) rfl h.contains_root
    (Nat.le_refl t.size)

------------------------------------------------------------
-- Emitted Nodes
------------------------------------------------------------

namespace Outline

/- The emitted nodes of outlines are those of each one. -/
theorem emittedAll_eq_flatMap
    (outlines : List Outline) :
    emittedAll outlines = outlines.flatMap emitted := by
  induction outlines with
  | nil => rfl
  | cons o rest ih =>
      unfold emittedAll
      rw [ih, List.flatMap_cons]

/- An emitted node of outlines is one of some outline. -/
theorem mem_emittedAll_iff
    {outlines : List Outline}
    {e : String × Node} :
    e ∈ emittedAll outlines ↔
      ∃ o ∈ outlines, e ∈ o.emitted := by
  rw [emittedAll_eq_flatMap, List.mem_flatMap]

/- Emitted nodes are nodes of the flow. -/
theorem get?_of_mem_emitted
    {o : Outline}
    (hShows : o.Shows t)
    {id : String}
    {n : Node}
    (h : (id, n) ∈ o.emitted) : t.get? id = some n := by
  induction hShows with
  | node hNode hIds hChildren ih =>
      unfold emitted at h
      rcases List.mem_cons.mp h with hHere | hBelow
      · cases hHere
        exact hNode
      · split at hBelow
        · rcases mem_emittedAll_iff.mp hBelow with
            ⟨o, ho, hMem⟩
          exact ih o ho hMem
        · cases hBelow

------------------------------------------------------------
-- Sounds
------------------------------------------------------------

/- What an outline asks for: the audio of emitted nodes. -/
theorem mem_requests_iff
    {o : Outline}
    {q : AudioRequest} :
    q ∈ o.requests ↔
      ∃ id n, (id, n) ∈ o.emitted ∧
        ∃ p ∈ n.kind.audioParams, ∃ name,
          n.settings.text? p = some name ∧
            q = ⟨id, n, p, name⟩ := by
  unfold requests Node.requests
  rw [List.mem_flatMap]
  constructor
  · rintro ⟨⟨id, n⟩, hMem, hq⟩
    rcases List.mem_filterMap.mp hq with ⟨p, hp, hSome⟩
    rcases Option.map_eq_some_iff.mp hSome with
      ⟨name, hName, hSame⟩
    exact ⟨id, n, hMem, p, hp, name, hName, hSame.symm⟩
  · rintro ⟨id, n, hMem, p, hp, name, hName, hSame⟩
    refine ⟨(id, n), hMem, List.mem_filterMap.mpr ⟨p, hp, ?_⟩⟩
    rw [hName, hSame]
    rfl

/- The sounds of requests are those that can be played. -/
private theorem mem_sounds_iff
    {r : Resolver}
    {asked : List AudioRequest}
    {found : Sound} :
    found ∈ AudioRequest.sounds r asked ↔
      ∃ q ∈ asked, ∃ location, r q.name = .ok location ∧
        found = ⟨q.id, q.param, location⟩ := by
  unfold AudioRequest.sounds
  rw [List.mem_filterMap]
  constructor
  · rintro ⟨q, hq, hSome⟩
    split at hSome
    · rename_i location hLocation
      cases hSome
      exact ⟨q, hq, location, hLocation, rfl⟩
    · cases hSome
  · rintro ⟨q, hq, location, hLocation, hSame⟩
    refine ⟨q, hq, ?_⟩
    rw [hLocation, hSame]

/- A sound is found for a setting of the node that asks. -/
private theorem of_find?_eq_some
    {o : Outline}
    (hShows : o.Shows t)
    {r : Resolver}
    {id : String}
    {n : Node}
    (hNode : t.get? id = some n)
    {param : String}
    {found : Sound}
    (h :
      ((AudioRequest.sounds r o.requests).find? fun s =>
        s.id == id && s.param == param) = some found) :
    param ∈ n.kind.audioParams ∧
      ∃ name, n.settings.text? param = some name ∧
        r name = .ok found.location := by
  have hSame := List.find?_some h
  rw [Bool.and_eq_true, beq_iff_eq, beq_iff_eq] at hSame
  rcases mem_sounds_iff.mp (List.mem_of_find?_eq_some h) with
    ⟨q, hq, location, hLocation, hFound⟩
  rcases mem_requests_iff.mp hq with
    ⟨id', n', hMem', p, hp, name, hName, hRequest⟩
  subst hRequest hFound
  -- The request is for the same parameter of the same node.
  rcases hSame with ⟨hId, hParamSame⟩
  have hId' : id' = id := hId
  have hp' : p = param := hParamSame
  subst hId' hp'
  have hNode' := get?_of_mem_emitted hShows hMem'
  rw [hNode] at hNode'
  cases hNode'
  exact ⟨hp, name, hName, hLocation⟩

/- The sound of an emitted node is what its setting names. -/
theorem find?_sounds
    {o : Outline}
    (hShows : o.Shows t)
    (r : Resolver)
    {id : String}
    {n : Node}
    (hMem : (id, n) ∈ o.emitted)
    {param : String}
    (hParam : param ∈ n.kind.audioParams) :
    Sound.find? (AudioRequest.sounds r o.requests) id param =
      n.sound? r param := by
  have hNode := get?_of_mem_emitted hShows hMem
  unfold Sound.find?
  cases hFind :
      (AudioRequest.sounds r o.requests).find? fun s =>
        s.id == id && s.param == param with
  | some found =>
      rcases of_find?_eq_some hShows hNode hFind with
        ⟨-, name, hName, hLocation⟩
      unfold Node.sound?
      rw [hName, Option.bind_some, hLocation]
      rfl
  | none =>
      have hNoSound := List.find?_eq_none.mp hFind
      unfold Node.sound?
      cases hName : n.settings.text? param with
      | none => rfl
      | some name =>
          cases hLocation : r name with
          | error e =>
              rw [Option.bind_some, hLocation]
              rfl
          | ok location =>
              have hRequest :
                  (⟨id, n, param, name⟩ : AudioRequest) ∈
                    o.requests :=
                mem_requests_iff.mpr
                  ⟨id, n, hMem, param, hParam, name, hName,
                    rfl⟩
              have hSound :
                  (⟨id, param, location⟩ : Sound) ∈
                    AudioRequest.sounds r o.requests :=
                mem_sounds_iff.mpr
                  ⟨_, hRequest, location, hLocation, rfl⟩
              have hNot := hNoSound _ hSound
              simp at hNot

/- No other parameter of a node has a sound. -/
theorem find?_sounds_eq_none
    {o : Outline}
    (hShows : o.Shows t)
    (r : Resolver)
    {id : String}
    {n : Node}
    (hNode : t.get? id = some n)
    {param : String}
    (hParam : param ∉ n.kind.audioParams) :
    Sound.find? (AudioRequest.sounds r o.requests) id param =
      none := by
  unfold Sound.find?
  cases hFind :
      (AudioRequest.sounds r o.requests).find? fun s =>
        s.id == id && s.param == param with
  | none => rfl
  | some found =>
      have hAudio := (of_find?_eq_some hShows hNode hFind).1
      exact absurd hAudio hParam

end Outline

end CallFlow
