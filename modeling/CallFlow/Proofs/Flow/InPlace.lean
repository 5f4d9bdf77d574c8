import CallFlow.Proofs.Flow.Accepted
import CallFlow.Proofs.NameMap

/-
  Edits in place: the stored flow is written step by step,
  and what has been written stays when a later step fails.

  Every check comes before the first write, so an edit that
  is rejected leaves the flow as it was.  The version comes
  after the last write, so an edit that stops there leaves
  all that it writes.

  Main declarations:
    * `Procedure`
    * `Procedure.perform`
    * `Procedure.run_perform`
-/

namespace CallFlow

/- A procedure on a stored flow, which may fail half-way. -/
abbrev Procedure
    (α : Type) : Type :=
  EStateM EditFailure Flow α

namespace Procedure

variable {α β : Type}

------------------------------------------------------------
-- Steps
------------------------------------------------------------

/- Look at the stored flow, and fail if it will not do. -/
def look
    (f : Flow → Except EditError α) : Procedure α :=
  fun t =>
    match f t with
    | .ok a => .ok a t
    | .error e => .error (.rejected e) t

/- Write the stored nodes. -/
def write
    (f : NameMap Node → NameMap Node) : Procedure Unit :=
  modify fun t => { t with nodes := f t.nodes }

/- Advance the stored version, and stop if it is the last. -/
def advance : Procedure Unit :=
  fun t =>
    if t.HasNext then
      .ok () { t with version := t.version + 1 }
    else .error (.stopped t) t

/- Take the next free id, and store the number after it. -/
def takeId : Procedure String :=
  fun t =>
    match t.freshId? with
    | some (id, next) => .ok id { t with nextId := next }
    | none => .error (.rejected (.idsExhausted t.name)) t

------------------------------------------------------------
-- Edits
------------------------------------------------------------

/- Append a new node to the children of a node. -/
def add
    (parent : String)
    (kind : StepKind)
    (label : String)
    (key : Option Key) : Procedure String := do
  let _ ← look fun t => t.node parent
  look fun t => t.checkKey parent key none
  let id ← takeId
  write fun nodes =>
    nodes.insert id (.fresh kind label key (some parent))
  write fun nodes => Flow.linkChild nodes parent id
  advance
  return id

/- Change a node. -/
def update
    (id : String)
    (p : Patch) : Procedure Unit := do
  let n ← look fun t => t.node id
  let settings ← look fun _ => Flow.patchedSettings n p
  let key ← look fun t => t.patchedKey id n p.key
  write fun nodes =>
    nodes.modify id fun n =>
      { n with
        kind := p.kind.getD n.kind
        label := p.label.getD n.label
        settings := settings
        key := key }
  advance

/- Move a node to the end of the children of another. -/
def move
    (id newParent : String) : Procedure Unit := do
  let n ← look fun t => t.node id
  look fun t =>
    if id = t.rootId then .error (.cannotMoveRoot id)
    else .ok ()
  let _ ← look fun t => t.node newParent
  look fun t =>
    if id = newParent ∨ newParent ∈ t.descendants id then
      .error (.wouldCycle id newParent)
    else .ok ()
  if n.parent = some newParent then return ()
  else
    look fun t => t.checkKey newParent n.key (some id)
    write fun nodes => Flow.unlinkFrom? nodes n.parent id
    write fun nodes => Flow.linkChild nodes newParent id
    write fun nodes =>
      nodes.modify id fun n =>
        { n with parent := some newParent }
    advance

/- Delete a node and everything below it. -/
def delete
    (id : String) : Procedure (List String) := do
  let n ← look fun t => t.node id
  look fun t =>
    if id = t.rootId then .error (.cannotDeleteRoot id)
    else .ok ()
  let removed ← look fun t => .ok (id :: t.descendants id)
  write fun nodes => Flow.unlinkFrom? nodes n.parent id
  removed.forM fun gone =>
    write fun nodes => nodes.erase gone
  advance
  return removed

/- Perform an edit, and give the id of an added node. -/
def perform : Edit → Procedure (Option String)
  | .add parent kind label key => do
      return some (← add parent kind label key)
  | .update id p => do
      update id p
      return none
  | .move id newParent => do
      move id newParent
      return none
  | .delete id => do
      let _ ← delete id
      return none

------------------------------------------------------------
-- Running Steps
------------------------------------------------------------

/-
  What a function of flows comes to as a procedure, given
  the value and the flow that its result stands for.
-/
def outcome
    {γ : Type}
    (t : Flow)
    (value : γ → α)
    (flow : γ → Flow) :
    Except EditFailure γ → EStateM.Result EditFailure Flow α
  | .ok c => .ok (value c) (flow c)
  | .error f => .error f (t.left (.error f))

section Steps

variable {γ δ : Type}
variable {value : γ → α}
variable {flow : γ → Flow}
variable {commit : δ → Except EditFailure γ}

/- A step after a step runs where the first one stops. -/
private theorem run_bind
    (x : Procedure α)
    (f : α → Procedure β)
    (t : Flow) :
    (x >>= f).run t =
      match x.run t with
      | .ok a t' => (f a).run t'
      | .error e t' => .error e t' := by
  show EStateM.bind x f t = _
  unfold EStateM.bind EStateM.run
  cases x t <;> rfl

/-
  A look that goes on as a procedure does what a check does
  that goes on as a function, if what follows does.
-/
private theorem run_look_bind
    {f : Flow → Except EditError β}
    {g : β → Procedure α}
    {h : β → Except EditError δ}
    {t : Flow}
    (hRest :
      ∀ b, f t = .ok b →
        (g b).run t =
          outcome t value flow
            ((h b).mapError .rejected >>= commit)) :
    (look f >>= g).run t =
      outcome t value flow
        ((f t >>= h).mapError .rejected >>= commit) := by
  rw [run_bind]
  unfold EStateM.run look
  cases hLook : f t with
  | error e => rfl
  | ok b => exact hRest b hLook

/- A look at a condition does what a choice on it does. -/
private theorem run_look_if
    {P : Flow → Prop}
    [∀ t, Decidable (P t)]
    {e : EditError}
    {g : Procedure α}
    {x : Except EditError δ}
    {t : Flow}
    (hRest :
      ¬ P t →
        g.run t =
          outcome t value flow
            (x.mapError .rejected >>= commit)) :
    (look (fun t => if P t then .error e else .ok ()) >>=
        fun _ => g).run t =
      outcome t value flow
        ((if P t then .error e else x).mapError .rejected >>=
          commit) := by
  rw [run_bind]
  unfold EStateM.run look
  by_cases hP : P t
  · simp only [if_pos hP]
    rfl
  · simp only [if_neg hP]
    exact hRest hP

/- A look that cannot fail only passes on what it sees. -/
private theorem run_look_pure
    (f : Flow → β)
    (g : β → Procedure α)
    (t : Flow) :
    (look (fun t => .ok (f t)) >>= g).run t =
      (g (f t)).run t :=
  rfl

/- What follows a write runs on the flow that was written. -/
private theorem run_write
    (f : NameMap Node → NameMap Node)
    (x : Procedure α)
    (t : Flow) :
    (write f >>= fun _ => x).run t =
      x.run { t with nodes := f t.nodes } :=
  rfl

/- Erasing names one by one erases them all. -/
private theorem run_erase_each
    (removed : List String)
    (t : Flow) :
    (removed.forM fun gone =>
        write fun nodes => nodes.erase gone).run t =
      .ok () { t with nodes := t.nodes.eraseAll removed } := by
  induction removed generalizing t with
  | nil => rfl
  | cons gone rest ih =>
      exact ih { t with nodes := t.nodes.erase gone }

/- Advancing the version commits what is stored. -/
private theorem run_advance
    (t written : Flow) :
    advance.run written =
      outcome t (fun _ => ()) (fun t' => t')
        written.commit := by
  unfold EStateM.run advance Flow.commit
  split <;> rfl

/- So it does before a value is returned. -/
private theorem run_advance_pure
    (t written : Flow)
    (a : α) :
    (advance >>= fun _ => pure a).run written =
      outcome t Prod.snd Prod.fst
        (written.commit >>= fun t' => pure (t', a)) := by
  rw [run_bind, run_advance t]
  cases written.commit <;> rfl

end Steps

------------------------------------------------------------
-- Running Edits
------------------------------------------------------------

/- Adding in place comes to the addition. -/
theorem run_add
    (t : Flow)
    (parent : String)
    (kind : StepKind)
    (label : String)
    (key : Option Key) :
    (add parent kind label key).run t =
      outcome t Prod.snd Prod.fst
        (t.add parent kind label key) := by
  refine run_look_bind fun p _ => run_look_bind fun u _ => ?_
  rw [run_bind]
  unfold EStateM.run takeId
  cases t.freshId? with
  | none => rfl
  | some fresh => exact run_advance_pure t _ fresh.1

/- Changing in place comes to the change. -/
theorem run_update
    (t : Flow)
    (id : String)
    (p : Patch) :
    (update id p).run t =
      outcome t (fun _ => ()) (fun t' => t')
        (t.update id p) := by
  refine run_look_bind fun n hNode =>
    run_look_bind fun settings _ =>
      run_look_bind fun key _ => ?_
  have hFound : t.nodes.get? id = some n :=
    Flow.node_eq_ok_iff.mp hNode
  rw [run_write, NameMap.modify_eq_insert hFound]
  exact run_advance t _

/- Moving in place comes to the move. -/
theorem run_move
    (t : Flow)
    (id newParent : String) :
    (move id newParent).run t =
      outcome t (fun _ => ()) (fun t' => t')
        (t.move id newParent) := by
  refine run_look_bind fun n _ => run_look_if fun _ =>
    run_look_bind fun p _ => run_look_if fun _ => ?_
  by_cases hStays : n.parent = some newParent
  · rw [if_pos hStays, if_pos hStays]
    rfl
  · rw [if_neg hStays, if_neg hStays]
    exact run_look_bind fun u _ => run_advance t _

/- Deleting in place comes to the deletion. -/
theorem run_delete
    (t : Flow)
    (id : String) :
    (delete id).run t =
      outcome t Prod.snd Prod.fst (t.delete id) := by
  refine run_look_bind fun n _ => run_look_if fun _ => ?_
  rw [run_look_pure, run_write, run_bind, run_erase_each]
  exact run_advance_pure t _ _

/- Performing an edit in place comes to applying it. -/
theorem run_perform
    (t : Flow)
    (e : Edit) :
    (perform e).run t =
      outcome t Prod.snd Prod.fst (t.apply e) := by
  cases e with
  | add parent kind label key =>
      unfold perform
      rw [run_bind, run_add]
      simp only [Flow.apply]
      cases t.add parent kind label key <;> rfl
  | update id p =>
      unfold perform
      rw [run_bind, run_update]
      simp only [Flow.apply]
      cases t.update id p <;> rfl
  | move id newParent =>
      unfold perform
      rw [run_bind, run_move]
      simp only [Flow.apply]
      cases t.move id newParent <;> rfl
  | delete id =>
      unfold perform
      rw [run_bind, run_delete]
      simp only [Flow.apply]
      cases t.delete id <;> rfl

end Procedure

end CallFlow
