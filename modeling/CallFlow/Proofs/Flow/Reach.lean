import CallFlow.Flow.Listing
import Mathlib.Logic.Relation

/-
  What the downward listings of a flow hold, on any flow.

  A listing holds exactly the ids that the children lists
  lead to, each once.  The bound on its turns is met: every
  turn takes one id from those still to do, and an id puts
  its children there once, when it is first taken.

  Main declarations:
    * `Flow.Leads`
    * `Flow.nodup_listing`
    * `Flow.mem_listing_iff`
    * `Flow.mem_descendants_iff`
    * `Flow.mem_preorder_iff`
-/

namespace CallFlow

namespace Flow

variable {t : Flow}

------------------------------------------------------------
-- The Way Down
------------------------------------------------------------

/- Children lists lead down from a node to another. -/
def Leads
    (t : Flow) : String → String → Prop :=
  Relation.ReflTransGen fun p c => c ∈ t.childIds p

/- Whatever is listed is led to. -/
theorem leads_of_mem_walk
    {turns : Nat}
    {seen ids : List String}
    {x : String}
    (h : x ∈ t.walk turns seen ids) :
    ∃ a ∈ ids, t.Leads a x := by
  induction turns generalizing seen ids with
  | zero => simp [walk] at h
  | succ turns ih =>
      cases ids with
      | nil => simp [walk] at h
      | cons id rest =>
          unfold walk at h
          split at h
          · rcases ih h with ⟨a, ha, hLeads⟩
            exact ⟨a, List.mem_cons_of_mem _ ha, hLeads⟩
          · rcases List.mem_cons.mp h with hHere | hBelow
            · exact
                ⟨id, List.mem_cons_self,
                  hHere ▸ Relation.ReflTransGen.refl⟩
            · rcases ih hBelow with ⟨a, ha, hLeads⟩
              rcases List.mem_append.mp ha with hChild | ha
              · exact
                  ⟨id, List.mem_cons_self,
                    Relation.ReflTransGen.head hChild
                      hLeads⟩
              · exact
                  ⟨a, List.mem_cons_of_mem _ ha, hLeads⟩

/- A walk lists nothing that has been seen before. -/
theorem not_mem_seen_of_mem_walk
    {turns : Nat}
    {seen ids : List String}
    {x : String}
    (h : x ∈ t.walk turns seen ids) : x ∉ seen := by
  induction turns generalizing seen ids with
  | zero => simp [walk] at h
  | succ turns ih =>
      cases ids with
      | nil => simp [walk] at h
      | cons id rest =>
          unfold walk at h
          split at h
          · exact ih h
          · rename_i hNew
            rcases List.mem_cons.mp h with hHere | hBelow
            · subst hHere
              simpa using hNew
            · intro hSeen
              exact ih hBelow (List.mem_cons_of_mem _ hSeen)

/- A walk lists nothing twice. -/
theorem nodup_walk
    (t : Flow)
    (turns : Nat)
    (seen ids : List String) :
    (t.walk turns seen ids).Nodup := by
  induction turns generalizing seen ids with
  | zero => simp [walk]
  | succ turns ih =>
      cases ids with
      | nil => simp [walk]
      | cons id rest =>
          unfold walk
          split
          · exact ih seen rest
          · apply List.nodup_cons.mpr
            constructor
            · intro hAgain
              exact not_mem_seen_of_mem_walk hAgain
                List.mem_cons_self
            · exact ih (id :: seen) (t.childIds id ++ rest)

------------------------------------------------------------
-- Links Left to Follow
------------------------------------------------------------

/- The number of children of the nodes that are not seen. -/
def linksLeft
    (entries : List (String × Node))
    (seen : List String) : Nat :=
  ((entries.filter fun e => !seen.contains e.1).flatMap
    fun e => e.2.children).length

/- Seeing a name without an entry leaves all links. -/
private theorem linksLeft_of_lookup_eq_none
    {entries : List (String × Node)}
    {id : String}
    (seen : List String)
    (hNone : Entries.lookup id entries = none) :
    linksLeft entries (id :: seen) =
      linksLeft entries seen := by
  induction entries with
  | nil => rfl
  | cons e rest ih =>
      rcases e with ⟨k, n⟩
      unfold Entries.lookup at hNone
      split at hNone
      · cases hNone
      · rename_i hOther
        have hRest := ih hNone
        unfold linksLeft at hRest ⊢
        by_cases hSeen : k ∈ seen <;>
          simp [hSeen, hOther] at hRest ⊢ <;> exact hRest

/- Seeing a name takes the links of its entry away. -/
private theorem linksLeft_of_lookup_eq_some
    {entries : List (String × Node)}
    {seen : List String}
    {id : String}
    {n : Node}
    (hOrdered : Entries.Ordered entries)
    (hNew : id ∉ seen)
    (hSome : Entries.lookup id entries = some n) :
    linksLeft entries (id :: seen) + n.children.length =
      linksLeft entries seen := by
  induction entries with
  | nil => cases hSome
  | cons e rest ih =>
      rcases e with ⟨k, m⟩
      rcases List.pairwise_cons.mp hOrdered with
        ⟨hHead, hRest⟩
      by_cases hHere : k = id
      · subst hHere
        have hNode : m = n := by
          simpa [Entries.lookup] using hSome
        subst hNode
        have hGone : Entries.lookup k rest = none := by
          cases hAgain : Entries.lookup k rest with
          | none => rfl
          | some m' =>
              have hLt :=
                hHead _ (Entries.mem_of_lookup hAgain)
              exact absurd hLt (String.lt_irrefl k)
        have hSame :=
          linksLeft_of_lookup_eq_none seen hGone
        unfold linksLeft at hSame ⊢
        simp [hNew] at hSame ⊢
        omega
      · have hLater : Entries.lookup id rest = some n := by
          simpa [Entries.lookup, hHere] using hSome
        have hLess := ih hRest hLater
        unfold linksLeft at hLess ⊢
        by_cases hSeen : k ∈ seen
        · simp [hSeen] at hLess ⊢
          exact hLess
        · simp [hSeen, hHere] at hLess ⊢
          omega

/- Taking a new id turns its links into ids to do. -/
theorem linksLeft_cons
    (t : Flow)
    {seen : List String}
    {id : String}
    (hNew : id ∉ seen) :
    linksLeft t.nodes.entries (id :: seen) +
        (t.childIds id).length =
      linksLeft t.nodes.entries seen := by
  unfold childIds
  cases hNode : t.get? id with
  | none => exact linksLeft_of_lookup_eq_none seen hNode
  | some n =>
      exact linksLeft_of_lookup_eq_some t.nodes.ordered
        hNew hNode

/- Before anything is seen, all links are left. -/
theorem linksLeft_nil
    (t : Flow) :
    linksLeft t.nodes.entries [] = t.linkCount := by
  have hAll :
      (t.nodes.entries.filter fun e =>
        !([] : List String).contains e.1) =
        t.nodes.entries :=
    List.filter_eq_self.mpr (by simp)
  rw [linksLeft, hAll, linkCount]

------------------------------------------------------------
-- Everything Is Listed
------------------------------------------------------------

/- The children of what is seen are seen or still to do. -/
private def Followed
    (t : Flow)
    (seen ids : List String) : Prop :=
  ∀ s ∈ seen, ∀ c ∈ t.childIds s, c ∈ seen ∨ c ∈ ids

/- An id that is seen need not be done again. -/
private theorem followed_skip
    {seen rest : List String}
    {id : String}
    (hOld : id ∈ seen)
    (hSeen : t.Followed seen (id :: rest)) :
    t.Followed seen rest := by
  intro s hs c hc
  rcases hSeen s hs c hc with hFound | hDue
  · exact Or.inl hFound
  · rcases List.mem_cons.mp hDue with hHere | hLater
    · exact Or.inl (hHere ▸ hOld)
    · exact Or.inr hLater

/- With an id that is seen, its children are to do. -/
private theorem followed_take
    {seen rest : List String}
    {id : String}
    (hSeen : t.Followed seen (id :: rest)) :
    t.Followed (id :: seen) (t.childIds id ++ rest) := by
  intro s hs c hc
  rcases List.mem_cons.mp hs with hNow | hBefore
  · subst hNow
    exact Or.inr (List.mem_append_left _ hc)
  · rcases hSeen s hBefore c hc with hFound | hDue
    · exact Or.inl (List.mem_cons_of_mem _ hFound)
    · rcases List.mem_cons.mp hDue with hHere | hLater
      · subst hHere
        exact Or.inl List.mem_cons_self
      · exact Or.inr (List.mem_append_right _ hLater)

/-
  With enough turns, the ids to do are listed, and what is
  seen or listed has only children that are seen or listed.
  Children of seen ids may still be to do.
-/
private theorem walk_closed
    {turns : Nat}
    {seen ids : List String}
    (hTurns :
      linksLeft t.nodes.entries seen + ids.length ≤ turns)
    (hSeen : t.Followed seen ids) :
    (∀ a ∈ ids, a ∈ seen ∨ a ∈ t.walk turns seen ids) ∧
      ∀ a, (a ∈ seen ∨ a ∈ t.walk turns seen ids) →
        ∀ c ∈ t.childIds a,
          c ∈ seen ∨ c ∈ t.walk turns seen ids := by
  induction turns generalizing seen ids with
  | zero =>
      have hEmpty : ids = [] := by
        apply List.eq_nil_of_length_eq_zero
        omega
      subst hEmpty
      simpa [walk, Followed] using hSeen
  | succ turns ih =>
      cases ids with
      | nil => simpa [walk, Followed] using hSeen
      | cons id rest =>
          rw [List.length_cons] at hTurns
          unfold walk
          split
          · rename_i hOld
            have hOld' : id ∈ seen := by simpa using hOld
            rcases ih (by omega) (followed_skip hOld' hSeen)
              with ⟨hListed, hClosed⟩
            refine ⟨?_, hClosed⟩
            intro a ha
            rcases List.mem_cons.mp ha with ha | ha
            · exact Or.inl (ha ▸ hOld')
            · exact hListed a ha
          · rename_i hNew
            have hNew' : id ∉ seen := by simpa using hNew
            have hLinks := t.linksLeft_cons hNew'
            have hTurns' :
                linksLeft t.nodes.entries (id :: seen) +
                    (t.childIds id ++ rest).length ≤
                  turns := by
              rw [List.length_append]
              omega
            rcases ih hTurns' (followed_take hSeen) with
              ⟨hListed, hClosed⟩
            have hSwap :
                ∀ a, a ∈ id :: seen ∨
                    a ∈ t.walk turns (id :: seen)
                      (t.childIds id ++ rest) ↔
                  a ∈ seen ∨
                    a ∈ id :: t.walk turns (id :: seen)
                      (t.childIds id ++ rest) := by
              intro a
              rw [List.mem_cons, List.mem_cons, or_assoc]
              exact or_left_comm
            constructor
            · intro a ha
              rcases List.mem_cons.mp ha with ha | ha
              · subst ha
                exact Or.inr List.mem_cons_self
              · exact (hSwap a).mp
                  (hListed a (List.mem_append_right _ ha))
            · intro a ha c hc
              exact (hSwap c).mp
                (hClosed a ((hSwap a).mpr ha) c hc)

/- No id is listed twice. -/
theorem nodup_listing
    (t : Flow)
    (ids : List String) : (t.listing ids).Nodup :=
  t.nodup_walk _ [] ids

/- A listing holds exactly what its ids lead to. -/
theorem mem_listing_iff
    (t : Flow)
    (ids : List String)
    (x : String) :
    x ∈ t.listing ids ↔ ∃ a ∈ ids, t.Leads a x := by
  constructor
  · exact leads_of_mem_walk
  · rintro ⟨a, ha, hLeads⟩
    have hTurns :
        linksLeft t.nodes.entries [] + ids.length ≤
          t.linkCount + ids.length :=
      Nat.add_le_add_right (Nat.le_of_eq (linksLeft_nil t)) _
    rcases walk_closed hTurns (by simp [Followed]) with
      ⟨hListed, hClosed⟩
    have hStart : a ∈ t.listing ids := by
      simpa [listing] using hListed a ha
    induction hLeads with
    | refl => exact hStart
    | tail _ hChild ih =>
        simpa [listing] using
          hClosed _ (Or.inr ih) _ hChild

/- The descendants of a node are what its children lead to. -/
theorem mem_descendants_iff
    (t : Flow)
    (id x : String) :
    x ∈ t.descendants id ↔
      ∃ c ∈ t.childIds id, t.Leads c x :=
  t.mem_listing_iff (t.childIds id) x

/- The pre-order holds the nodes that the root leads to. -/
theorem mem_preorder_iff
    (t : Flow)
    (x : String) :
    x ∈ t.preorder ↔
      t.Leads t.rootId x ∧ t.contains x = true := by
  unfold preorder
  rw [List.mem_filter, mem_listing_iff]
  simp

/- No id comes twice in the pre-order. -/
theorem nodup_preorder
    (t : Flow) : t.preorder.Nodup :=
  (t.nodup_listing [t.rootId]).filter _

end Flow

end CallFlow
