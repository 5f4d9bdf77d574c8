import CallFlow.Proofs.Snapshot.RoundTrip
import Mathlib.Data.List.Forall2

/-
  The faults of a document, and the one that it is rejected
  for.

  All faults are listed, in the order they are looked for:
  the version, and then node by node the id, the kind, the
  key, and the settings by name.  Loading fails with the
  first fault of the list.  What remains to be checked is a
  flow, which is there exactly if the list is empty.

  Main declarations:
    * `FailsFirst`
    * `Document.faults`
    * `Document.Readable`
    * `Document.faults_eq_nil_iff`
    * `Document.failsFirst_assemble`
-/

namespace CallFlow

------------------------------------------------------------
-- Failing with the First Fault
------------------------------------------------------------

section Results

variable {ε α β : Type}
variable {faults more : List ε}
variable {x : Except ε α}

/-
  A computation fails with the first of some faults, and
  succeeds if there is none.
-/
def FailsFirst
    (faults : List ε)
    (x : Except ε α) : Prop :=
  ∀ e, x = .error e ↔ faults.head? = some e

/- A computation without faults succeeds. -/
theorem FailsFirst.exists_ok
    (h : FailsFirst ([] : List ε) x) : ∃ a, x = .ok a := by
  rcases x with e | a
  · exact absurd ((h e).mp rfl) (by simp)
  · exact ⟨a, rfl⟩

/- A computation that succeeds has no faults. -/
theorem FailsFirst.eq_nil
    {a : α}
    (h : FailsFirst faults x)
    (hOk : x = .ok a) : faults = [] := by
  rcases faults with _ | ⟨e, rest⟩
  · rfl
  · have hError := (h e).mpr rfl
    rw [hOk] at hError
    cases hError

/- A result has no faults. -/
theorem failsFirst_ok
    (a : α) : FailsFirst ([] : List ε) (.ok a) := by
  intro e
  simp

/- A failure is a fault. -/
theorem failsFirst_error
    (e : ε)
    (rest : List ε) :
    FailsFirst (e :: rest) (.error e : Except ε α) := by
  intro e'
  simp

/- The faults of two steps are those of one and the other. -/
theorem FailsFirst.bind
    {f : α → Except ε β}
    (hFirst : FailsFirst faults x)
    (hRest : ∀ a, x = .ok a → FailsFirst more (f a)) :
    FailsFirst (faults ++ more) (x >>= f) := by
  rcases faults with _ | ⟨e, rest⟩
  · rcases hFirst.exists_ok with ⟨a, hOk⟩
    rw [hOk]
    exact hRest a hOk
  · rw [(hFirst e).mpr rfl]
    exact failsFirst_error e _

/- The faults of steps over a list are those of its items. -/
theorem failsFirst_mapM
    {l : List α}
    {f : α → Except ε β}
    {g : α → List ε}
    (h : ∀ a ∈ l, FailsFirst (g a) (f a)) :
    FailsFirst (l.flatMap g) (l.mapM f) := by
  induction l with
  | nil => exact failsFirst_ok []
  | cons a l ih =>
      rw [List.flatMap_cons, List.mapM_cons]
      have hRest := ih fun b hb =>
        h b (List.mem_cons_of_mem a hb)
      refine (h a List.mem_cons_self).bind fun b _ => ?_
      have hLast : ∀ bs, FailsFirst ([] : List ε)
          (pure (b :: bs) : Except ε (List β)) :=
        fun bs => failsFirst_ok (b :: bs)
      simpa using hRest.bind fun bs _ => hLast bs

end Results

------------------------------------------------------------
-- Names, Keys and Values
------------------------------------------------------------

namespace StepKind

/- A text is the name of a kind, or an older one. -/
def Named
    (s : String) : Prop :=
  ∃ k ∈ all, s = k.name ∨ s ∈ k.aliases

instance
    (s : String) : Decidable (Named s) := by
  unfold Named
  infer_instance

/- A name is read as the kind that it stands for. -/
theorem name_or_alias_of_ofName?
    {s : String}
    {k : StepKind}
    (h : ofName? s = some k) :
    s = k.name ∨ s ∈ k.aliases := by
  have hFound := List.find?_some h
  rw [Bool.or_eq_true, beq_iff_eq, List.contains_iff_mem]
    at hFound
  exact hFound.imp_left Eq.symm

/- Exactly the names of kinds are read. -/
theorem ofName?_eq_none_iff
    (s : String) : ofName? s = none ↔ ¬ Named s := by
  unfold ofName? Named
  rw [List.find?_eq_none]
  simp [eq_comm (a := s)]

end StepKind

namespace Key

/- A text is what is printed on a key. -/
def Named
    (s : String) : Prop :=
  ∃ k ∈ all, s = k.text

instance
    (s : String) : Decidable (Named s) := by
  unfold Named
  infer_instance

/- A text is read as the key that it is printed on. -/
theorem eq_text_of_ofText?
    {s : String}
    {k : Key}
    (h : ofText? s = some k) : s = k.text := by
  unfold ofText? at h
  split at h
  · rename_i c hChars
    have hChar : k.toChar = c := by
      simpa using List.find?_some h
    rw [← String.ofList_toList (s := s), hChars, text, hChar]
    rfl
  · cases h

/- Exactly the texts on keys are read. -/
theorem ofText?_eq_none_iff
    (s : String) : ofText? s = none ↔ ¬ Named s := by
  constructor
  · rintro hNone ⟨k, -, hText⟩
    rw [hText, ofText?_text] at hNone
    cases hNone
  · intro hNot
    by_contra hSome
    rcases Option.ne_none_iff_exists'.mp hSome with ⟨k, hRead⟩
    exact hNot ⟨k, mem_all k, eq_text_of_ofText? hRead⟩

end Key

namespace Datum

/- A datum stands for no setting, or for that of a value. -/
def Settable
    (d : Datum) : Prop :=
  d = .null ∨ ∃ v : Value, d = v.datum

/- A value is read only from the datum it is stored as. -/
theorem eq_datum_of_ofDatum?
    {d : Datum}
    {v : Value}
    (h : Value.ofDatum? d = some v) : d = v.datum := by
  unfold Value.ofDatum? at h
  split at h
  · cases h
    rfl
  · split at h
    · rename_i n hRange
      cases h
      have hBack := Int64.toInt_ofInt_of_le hRange.1
        (Int.lt_add_one_of_le hRange.2)
      simp [Value.datum, hBack]
    · cases h
  · cases h
    rfl
  · cases h

/- What is read of a datum is exactly what is stored of it. -/
theorem ofDatum?_eq_some_iff
    {d : Datum}
    {v : Value} : Value.ofDatum? d = some v ↔ d = v.datum :=
  ⟨eq_datum_of_ofDatum?, fun h => h ▸ v.ofDatum?_datum⟩

/- Whether a datum is null. -/
def isNull : Datum → Bool
  | null => true
  | _ => false

@[simp] theorem isNull_iff
    (d : Datum) : d.isNull = true ↔ d = .null := by
  cases d <;> simp [isNull]

/- A datum is settable if it is null or a value is read. -/
theorem settable_iff
    (d : Datum) :
    d.Settable ↔
      (d.isNull || (Value.ofDatum? d).isSome) = true := by
  rw [Bool.or_eq_true, isNull_iff, Option.isSome_iff_exists]
  simp only [ofDatum?_eq_some_iff]
  rfl

instance
    (d : Datum) : Decidable d.Settable :=
  decidable_of_iff _ d.settable_iff.symm

end Datum

------------------------------------------------------------
-- Faults
------------------------------------------------------------

/- The fault of a setting, if it has one. -/
def NodeDocument.settingFault?
    (id : String)
    (entry : String × Datum) : Option LoadError :=
  if entry.2.Settable then none
  else some (.unsupportedValue id entry.1 entry.2)

/- The faults of a stored node, in the order of its parts. -/
def NodeDocument.faults
    (id : String)
    (n : NodeDocument) : List LoadError :=
  (if n.id = "" ∨ n.id = id then []
    else [.idMismatch id n.id]) ++
  (if StepKind.Named n.kind then []
    else [.unknownKind id n.kind]) ++
  (n.key.toList.filter fun s =>
      s ≠ "" ∧ ¬ Key.Named s).map (.badKey id) ++
  n.parameters.entries.filterMap (settingFault? id)

/- The faults of a document, node by node. -/
def Document.faults
    (d : Document) : List LoadError :=
  (if d.version = currentVersion then []
    else [.unsupportedVersion d.version]) ++
  d.nodes.entries.flatMap fun e => e.2.faults e.1

/- A stored node without faults. -/
structure NodeDocument.Readable
    (id : String)
    (n : NodeDocument) : Prop where
  id : n.id = "" ∨ n.id = id
  kind : ∃ k : StepKind, n.kind = k.name ∨ n.kind ∈ k.aliases
  key : ∀ s, n.key = some s → s = "" ∨ ∃ k : Key, s = k.text
  settings :
    ∀ name d, n.parameters.get? name = some d → d.Settable

/- A document without faults. -/
structure Document.Readable
    (d : Document) : Prop where
  version : d.version = currentVersion
  nodes : ∀ id n, d.nodes.get? id = some n → n.Readable id

/- No faults are listed exactly for a readable node. -/
theorem NodeDocument.faults_eq_nil_iff
    {id : String}
    {n : NodeDocument} :
    n.faults id = [] ↔ n.Readable id := by
  have hId :
      (if n.id = "" ∨ n.id = id then []
        else [LoadError.idMismatch id n.id]) = [] ↔
        n.id = "" ∨ n.id = id := by
    rw [ite_eq_left_iff]
    simp only [reduceCtorEq, imp_false, not_not]
  have hKind :
      (if StepKind.Named n.kind then []
        else [LoadError.unknownKind id n.kind]) = [] ↔
        ∃ k : StepKind, n.kind = k.name ∨ n.kind ∈ k.aliases := by
    rw [ite_eq_left_iff]
    simp only [reduceCtorEq, imp_false, not_not,
      StepKind.Named, StepKind.mem_all, true_and]
  have hKey :
      (n.key.toList.filter fun s =>
          s ≠ "" ∧ ¬ Key.Named s).map (LoadError.badKey id) =
          [] ↔
        ∀ s, n.key = some s → s = "" ∨ ∃ k : Key, s = k.text := by
    rw [List.map_eq_nil_iff, List.filter_eq_nil_iff]
    simp only [Option.mem_toList, decide_eq_true_eq,
      not_and_not_right, ne_eq, or_iff_not_imp_left]
    simp only [Key.Named, Key.mem_all, true_and]
  have hSettings :
      n.parameters.entries.filterMap (settingFault? id) = [] ↔
        ∀ name d, n.parameters.get? name = some d →
          d.Settable := by
    simp [settingFault?, NameMap.mem_entries_iff]
  unfold faults
  rw [List.append_eq_nil_iff, List.append_eq_nil_iff,
    List.append_eq_nil_iff, hId, hKind, hKey, hSettings]
  constructor
  · rintro ⟨⟨⟨hId, hKind⟩, hKey⟩, hSettings⟩
    exact ⟨hId, hKind, hKey, hSettings⟩
  · intro h
    exact ⟨⟨⟨h.id, h.kind⟩, h.key⟩, h.settings⟩

/- No faults are listed exactly if all nodes are readable. -/
theorem Document.nodeFaults_eq_nil_iff
    {d : Document} :
    (d.nodes.entries.flatMap fun e => e.2.faults e.1) = [] ↔
      ∀ id n, d.nodes.get? id = some n → n.Readable id := by
  simp [NodeDocument.faults_eq_nil_iff,
    NameMap.mem_entries_iff]

/- No faults are listed exactly for a readable document. -/
theorem Document.faults_eq_nil_iff
    {d : Document} : d.faults = [] ↔ d.Readable := by
  unfold faults
  rw [List.append_eq_nil_iff, nodeFaults_eq_nil_iff]
  constructor
  · rintro ⟨hVersion, hNodes⟩
    exact ⟨by simpa using hVersion, hNodes⟩
  · intro h
    exact ⟨by simp [h.version], h.nodes⟩

------------------------------------------------------------
-- Loading
------------------------------------------------------------

/- A stored key that is read has no fault. -/
theorem NodeDocument.failsFirst_loadKey
    (id : String)
    (n : NodeDocument) :
    FailsFirst
      ((n.key.toList.filter fun s =>
        s ≠ "" ∧ ¬ Key.Named s).map (.badKey id))
      (n.loadKey id) := by
  unfold loadKey
  rcases n.key with _ | s
  · exact failsFirst_ok none
  · by_cases hEmpty : s = ""
    · simpa [hEmpty] using failsFirst_ok none
    · rcases hKey : Key.ofText? s with _ | k
      · have hNot := (Key.ofText?_eq_none_iff s).mp hKey
        simpa [hEmpty, hNot, hKey] using
          failsFirst_error (LoadError.badKey id s) []
      · have hNamed : Key.Named s := by
          by_contra hNot
          rw [(Key.ofText?_eq_none_iff s).mpr hNot] at hKey
          cases hKey
        simpa [hEmpty, hNamed, hKey] using
          failsFirst_ok (some k)

/- A setting that is read has no fault. -/
theorem NodeDocument.failsFirst_loadSetting
    (id : String)
    (e : String × Datum) :
    FailsFirst (settingFault? id e).toList
      (loadSetting id e) := by
  rcases e with ⟨name, d⟩
  by_cases hSettable : d.Settable
  · rw [settingFault?, if_pos hSettable]
    rcases hSettable with rfl | ⟨v, rfl⟩
    · exact failsFirst_ok none
    · rw [Node.loadSetting_document]
      exact failsFirst_ok (some (name, v))
  · rw [settingFault?, if_neg hSettable]
    have hNotNull : d ≠ .null :=
      fun hNull => hSettable (Or.inl hNull)
    have hNone : Value.ofDatum? d = none := by
      by_contra hSome
      rcases Option.ne_none_iff_exists'.mp hSome with
        ⟨v, hRead⟩
      exact hSettable
        (Or.inr ⟨v, Datum.eq_datum_of_ofDatum? hRead⟩)
    have hError : loadSetting id (name, d) =
        .error (.unsupportedValue id name d) := by
      unfold loadSetting
      split
      · contradiction
      · rw [hNone]
    rw [hError]
    exact failsFirst_error _ []

/- The settings of a stored node fail with their first fault. -/
theorem NodeDocument.failsFirst_settings
    (id : String)
    (n : NodeDocument) :
    FailsFirst
      (n.parameters.entries.filterMap (settingFault? id))
      (n.parameters.entries.mapM (loadSetting id)) := by
  rw [List.filterMap_eq_flatMap_toList]
  exact failsFirst_mapM fun e _ => failsFirst_loadSetting id e

/- A stored node is rejected for its first fault. -/
theorem NodeDocument.failsFirst_node
    (id : String)
    (n : NodeDocument) :
    FailsFirst (n.faults id) (n.node id) := by
  unfold faults node
  by_cases hId : n.id = "" ∨ n.id = id
  · have hSame : ¬ (n.id ≠ "" ∧ n.id ≠ id) :=
      not_and_or.mpr (hId.imp not_not.mpr not_not.mpr)
    rw [if_pos hId, if_neg hSame, List.nil_append]
    rcases hRead : StepKind.ofName? n.kind with _ | kind
    · have hNot := (StepKind.ofName?_eq_none_iff _).mp hRead
      rw [if_neg hNot]
      exact failsFirst_error _ _
    · have hNamed : StepKind.Named n.kind :=
        ⟨kind, StepKind.mem_all kind,
          StepKind.name_or_alias_of_ofName? hRead⟩
      rw [if_pos hNamed, List.nil_append]
      refine (n.failsFirst_loadKey id).bind fun key _ => ?_
      have hRest := (n.failsFirst_settings id).bind
        fun settings _ => failsFirst_ok
          ({ kind := kind
             label := n.label
             settings :=
               NameMap.ofList (settings.filterMap fun e => e)
             key := key
             parent := n.parentId
             children := n.children } : Node)
      rwa [List.append_nil] at hRest
  · have hOther : n.id ≠ "" ∧ n.id ≠ id := not_or.mp hId
    rw [if_neg hId, if_pos hOther]
    exact failsFirst_error _ _

/- A document is rejected for the first fault of its nodes. -/
theorem Document.failsFirst_assemble
    (d : Document) :
    FailsFirst
      (d.nodes.entries.flatMap fun e => e.2.faults e.1)
      d.assemble := by
  have hNodes := failsFirst_mapM (l := d.nodes.entries)
    (f := fun e => do return (e.1, ← e.2.node e.1))
    (g := fun e => e.2.faults e.1) fun e _ => by
      have hNode := (e.2.failsFirst_node e.1).bind
        fun n _ => failsFirst_ok (e.1, n)
      rwa [List.append_nil] at hNode
  have hFlow := hNodes.bind fun nodes _ => failsFirst_ok
    ({ name := d.name
       rootId := d.rootId
       nodes := NameMap.ofList nodes
       nextId := d.nextId
       version := d.revision } : Flow)
  rwa [List.append_nil] at hFlow

end CallFlow
