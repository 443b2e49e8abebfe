import RowGuard.Navigation

/-!
# Paths in parts

A path can be followed part by part: what two paths lead to one behind the other is what the path
joined from them leads to, with the same faults, the same objects and their order.  Null is left
out after every step, so nothing is lost or found again where the path is cut.  From one root the
two ways to follow a path lead to the same values, be they a collection, one value or none.
-/

namespace RowGuard

/-! ## Dotted texts -/

namespace Text.Dotted

/-- The part around a joining point is cut in two. -/
theorem cut_append (cs rest : List Char) :
    cut (cs ++ '.' :: rest) = ((cut cs).1, (cut cs).2 ++ (cut rest).1 :: (cut rest).2) := by
  induction cs with
  | nil => rfl
  | cons c cs ih =>
      simp only [List.cons_append, cut, ih]
      split <;> rfl

theorem parts_append (s t : String) : parts (s ++ "." ++ t) = parts s ++ parts t := by
  simp [parts, first, others, cut_append]

end Text.Dotted

namespace Navigation

theorem segments_append (p q : String) : segments (p ++ "." ++ q) = segments p ++ segments q := by
  rw [segments, Text.Dotted.parts_append, List.filter_append]
  rfl

/-! ## Nulls -/

theorem notNull_notNull (vs : List Value) : notNull (notNull vs) = notNull vs := by
  simp [notNull]

theorem notNull_cons_of_not_isNull {v : Value} (h : v.isNull = false) (vs : List Value) :
    notNull (v :: vs) = v :: notNull vs :=
  List.filter_cons_of_pos (by simp [h])

/-- Only objects are met once, so leaving out nulls does not matter to it. -/
theorem notNull_firstMeetings (met : List ObjectId) (vs : List Value) :
    notNull (firstMeetings met vs) = firstMeetings met (notNull vs) := by
  induction vs generalizing met with
  | nil => rfl
  | cons v vs ih =>
      cases v with
      | null => exact ih met
      | entity id =>
          rw [notNull_cons_of_not_isNull rfl, firstMeetings, firstMeetings]
          split
          · exact ih met
          · rw [notNull_cons_of_not_isNull rfl, ih]
      | _ => exact congrArg _ (ih met)

variable {m : Mapping} {w : World}

/-- A step leads to no null. -/
theorem notNull_of_advance {vs reached : List Value} {segment : String}
    (h : advance m w vs segment = .ok reached) : notNull reached = reached := by
  cases hheld : vs.mapM (step m w segment) with
  | error e =>
      rw [advance, hheld] at h
      cases h
  | ok held =>
      rw [advance, hheld] at h
      obtain rfl := Except.ok.inj h
      split
      · rw [notNull_firstMeetings, notNull_notNull]
      · exact notNull_notNull _

theorem notNull_of_evaluateAll {roots reached : List Value} {p : List String}
    (h : evaluateAll m w roots p = .ok reached) : notNull reached = reached := by
  have hroots := notNull_notNull roots
  unfold evaluateAll at h
  generalize notNull roots = vs at hroots h
  induction p generalizing vs with
  | nil =>
      obtain rfl := Except.ok.inj h
      exact hroots
  | cons segment p ih =>
      rw [List.foldlM_cons] at h
      cases hnext : advance m w vs segment with
      | error e =>
          rw [hnext] at h
          cases h
      | ok next =>
          rw [hnext] at h
          exact ih next (notNull_of_advance hnext) h

/-- No path leads to null: what holds nothing is left out. -/
theorem not_isNull_of_mem_evaluateAll {roots reached : List Value} {p : List String}
    (h : evaluateAll m w roots p = .ok reached) : ∀ v ∈ reached, v.isNull = false := by
  intro v hv
  rw [← notNull_of_evaluateAll h] at hv
  simpa using (List.mem_filter.mp hv).2

/-! ## Paths joined -/

theorem evaluateAll_nil (ws : List String) : evaluateAll m w [] ws = .ok [] := by
  induction ws with
  | nil => rfl
  | cons segment ws ih => exact ih

/-- A path from several roots goes on from what its first words lead to. -/
theorem evaluateAll_append (m : Mapping) (w : World) (roots : List Value) (p q : List String) :
    evaluateAll m w roots (p ++ q) =
      evaluateAll m w roots p >>= fun vs => evaluateAll m w vs q := by
  rw [evaluateAll, List.foldlM_append, ← evaluateAll]
  cases hp : evaluateAll m w roots p with
  | error e => rfl
  | ok vs =>
      show q.foldlM (advance m w) vs = q.foldlM (advance m w) (notNull vs)
      rw [notNull_of_evaluateAll hp]

/-- From a collection without nulls a path is followed from all of its elements. -/
theorem evaluate_collection {vs : List Value} (h : notNull vs = vs) (q : List String) :
    evaluate m w (.collection vs) q =
      evaluateAll m w vs q >>= fun reached => .ok (.collection reached) := by
  cases q with
  | nil =>
      show Except.ok (Value.collection vs) = .ok (.collection (notNull vs))
      rw [h]
  | cons segment q => rfl

theorem evaluate_null (q : List String) : evaluate m w .null q = .ok .null := by
  cases q <;> rfl

theorem evaluate_entity (id : ObjectId) (segment : String) (p : List String) :
    evaluate m w (.entity id) (segment :: p) =
      read m w id segment >>= fun held => evaluate m w held p := rfl

/-- A path from one root goes on from the value of its first words. -/
theorem evaluate_append (m : Mapping) (w : World) (root : Value) (p q : List String) :
    evaluate m w root (p ++ q) = evaluate m w root p >>= fun v => evaluate m w v q := by
  induction p generalizing root with
  | nil => rfl
  | cons segment p ih =>
      cases root with
      | null => exact (evaluate_null q).symm
      | collection items =>
          -- From here on all elements are followed at once, also where the first path ends.
          have hjoined := evaluateAll_append m w items (segment :: p) q
          rw [List.cons_append] at hjoined
          rw [List.cons_append, evaluate, evaluate, hjoined]
          cases hp : evaluateAll m w items (segment :: p) with
          | error e => rfl
          | ok vs => exact (evaluate_collection (notNull_of_evaluateAll hp) q).symm
      | entity id =>
          rw [List.cons_append, evaluate_entity, evaluate_entity, bind_assoc]
          apply congrArg (_ >>= ·)
          funext held
          exact ih held
      | _ => rfl

/-! ## Two ways to follow a path -/

theorem notNull_opened (v : Value) : notNull (opened v) = notNull v.items := by
  cases v <;> rfl

theorem evaluateAll_notNull (roots : List Value) (p : List String) :
    evaluateAll m w (notNull roots) p = evaluateAll m w roots p := by
  rw [evaluateAll, notNull_notNull, evaluateAll]

/-- From one object a path goes on from all that is held under its first word. -/
theorem evaluateAll_entity (id : ObjectId) (segment : String) (p : List String) :
    evaluateAll m w [.entity id] (segment :: p) =
      read m w id segment >>= fun held => evaluateAll m w held.items p := by
  have hstep : evaluateAll m w [.entity id] (segment :: p) =
      advance m w [.entity id] segment >>= p.foldlM (advance m w) := rfl
  rw [hstep, advance, List.mapM_cons, List.mapM_nil, step]
  cases read m w id segment with
  | error e => rfl
  | ok held =>
      show p.foldlM (advance m w) (notNull ([held].flatMap opened)) =
        p.foldlM (advance m w) (notNull held.items)
      rw [List.flatMap_singleton, notNull_opened]

/-- The elements of a value lead to the elements of what the value leads to. -/
theorem evaluateAll_items (m : Mapping) (w : World) (root : Value) (p : List String) :
    evaluateAll m w root.items p = (evaluate m w root p).map fun v => notNull v.items := by
  induction p generalizing root with
  | nil => rfl
  | cons segment p ih =>
      cases root with
      | null => exact evaluateAll_nil (segment :: p)
      | collection items =>
          rw [evaluate, Value.items]
          cases hp : evaluateAll m w items (segment :: p) with
          | error e => rfl
          | ok vs => exact congrArg Except.ok (notNull_of_evaluateAll hp).symm
      | entity id =>
          show evaluateAll m w [.entity id] (segment :: p) = _
          rw [evaluateAll_entity, evaluate_entity]
          cases read m w id segment with
          | error e => rfl
          | ok held => exact ih held
      | _ => rfl

/-- Paths with a point between them are followed one behind the other, from several roots and
from one: with the same values in the same order, or with the same fault. -/
theorem joined_paths_are_followed_in_turn (m : Mapping) (w : World) (p q : String) :
    (∀ roots, evaluateAll m w roots (segments (p ++ "." ++ q)) =
      evaluateAll m w roots (segments p) >>= fun vs => evaluateAll m w vs (segments q)) ∧
    ∀ root, evaluate m w root (segments (p ++ "." ++ q)) =
      evaluate m w root (segments p) >>= fun v => evaluate m w v (segments q) := by
  rw [segments_append]
  constructor
  · intro roots
    exact evaluateAll_append m w roots (segments p) (segments q)
  · intro root
    exact evaluate_append m w root (segments p) (segments q)

/-- Followed from a list with one root, a path leads to the elements of the value that it leads to
from the root, nulls left out, or to the same fault. -/
theorem one_root_leads_to_elements (m : Mapping) (w : World) {root : Value}
    (hroot : ∀ items, root ≠ .collection items) (p : String) :
    evaluateAll m w [root] (segments p) =
      (evaluate m w root (segments p)).map fun v => notNull v.items := by
  have hitems : notNull [root] = notNull root.items := by
    cases root with
    | collection items => exact absurd rfl (hroot items)
    | _ => rfl
  rw [← evaluateAll_items, ← evaluateAll_notNull, hitems, evaluateAll_notNull]

/-- A folder that lists one document twice, with a gap between, and the document in it. -/
def listedTwice : World where
  objects := [
    .create "Folder" none [("documents", .collection [.entity 1, .null, .entity 1])],
    .create "Document" none [("folder", .entity 0)]]

theorem one_root_leads_to_elements_listed :
    (∀ items, Value.entity 0 ≠ .collection items) ∧
    evaluateAll ⟨[], []⟩ listedTwice [.entity 0] (segments "documents") =
      (evaluate ⟨[], []⟩ listedTwice (.entity 0) (segments "documents")).map
        (fun v => notNull v.items) ∧
    evaluate ⟨[], []⟩ listedTwice (.entity 0) (segments "documents") =
      .ok (.collection [.entity 1, .null, .entity 1]) := by
  have hroot : ∀ items, Value.entity 0 ≠ .collection items := by
    intro items h
    cases h
  exact ⟨hroot, one_root_leads_to_elements ⟨[], []⟩ listedTwice hroot "documents", rfl⟩

/-- On the way back to the folder both mentions of the document count once. -/
example : evaluateAll ⟨[], []⟩ listedTwice [.entity 0] (segments "documents.folder") =
    .ok [.entity 0] := rfl

end Navigation

end RowGuard
