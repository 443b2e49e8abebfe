import RowGuard.Proofs.Extension

/-!
# Nodes with equal parts

Agreement tells errors apart by their weight only.  Where the children of two
nodes evaluate to the very same, errors and queries included, so do the nodes:
what is looked at, in which order and how far, depends on these results alone.
-/

namespace RowGuard.Expression

open Query (Label Phrase)
open Query.Phrase

variable {ev : Evaluator} {sub sub' : Phrase → Eval Value} {env env' : Environment}

/-- Children of which each evaluates to the same as its counterpart. -/
abbrev EqualValues (ev : Evaluator) (sub sub' : Phrase → Eval Value)
    (env env' : Environment) : List Phrase → List Phrase → Prop :=
  List.Forall₂ fun t u => value ev sub env t = value ev sub' env' u

theorem values_congr {ts us : List Phrase} (h : EqualValues ev sub sub' env env' ts us) :
    values ev sub env ts = values ev sub' env' us := by
  induction h with
  | nil => rfl
  | cons hfirst _ ih => rw [values, values, hfirst, ih]

theorem anyHolds_congr {ts us : List Phrase} (h : EqualValues ev sub sub' env env' ts us) :
    anyHolds ev sub env ts = anyHolds ev sub' env' us := by
  induction h with
  | nil => rfl
  | cons hfirst _ ih => rw [anyHolds, anyHolds, hfirst, ih]

theorem allHold_congr {ts us : List Phrase} (h : EqualValues ev sub sub' env env' ts us) :
    allHold ev sub env ts = allHold ev sub' env' us := by
  induction h with
  | nil => rfl
  | cons hfirst _ ih => rw [allHold, allHold, hfirst, ih]

theorem anyHas_congr (v : Value) {ts us : List Phrase}
    (h : EqualValues ev sub sub' env env' ts us) :
    anyHas ev sub env v ts = anyHas ev sub' env' v us := by
  induction h with
  | nil => rfl
  | cons hfirst _ ih => rw [anyHas, anyHas, hfirst, ih]

/-- A membership asks for the first operand, and for the others if it is not null. -/
theorem isIn_congr {c c' : Phrase} {items items' : List Phrase} (hitems : items ≠ [])
    (hitems' : items' ≠ []) (hfirst : value ev sub env c = value ev sub' env' c')
    (h : ∀ v : Value, v.isNull = false →
      anyHas ev sub env v items = anyHas ev sub' env' v items') (s s' : Source.Span) :
    value ev sub env (.node .isIn (c :: items) s) =
      value ev sub' env' (.node .isIn (c' :: items') s') := by
  rw [value_isIn c hitems, value_isIn c' hitems', hfirst]
  congr 1
  funext v
  split
  · rfl
  · rename_i hnull
    rw [h v (by simpa using hnull)]

theorem EqualValues.singleton {ts us : List Phrase}
    (h : EqualValues ev sub sub' env env' ts us) (hlength : ts.length = 1) :
    ∃ t u, ts = [t] ∧ us = [u] ∧ value ev sub env t = value ev sub' env' u := by
  rcases h with _ | ⟨hvalue, _ | _⟩
  · cases hlength
  · exact ⟨_, _, rfl, rfl, hvalue⟩
  · simp at hlength

theorem enclosing_congr {l : Label} (hl : l = .whereClause ∨ l = .havingClause ∨ l = .brackets)
    {ts us : List Phrase} (hlength : ts.length = 1)
    (h : EqualValues ev sub sub' env env' ts us) (s s' : Source.Span) :
    value ev sub env (.node l ts s) = value ev sub' env' (.node l us s') := by
  obtain ⟨t, u, rfl, rfl, hvalue⟩ := h.singleton hlength
  rw [value_enclosing hl, value_enclosing hl, hvalue]

theorem not_congr {ts us : List Phrase} (hlength : ts.length = 1)
    (h : EqualValues ev sub sub' env env' ts us) (s s' : Source.Span) :
    value ev sub env (.node .not ts s) = value ev sub' env' (.node .not us s') := by
  obtain ⟨t, u, rfl, rfl, hvalue⟩ := h.singleton hlength
  rw [value_not, value_not, hvalue]

theorem equal_congr {ts us : List Phrase} (hlength : ts.length = 2)
    (h : EqualValues ev sub sub' env env' ts us) (s s' : Source.Span) :
    value ev sub env (.node (.compare .equal) ts s) =
      value ev sub' env' (.node (.compare .equal) us s') := by
  rcases h with _ | ⟨hleft, hrest⟩
  · cases hlength
  obtain ⟨t, u, rfl, rfl, hright⟩ := EqualValues.singleton hrest (by simpa using hlength)
  rw [value_equal, value_equal, hleft, hright]

theorem between_congr {ts us : List Phrase} (hlength : ts.length = 3)
    (h : EqualValues ev sub sub' env env' ts us) (s s' : Source.Span) :
    value ev sub env (.node .between ts s) = value ev sub' env' (.node .between us s') := by
  rcases h with _ | ⟨hvalue, _ | ⟨hlower, hrest⟩⟩
  · cases hlength
  · simp at hlength
  obtain ⟨t, u, rfl, rfl, hupper⟩ := EqualValues.singleton hrest (by simpa using hlength)
  rw [value_between, value_between, hvalue, hlower, hupper]

/-- A node evaluates to the same as its counterpart if its children do. -/
theorem node_congr {l : Label} (hcompound : l.isCompound) {ts us : List Phrase}
    (h : EqualValues ev sub sub' env env' ts us) (s s' : Source.Span) :
    value ev sub env (.node l ts s) = value ev sub' env' (.node l us s') := by
  have hlength := h.length_eq
  cases hcount : Operation.admits l ts.length with
  | false =>
      rw [value_of_not_admits hcompound hcount,
        value_of_not_admits hcompound (hlength ▸ hcount), hlength]
  | true =>
      cases hspecial : isSpecial l with
      | false =>
          rw [value_of_admits hcompound hspecial hcount,
            value_of_admits hcompound hspecial (hlength ▸ hcount), values_congr h]
      | true =>
          have hne : Operation.admits .or ts.length → ts ≠ [] ∧ us ≠ [] := fun hle => by
            have hle : 1 ≤ ts.length := by simpa [Operation.admits, Operation.operands] using hle
            exact ⟨List.length_pos_iff.mp hle, List.length_pos_iff.mp (hlength ▸ hle)⟩
          cases l with
          | whereClause | havingClause | brackets =>
              exact enclosing_congr (by simp) (Operation.eq_of_admits rfl hcount) h s s'
          | not => exact not_congr (Operation.eq_of_admits rfl hcount) h s s'
          | compare op =>
              cases op with
              | equal => exact equal_congr (Operation.eq_of_admits rfl hcount) h s s'
              | _ => cases hspecial
          | between => exact between_congr (Operation.eq_of_admits rfl hcount) h s s'
          | or =>
              obtain ⟨hts, hus⟩ := hne hcount
              rw [value_or hts, value_or hus, anyHolds_congr h]
          | and =>
              obtain ⟨hts, hus⟩ := hne hcount
              rw [value_and hts, value_and hus, allHold_congr h]
          | isIn =>
              rcases h with _ | ⟨hfirst, _ | ⟨hsecond, hrest⟩⟩
              · cases hcount
              · cases hcount
              · exact isIn_congr (by simp) (by simp) hfirst
                  (fun v _ => anyHas_congr v (.cons hsecond hrest)) s s'
          | subselect => cases hcompound
          | path => cases hcompound
          | _ => cases hspecial

/-- A path is followed from the value of its root along the texts of its segments. -/
theorem path_congr {ts us : List Phrase} (h : EqualValues ev sub sub' env env' ts us)
    (htexts : (ts.drop 1).map text? = (us.drop 1).map text?) (s s' : Source.Span) :
    value ev sub env (.node .path ts s) = value ev sub' env' (.node .path us s') := by
  unfold value
  rcases h with _ | @⟨root, root', segments, segments', hroot, _⟩
  · rfl
  · have hsegments : segmentsOf segments = segmentsOf segments' := by
      simp only [List.drop_succ_cons, List.drop_zero] at htexts
      have hwords := congrArg (List.filterMap id) htexts
      simp only [List.filterMap_map, Function.id_comp] at hwords
      rw [segmentsOf, segmentsOf, hwords]
    simp only [terminal?, hroot, follow, hsegments]
    rfl

end RowGuard.Expression
