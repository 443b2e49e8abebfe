import RowGuard.Proofs.Acceptance
import RowGuard.Proofs.Transcription

/-!
# Brackets and borders

The text of a condition has brackets where an operand binds looser than its place allows, and a
conjunction that is an operand of a conjunction loses its borders in it.  Both can be written out in
the phrase: the phrase with the brackets of its text and without the borders that the text does not
show is written as the phrase was, and without any brackets and borders the two are one.
-/

namespace RowGuard

open Query (Label Phrase)
open Query.Phrase Query.Rendering

namespace Query.Phrase

/-! ## Brackets and borders -/

/-- The node with operands spliced in, and nothing but the enclosed phrase for brackets. -/
def dissolve (l : Label) (cs : List Phrase) (s : Source.Span) : Phrase :=
  match l with
  | .and | .or => .node l (cs.flatMap (NormalForm.splice l)) s
  | .brackets =>
      match cs with
      | [t] => t
      | ts => .node .brackets ts s
  | _ => .node l cs s

mutual

/-- The phrase without brackets, conjunctions in conjunctions and disjunctions in disjunctions. -/
def ungroup : Phrase → Phrase
  | .node l cs s => dissolve l (ungroupAll cs) s

def ungroupAll : List Phrase → List Phrase
  | [] => []
  | t :: ts => ungroup t :: ungroupAll ts

end

/-- The phrase as an operand where only phrases of some precedence may stand. -/
def enclose (least : Nat) (t : Phrase) : Phrase :=
  if t.label.precedence < least then .build .brackets [t] else t

/-- The operands that an operand of a conjunction or a disjunction is read as. -/
def spread (l : Label) (t : Phrase) : List Phrase :=
  if t.label = l then t.children else [enclose l.precedence t]

/-- The operands of a phrase as they are printed. -/
def arrange (l : Label) (cs : List Phrase) : List Phrase :=
  match l, cs with
  | .and, cs => cs.flatMap (spread .and)
  | .or, cs => cs.flatMap (spread .or)
  | .not, [t] => [enclose 3 t]
  | .compare _, [t, u] => [enclose 4 t, enclose 5 u]
  | .between, [v, t, u] => [enclose 5 v, enclose 5 t, enclose 5 u]
  | .isIn, v :: ts => enclose 5 v :: ts
  | .isNull, [v] => [enclose 5 v]
  | .arithmetic op, [t, u] =>
      [enclose (Label.arithmetic op).precedence t, enclose ((Label.arithmetic op).precedence + 1) u]
  | .negative, [t] => [enclose 7 t]
  | _, cs => cs

mutual

/-- The phrase with the brackets of its text, and without the borders that the text does not
show. -/
def group : Phrase → Phrase
  | .node l cs s => .node l (arrange l (groupAll cs)) s

def groupAll : List Phrase → List Phrase
  | [] => []
  | t :: ts => group t :: groupAll ts

end

@[simp]
theorem label_group (t : Phrase) : t.group.label = t.label := by
  cases t
  rfl

theorem groupAll_eq_map (ts : List Phrase) : groupAll ts = ts.map group := by
  induction ts with
  | nil => rfl
  | cons t ts ih => rw [groupAll, ih, List.map_cons]

theorem ungroupAll_eq_map (ts : List Phrase) : ungroupAll ts = ts.map ungroup := by
  induction ts with
  | nil => rfl
  | cons t ts ih => rw [ungroupAll, ih, List.map_cons]

/-! ## Spans -/

theorem dissolve_bare (l : Label) (cs : List Phrase) (s : Source.Span) :
    dissolve l (cs.map bare) Source.Span.none = (dissolve l cs s).bare := by
  unfold dissolve
  split
  · rw [bare_node, flatMap_splice_bare]
  · rw [bare_node, flatMap_splice_bare]
  · rcases cs with _ | ⟨t, _ | ⟨u, cs⟩⟩
    · rfl
    · rfl
    · simp only [List.map_cons, bare_node]
  · rw [bare_node]

mutual

theorem ungroup_bare : ∀ t : Phrase, t.bare.ungroup = t.ungroup.bare
  | .node l cs s => by
      rw [bare, ungroup, ungroup, ungroupAll_bare, dissolve_bare]

theorem ungroupAll_bare : ∀ ts : List Phrase, ungroupAll (bareAll ts) = (ungroupAll ts).map bare
  | [] => rfl
  | t :: ts => by
      rw [bareAll, ungroupAll, ungroupAll, List.map_cons, ungroup_bare t, ungroupAll_bare ts]

end

/-! ## Brackets that are written out -/

theorem ungroup_enclose (least : Nat) (t : Phrase) : (enclose least t).ungroup = t.ungroup := by
  unfold enclose
  split <;> rfl

/-- The borders of an operand are lost either way. -/
theorem flatMap_splice_spread {l : Label} (hl : l = .and ∨ l = .or) (t : Phrase) :
    (ungroupAll (spread l t)).flatMap (NormalForm.splice l) = NormalForm.splice l t.ungroup := by
  cases t with
  | node m cs s =>
      unfold spread
      split
      · rename_i hm
        obtain rfl : m = l := hm
        rcases hl with rfl | rfl <;> rfl
      · rw [ungroupAll, ungroupAll, ungroup_enclose, List.flatMap_singleton]

theorem flatMap_splice_spreadAll {l : Label} (hl : l = .and ∨ l = .or) (cs : List Phrase) :
    (ungroupAll (cs.flatMap (spread l))).flatMap (NormalForm.splice l) =
      (ungroupAll cs).flatMap (NormalForm.splice l) := by
  induction cs with
  | nil => rfl
  | cons c cs ih =>
      rw [List.flatMap_cons, ungroupAll_eq_map, List.map_append, List.flatMap_append,
        ← ungroupAll_eq_map, ← ungroupAll_eq_map, ih, flatMap_splice_spread hl, ungroupAll,
        List.flatMap_cons]

theorem dissolve_arrange (l : Label) (cs : List Phrase) (s : Source.Span) :
    dissolve l (ungroupAll (arrange l cs)) s = dissolve l (ungroupAll cs) s := by
  unfold arrange
  split
  · simp only [dissolve, flatMap_splice_spreadAll (Or.inl rfl)]
  · simp only [dissolve, flatMap_splice_spreadAll (Or.inr rfl)]
  all_goals simp only [ungroupAll, ungroup_enclose]

mutual

/-- Without brackets and borders, nothing has changed. -/
theorem ungroup_group : ∀ t : Phrase, t.group.ungroup = t.ungroup
  | .node l cs s => by
      rw [group, ungroup, ungroup, dissolve_arrange, ungroupAll_groupAll cs]

theorem ungroupAll_groupAll : ∀ ts : List Phrase, ungroupAll (groupAll ts) = ungroupAll ts
  | [] => rfl
  | t :: ts => by
      rw [groupAll, ungroupAll, ungroupAll, ungroup_group t, ungroupAll_groupAll ts]

end

end Query.Phrase

/-! ## Texts -/

namespace Query.Rendering

theorem precedence_le (l : Label) : l.precedence ≤ 8 := by
  unfold Label.precedence
  split <;> decide

/-- Brackets that are written out are those that are printed. -/
theorem operand_enclose {least : Nat} (hleast : least ≤ 8) (t : Phrase) :
    operand least (piece (enclose least t)) = operand least (piece t) := by
  cases t with
  | node l cs s =>
      unfold enclose
      split
      · rename_i hlt
        have hloose : (piece (.node l cs s)).precedence < least := hlt
        have htight : ¬(piece (.build .brackets [.node l cs s])).precedence < least :=
          Nat.not_lt.mpr hleast
        rw [operand, if_neg htight, operand, if_pos hloose]
        rfl
      · rfl

theorem negation_enclose (t : Phrase) : negation [piece (enclose 3 t)] = negation [piece t] := by
  have hoperand := operand_enclose (by decide : 3 ≤ 8) t
  cases t with
  | node l cs s =>
      unfold enclose at hoperand ⊢
      split
      · rename_i hlt
        -- What binds looser than a negation is a conjunction or a disjunction, and no test.
        have hlabel : isPredicate l = false := by
          cases l <;> first | rfl | exact absurd hlt (Nat.not_lt.mpr (by decide : 3 ≤ 4))
        rw [if_pos hlt] at hoperand
        rw [negation, negation, Query.Grammar.negated_eq_none (t := .node l cs s) hlabel,
          Query.Grammar.negated_eq_none (t := .build .brackets [.node l cs s]) rfl, hoperand]
      · rfl

theorem binary_enclose {least : Nat} (hleast : least + 1 ≤ 8) (sign : String) (t u : Phrase) :
    binary least sign [piece (enclose least t), piece (enclose (least + 1) u)] =
      binary least sign [piece t, piece u] := by
  rw [binary, binary, operand_enclose (Nat.le_of_succ_le hleast), operand_enclose hleast]

/-! ## Operands of operands -/

/-- A text of texts is the text of all their parts. -/
theorem intercalate_flatten (sep : String) {ss : List (List String)} (h : ∀ s ∈ ss, s ≠ []) :
    sep.intercalate ss.flatten = sep.intercalate (ss.map sep.intercalate) := by
  induction ss with
  | nil => rfl
  | cons s ss ih =>
      obtain ⟨hs, hss⟩ := List.forall_mem_cons.mp h
      cases ss with
      | nil => simp
      | cons u ss =>
          have hrest : (u :: ss).flatten ≠ [] := by
            simp [hss u (by simp)]
          rw [List.flatten_cons, String.intercalate_append_of_ne_nil hs hrest, ih hss]
          exact String.intercalate_cons_cons.symm

/-- The word between the operands of a conjunction or a disjunction. -/
def connective (l : Label) : String := if l = .and then " AND " else " OR "

/-- An operand that is spread out is written as before. -/
theorem intercalate_spread {l : Label} (hl : l = .and ∨ l = .or) (t : Phrase) :
    (connective l).intercalate ((pieces (spread l t)).map (operand l.precedence)) =
      operand l.precedence (piece t) := by
  cases t with
  | node m cs s =>
      unfold spread
      split
      · rename_i hm
        obtain rfl : m = l := hm
        rcases hl with rfl | rfl <;> rfl
      · rw [pieces, pieces, List.map_singleton, String.intercalate_singleton,
          operand_enclose (precedence_le l)]

theorem nary_spread {l : Label} (hl : l = .and ∨ l = .or) {cs : List Phrase}
    (hcs : ∀ c ∈ cs, spread l c ≠ []) :
    nary l.precedence (connective l) (pieces (cs.flatMap (spread l))) =
      nary l.precedence (connective l) (pieces cs) := by
  have hparts : (pieces (cs.flatMap (spread l))).map (operand l.precedence) =
      (cs.map fun c => (pieces (spread l c)).map (operand l.precedence)).flatten := by
    rw [pieces_eq_map, List.map_flatMap, List.map_flatMap, List.flatMap_def]
    simp only [pieces_eq_map]
  have hnonempty : ∀ s ∈ cs.map fun c => (pieces (spread l c)).map (operand l.precedence),
      s ≠ [] := by
    simp only [List.forall_mem_map, pieces_eq_map]
    simpa using hcs
  rw [nary, hparts, intercalate_flatten _ hnonempty, List.map_map, nary, pieces_eq_map,
    List.map_map]
  exact congrArg _ (List.map_congr_left fun c _ => intercalate_spread hl c)

/-- Operands that are arranged are written as before. -/
theorem piece_arrange {l : Label} {cs : List Phrase} (s : Source.Span)
    (h : l = .and ∨ l = .or → ∀ c ∈ cs, spread l c ≠ []) :
    piece (.node l (arrange l cs) s) = compose l (pieces cs) := by
  unfold arrange
  split
  · have hand := nary_spread (Or.inl rfl) (h (Or.inl rfl))
    exact congrArg (Piece.mk .and · none) hand
  · have hor := nary_spread (Or.inr rfl) (h (Or.inr rfl))
    exact congrArg (Piece.mk .or · none) hor
  · rename_i t
    exact congrArg (Piece.mk .not · none) (negation_enclose t)
  · rename_i op t u
    exact congrArg (Piece.mk (.compare op) · none) (binary_enclose (by decide) _ t u)
  · simp only [piece, pieces, compose, phrase, predicate, predicateTail,
      operand_enclose (by decide : 5 ≤ 8)]
  · simp only [piece, pieces, compose, phrase, predicate, predicateTail,
      operand_enclose (by decide : 5 ≤ 8)]
  · simp only [piece, pieces, compose, phrase, predicate, predicateTail,
      operand_enclose (by decide : 5 ≤ 8)]
  · rename_i op t u
    have hprecedence : (Label.arithmetic op).precedence + 1 ≤ 8 := by cases op <;> decide
    exact congrArg (Piece.mk (.arithmetic op) · none) (binary_enclose hprecedence _ t u)
  · rename_i t
    exact congrArg (Piece.mk .negative · none)
      (congrArg ("-" ++ ·) (operand_enclose (by decide : 7 ≤ 8) t))
  · rfl

end Query.Rendering

end RowGuard
