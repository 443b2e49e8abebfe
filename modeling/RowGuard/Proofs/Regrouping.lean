import RowGuard.Proofs.Congruence
import RowGuard.Proofs.NormalForms
import RowGuard.Proofs.Rewriting

/-!
# Normal forms mean the same

Normalising regroups operands.  Operands that are spliced in are looked at where
the conjunction they come from was looked at, in the same order and just as far,
so a phrase and its normal form evaluate to the same, errors and queries to the
store included.  A subselect is normalised once more when it is evaluated.  That
this changes nothing, the normal form being normal already, is what carries the
argument into subselects.

A segment of a path is read and not evaluated.  Brackets around it are no segment,
while what they enclose is one; so segments must stand without brackets.
-/

namespace RowGuard

open Query (Label Phrase)
open Query.Phrase
open Query.NormalForm

/-! ## What is normalised -/

namespace Query.Phrase

/-- A node that says the same in normal form: conjunctions and disjunctions have
operands, and the segments of a path stand without brackets. -/
structure IsProperNode (t : Phrase) : Prop where
  operands : t.label = .and ∨ t.label = .or → t.children ≠ []
  segments : t.label = .path → ∀ c ∈ t.children.drop 1, c.label ≠ .brackets

instance (t : Phrase) : Decidable t.IsProperNode :=
  decidable_of_iff ((t.label = .and ∨ t.label = .or → t.children ≠ []) ∧
    (t.label = .path → ∀ c ∈ t.children.drop 1, c.label ≠ .brackets))
    ⟨fun h => ⟨h.1, h.2⟩, fun h => ⟨h.operands, h.segments⟩⟩

/-- All nodes that are evaluated are proper ones; subselects are evaluated in normal
form, whatever is nested in them. -/
def IsProper (t : Phrase) : Prop :=
  ∀ u ∈ t.visit (fun u => u.label != .subselect), u.IsProperNode

instance (t : Phrase) : Decidable t.IsProper :=
  inferInstanceAs (Decidable (∀ u ∈ t.visit (fun u => u.label != .subselect), u.IsProperNode))

variable {l : Label} {cs : List Phrase} {s : Source.Span}

theorem IsProper.self (h : (Phrase.node l cs s).IsProper) : (Phrase.node l cs s).IsProperNode :=
  h _ (by simp [visit])

theorem IsProper.child (h : (Phrase.node l cs s).IsProper) (hl : l ≠ .subselect) :
    ∀ c ∈ cs, c.IsProper := by
  intro c hc u hu
  refine h u ?_
  simp only [visit, label, bne_iff_ne, ne_eq, hl, not_false_eq_true, if_true, List.mem_cons]
  exact Or.inr (mem_visitAll.mpr ⟨c, hc, hu⟩)

end Query.Phrase

/-! ## Labels and depth -/

namespace Query.NormalForm

variable {l : Label} {cs : List Phrase} {s : Source.Span}

theorem label_close (hl : l ≠ .brackets) : (close l cs s).label = l := by
  unfold close
  split <;> first | rfl | exact absurd rfl hl

/-- What takes the place of brackets stands by itself, so it is no operation. -/
theorem label_close_brackets (cs : List Phrase) (s : Source.Span) :
    (close .brackets cs s).label = .brackets ∨
      ∃ t, cs = [t] ∧ t.label.isAtomic ∧ close .brackets cs s = t := by
  unfold close
  simp only
  split
  · rename_i t
    split
    · rename_i hatomic
      exact Or.inr ⟨t, rfl, hatomic, rfl⟩
    · exact Or.inl rfl
  · exact Or.inl rfl

/-- Operands with operands of their own leave some to the operation around them. -/
theorem spliced_ne_nil (hcs : cs ≠ []) (h : ∀ c ∈ cs, c.label = l → c.children ≠ []) :
    cs.flatMap (splice l) ≠ [] := by
  obtain ⟨c, cs, rfl⟩ := List.exists_cons_of_ne_nil hcs
  have hsplice : splice l c ≠ [] := by
    unfold splice
    split
    · rename_i hc
      exact h c List.mem_cons_self hc
    · exact List.cons_ne_nil c []
  simp [hsplice]

theorem depthAll_append (ts us : List Phrase) :
    depthAll (ts ++ us) = max (depthAll ts) (depthAll us) := by
  induction ts with
  | nil => simp [depthAll]
  | cons t ts ih => simp [depthAll, ih, Nat.max_assoc]

theorem depthAll_splice (hl : l = .and ∨ l = .or) (t : Phrase) :
    depthAll (splice l t) = t.depth := by
  obtain ⟨m, cs, s⟩ := t
  unfold splice
  split
  · rename_i hlabel
    obtain rfl : m = l := hlabel
    rcases hl with rfl | rfl <;> simp [depth, children]
  · simp [depthAll]

theorem depthAll_spliced (hl : l = .and ∨ l = .or) (cs : List Phrase) :
    depthAll (cs.flatMap (splice l)) = depthAll cs := by
  induction cs with
  | nil => rfl
  | cons c cs ih => rw [List.flatMap_cons, depthAll_append, depthAll_splice hl, ih, depthAll]

theorem depth_close : (close l cs s).depth = (Phrase.node l cs s).depth := by
  unfold close
  split
  · simp [depth, depthAll_spliced]
  · simp [depth, depthAll_spliced]
  · split
    · split <;> simp [depth, depthAll]
    · rfl
  · rfl

end Query.NormalForm

mutual

/-- Normalising takes no subselect away and nests none deeper. -/
theorem Query.Phrase.depth_normalize : ∀ t : Phrase, t.normalize.depth = t.depth
  | .node l cs s => by
      rw [normalize, depth_close, depth, depth, depthAll_normalizeAll cs]

theorem Query.Phrase.depthAll_normalizeAll : ∀ ts : List Phrase,
    depthAll (normalizeAll ts) = depthAll ts
  | [] => rfl
  | t :: ts => by
      rw [normalizeAll, depthAll, depthAll, depth_normalize t, depthAll_normalizeAll ts]

end

theorem Query.Phrase.normalizeAll_ne_nil {ts : List Phrase} (h : ts ≠ []) :
    normalizeAll ts ≠ [] := by
  cases ts with
  | nil => exact absurd rfl h
  | cons t ts => simp [normalizeAll]

mutual

/-- No operand is lost: what is a conjunction or a disjunction in normal form has some. -/
theorem Query.Phrase.IsProper.children_normalize : ∀ {t : Phrase}, t.IsProper →
    t.normalize.label = .and ∨ t.normalize.label = .or → t.normalize.children ≠ []
  | .node l cs s, h, hlabel => by
      by_cases hbrackets : l = .brackets
      · subst hbrackets
        rcases label_close_brackets (normalizeAll cs) s with hl | ⟨t, -, ht, heq⟩
        · rw [normalize, hl] at hlabel
          simp at hlabel
        · rw [normalize, heq] at hlabel
          rcases hlabel with hlabel | hlabel <;> rw [hlabel] at ht <;> cases ht
      · rw [normalize, label_close hbrackets] at hlabel
        have hselect : l ≠ .subselect := by rcases hlabel with rfl | rfl <;> simp
        have hspliced : (normalizeAll cs).flatMap (splice l) ≠ [] := by
          refine spliced_ne_nil (normalizeAll_ne_nil (h.self.operands hlabel)) fun c hc hl => ?_
          exact operands_normalizeAll cs (h.child hselect) c hc (hl ▸ hlabel)
        rcases hlabel with rfl | rfl <;> simpa [normalize, close, children] using hspliced

theorem Query.Phrase.operands_normalizeAll : ∀ ts : List Phrase, (∀ t ∈ ts, t.IsProper) →
    ∀ u ∈ normalizeAll ts, u.label = .and ∨ u.label = .or → u.children ≠ []
  | [], _ => by simp [normalizeAll]
  | t :: ts, h => by
      obtain ⟨ht, hts⟩ := List.forall_mem_cons.mp h
      exact List.forall_mem_cons.mpr ⟨ht.children_normalize, operands_normalizeAll ts hts⟩

end

/-! ## Operands of operands -/

namespace Expression

variable {ev : Evaluator} {sub : Phrase → Eval Value} {env : Environment}

/-- It does not matter how truths that decide alike are grouped. -/
theorem combine_assoc (decisive : Bool) (x rest rest' : Traced (Option Bool)) :
    x >>= combine decisive rest >>= combine decisive rest' =
      x >>= combine decisive (rest >>= combine decisive rest') := by
  rw [bind_assoc]
  refine bind_congr fun b => ?_
  rcases b with _ | b
  · simp only [combine, bind_assoc]
    refine bind_congr fun b => ?_
    rw [pure_bind]
    by_cases hb : b = some decisive
    · simp only [hb, if_true, combine, pure_bind]
    · rw [if_neg hb]
      rcases b with _ | b
      · simp only [combine, bind_assoc, pure_bind]
        refine bind_congr fun b => ?_
        split <;> simp
      · simp only [combine, show b ≠ decisive by simpa using hb, if_false]
  · by_cases hb : b = decisive
    · simp only [combine, hb, if_true, pure_bind]
    · simp only [combine, hb, if_false]

theorem anyHolds_append (ts us : List Phrase) :
    anyHolds ev sub env (ts ++ us) =
      anyHolds ev sub env ts >>= combine true (anyHolds ev sub env us) := by
  induction ts with
  | nil => exact (pure_bind (some false) (combine true (anyHolds ev sub env us))).symm
  | cons t ts ih => rw [List.cons_append, anyHolds_cons, anyHolds_cons, ih, combine_assoc]

theorem allHold_append (ts us : List Phrase) :
    allHold ev sub env (ts ++ us) =
      allHold ev sub env ts >>= combine false (allHold ev sub env us) := by
  induction ts with
  | nil => exact (pure_bind (some true) (combine false (allHold ev sub env us))).symm
  | cons t ts ih => rw [List.cons_append, allHold_cons, allHold_cons, ih, combine_assoc]

/-- The operands of a disjunction stand for it in a disjunction around it. -/
theorem anyHolds_spliced {ts : List Phrase}
    (h : ∀ t ∈ ts, t.label = .or → t.children ≠ []) :
    anyHolds ev sub env (ts.flatMap (splice .or)) = anyHolds ev sub env ts := by
  induction ts with
  | nil => rfl
  | cons t ts ih =>
      obtain ⟨ht, hts⟩ := List.forall_mem_cons.mp h
      obtain ⟨l, cs, s⟩ := t
      rw [List.flatMap_cons, splice]
      split
      · rename_i hl
        obtain rfl : l = .or := hl
        have hcs : cs ≠ [] := ht rfl
        rw [anyHolds_append, ih hts, anyHolds_cons, truthOf_ofTruth (value_or hcs s)]
        rfl
      · rw [List.singleton_append, anyHolds_cons, anyHolds_cons, ih hts]

theorem allHold_spliced {ts : List Phrase}
    (h : ∀ t ∈ ts, t.label = .and → t.children ≠ []) :
    allHold ev sub env (ts.flatMap (splice .and)) = allHold ev sub env ts := by
  induction ts with
  | nil => rfl
  | cons t ts ih =>
      obtain ⟨ht, hts⟩ := List.forall_mem_cons.mp h
      obtain ⟨l, cs, s⟩ := t
      rw [List.flatMap_cons, splice]
      split
      · rename_i hl
        obtain rfl : l = .and := hl
        have hcs : cs ≠ [] := ht rfl
        rw [allHold_append, ih hts, allHold_cons, truthOf_ofTruth (value_and hcs s)]
        rfl
      · rw [List.singleton_append, allHold_cons, allHold_cons, ih hts]

/-! ## Expressions -/

/-- Subselects that are answered like their normal forms. -/
def AnswersNormal (sub : Phrase → Eval Value) : Prop :=
  ∀ t : Phrase, t.label = .subselect → sub t.normalize = sub t

/-- The texts of segments without brackets are those of their normal forms. -/
theorem texts_normalizeAll {ts : List Phrase} (h : ∀ t ∈ ts, t.label ≠ .brackets) :
    (normalizeAll ts).map text? = ts.map text? := by
  induction ts with
  | nil => rfl
  | cons t ts ih =>
      obtain ⟨ht, hts⟩ := List.forall_mem_cons.mp h
      obtain ⟨l, cs, s⟩ := t
      have hlabel : (Phrase.node l cs s).normalize.label = l := label_close ht
      simp only [normalizeAll, List.map_cons, ih hts, text?, hlabel]
      rfl

theorem texts_segments {ts : List Phrase} (h : ∀ t ∈ ts.drop 1, t.label ≠ .brackets) :
    ((normalizeAll ts).drop 1).map text? = (ts.drop 1).map text? := by
  cases ts with
  | nil => rfl
  | cons t ts => exact texts_normalizeAll h

/-- Operands that are spliced in are evaluated where their operation was. -/
theorem value_close {l : Label} {cs : List Phrase} (hproper : l = .and ∨ l = .or → cs ≠ [])
    (hoperands : ∀ c ∈ cs, c.label = .and ∨ c.label = .or → c.children ≠ []) (s : Source.Span) :
    value ev sub env (close l cs s) = value ev sub env (.node l cs s) := by
  have hspliced : l = .and ∨ l = .or → cs.flatMap (splice l) ≠ [] := fun hl =>
    spliced_ne_nil (hproper hl) fun c hc hc' => hoperands c hc (hc' ▸ hl)
  unfold close
  split
  · rw [value_and (hspliced (by simp)), value_and (hproper (by simp)),
      allHold_spliced fun c hc hl => hoperands c hc (Or.inl hl)]
  · rw [value_or (hspliced (by simp)), value_or (hproper (by simp)),
      anyHolds_spliced fun c hc hl => hoperands c hc (Or.inr hl)]
  · split
    · split
      · rw [value_enclosing (by simp)]
      · rfl
    · rfl
  · rfl

mutual

/-- A phrase and its normal form evaluate to the same. -/
theorem value_normalize (hsub : AnswersNormal sub) : ∀ t : Phrase, t.IsProper →
    value ev sub env t.normalize = value ev sub env t
  | .node l cs s, h => by
      by_cases hselect : l = .subselect
      · subst hselect
        rw [value_subselect, ← hsub _ rfl]
        exact value_subselect _ s
      have hchildren : EqualValues ev sub sub env env (normalizeAll cs) cs :=
        values_normalizeAll hsub cs (h.child hselect)
      rw [Phrase.normalize, value_close]
      · cases hterminal : terminal? env l with
        | some outcome => rw [value_of_terminal hterminal, value_of_terminal hterminal]
        | none =>
            by_cases hcompound : l.isCompound
            · exact node_congr hcompound hchildren s s
            by_cases hpath : l = .path
            · subst hpath
              exact path_congr hchildren (texts_segments (h.self.segments rfl)) s s
            · rw [value_refused hterminal (by simpa using hcompound) hselect hpath,
                value_refused hterminal (by simpa using hcompound) hselect hpath]
      · exact fun hl => normalizeAll_ne_nil (h.self.operands hl)
      · exact operands_normalizeAll cs (h.child hselect)

theorem values_normalizeAll (hsub : AnswersNormal sub) : ∀ ts : List Phrase,
    (∀ t ∈ ts, t.IsProper) → EqualValues ev sub sub env env (normalizeAll ts) ts
  | [], _ => .nil
  | t :: ts, h => by
      obtain ⟨ht, hts⟩ := List.forall_mem_cons.mp h
      exact .cons (value_normalize hsub t ht) (values_normalizeAll hsub ts hts)

end

end Expression

/-! ## Evaluation -/

namespace Evaluator

/-- Subselects are checked and answered in normal form. -/
theorem subselect_normalize (ev : Evaluator) (evaluate : Environment → Phrase → Eval Value)
    (env : Environment) : Expression.AnswersNormal (ev.subselect evaluate env) := by
  intro t hlabel
  unfold subselect Query.Statement.ofSubselect
  rw [if_pos hlabel, if_pos (label_normalize_subselect hlabel),
    (isNormal_normalize t).normalize_eq]

theorem valueAt_normalize (ev : Evaluator) (n : Nat) (env : Environment) {t : Phrase}
    (h : t.IsProper) : ev.valueAt n env t.normalize = ev.valueAt n env t := by
  cases n with
  | zero => exact Expression.value_normalize (fun _ _ => rfl) t h
  | succ n => exact Expression.value_normalize (ev.subselect_normalize _ env) t h

end Evaluator

namespace Query.Phrase

/-- Normalising a second time changes nothing, and normalising changes nothing of what
a phrase evaluates to, its errors and its queries to the store included. -/
theorem normal_form_evaluates_alike {t : Phrase} (h : t.IsProper) :
    t.normalize.normalize = t.normalize ∧
      ∀ (ev : Evaluator) (env : Environment), ev.value env t.normalize = ev.value env t := by
  refine ⟨(isNormal_normalize t).normalize_eq, fun ev env => ?_⟩
  rw [Evaluator.value, Evaluator.value, depth_normalize]
  exact ev.valueAt_normalize t.depth env h

/-- The conjunction of `d.open` and the conjunction of `(d.shared)` and `1 = 0`. -/
def groupedCondition : Phrase :=
  build .and [path (identifier "d") ["open"],
    build .and [bracketed (path (identifier "d") ["shared"]), alwaysFalse]]

theorem normal_form_evaluates_alike_grouped :
    groupedCondition.IsProper ∧
      groupedCondition.normalize = build .and [path (identifier "d") ["open"],
        path (identifier "d") ["shared"], alwaysFalse] ∧
      ∀ (ev : Evaluator) (env : Environment),
        ev.value env groupedCondition.normalize = ev.value env groupedCondition := by
  have hproper : groupedCondition.IsProper := by decide
  exact ⟨hproper, rfl, (normal_form_evaluates_alike hproper).2⟩

/-- A path with brackets around its segment. -/
def bracketedSegment : Phrase :=
  build .path [identifier "d", build .brackets [build (.segment "title") []]]

/-- The brackets are no segment, so the path leads to the document, and in normal form it
leads to the title. -/
theorem bracketed_segment_evaluates_otherwise :
    let ev : Evaluator :=
      { world := ⟨[⟨"Document", none, [("title", .string "minutes")]⟩]⟩
        mapping := { classes := [] } }
    let env : Environment := { aliases := [("d", .entity 0)], now := default }
    (∀ u ∈ bracketedSegment.nodes, u.label = .and ∨ u.label = .or → u.children ≠ []) ∧
      ev.value env bracketedSegment = Eval.ofOutcome (.ok (some (.entity 0))) ∧
      ev.value env bracketedSegment.normalize =
        Eval.ofOutcome (.ok (some (.string "minutes"))) := by
  intro ev env
  have hsegment : bracketedSegment.normalize.IsReference "d" ["title"] := by
    rw [show bracketedSegment.normalize = path (identifier "d") ["title"] from rfl]
    exact isReference_path rfl (by decide +kernel)
  exact ⟨by decide, rfl, ev.valueAt_reference _ env hsegment⟩

end Query.Phrase

end RowGuard
