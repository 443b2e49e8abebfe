import RowGuard.Evaluation.Expression
import RowGuard.Proofs.Bindings
import RowGuard.Query.NormalForm

/-!
# References

A reference is a name by itself or a path of single words behind a name.  It is
told by its root and its words: the phrase can be rebuilt from its dotted text,
normalising leaves it alone, and its value is that of the root followed along
the words.
-/

namespace RowGuard

open Query (Label Phrase)

/-! ## Words -/

/-- Whether a text is a part that a dotted name can have. -/
def IsWord (s : String) : Prop := s ≠ "" ∧ '.' ∉ s.toList

instance (s : String) : Decidable (IsWord s) := inferInstanceAs (Decidable (_ ∧ _))

namespace Text.Dotted

theorem cut_of_not_mem {cs : List Char} (hcs : '.' ∉ cs) : cut cs = (cs, []) := by
  induction cs with
  | nil => rfl
  | cons c cs ih =>
      simp only [List.mem_cons, not_or] at hcs
      simp [cut, ih hcs.2, Ne.symm hcs.1]

theorem cut_append_point {cs : List Char} (hcs : '.' ∉ cs) (rest : List Char) :
    cut (cs ++ '.' :: rest) = (cs, (cut rest).1 :: (cut rest).2) := by
  induction cs with
  | nil => simp [cut]
  | cons c cs ih =>
      simp only [List.mem_cons, not_or] at hcs
      simp [cut, ih hcs.2, Ne.symm hcs.1]

/-- The parts of a dotted text are found again if no point is in any of them. -/
theorem parts_join {w : String} {ws : List String} (hpoints : ∀ v ∈ w :: ws, '.' ∉ v.toList) :
    first (join (w :: ws)) = w ∧ others (join (w :: ws)) = ws := by
  induction ws generalizing w with
  | nil => simp [join, first, others, cut_of_not_mem (hpoints w (by simp))]
  | cons v ws ih =>
      obtain ⟨hfirst, hothers⟩ := ih fun u hu => hpoints u (List.mem_cons_of_mem w hu)
      have hcut : cut (join (w :: v :: ws)).toList =
          (w.toList, (cut (join (v :: ws)).toList).1 :: (cut (join (v :: ws)).toList).2) := by
        rw [← cut_append_point (hpoints w (by simp))]
        simp [join, String.intercalate_cons_cons]
      rw [first] at hfirst
      rw [others] at hothers
      simp [first, others, hcut, hfirst, hothers]

theorem parts_join_words {w : String} {ws : List String} (hwords : ∀ v ∈ w :: ws, IsWord v) :
    first (join (w :: ws)) = w ∧ others (join (w :: ws)) = ws :=
  parts_join fun v hv => (hwords v hv).2

end Text.Dotted

theorem Navigation.segments_join {ws : List String} (hwords : ∀ w ∈ ws, IsWord w) :
    segments (Text.Dotted.join ws) = ws := by
  cases ws with
  | nil => decide
  | cons w ws =>
      obtain ⟨hfirst, hothers⟩ := Text.Dotted.parts_join_words hwords
      unfold segments Text.Dotted.parts
      rw [hfirst, hothers]
      exact List.filter_eq_self.mpr fun v hv => by simpa using (hwords v hv).1

/-! ## The shape of a reference -/

namespace Query.Phrase

/-- Nodes that are the segments of a path, and their words. -/
inductive AreSegments : List Phrase → List String → Prop
  | nil : AreSegments [] []
  | cons {w : String} {segments : List Phrase} {ws : List String} (span : Source.Span) :
      IsWord w → AreSegments segments ws →
        AreSegments (node (.segment w) [] span :: segments) (w :: ws)

/-- A name, or a path with words behind its root. -/
inductive IsReference : Phrase → String → List String → Prop
  | name {x : String} (span : Source.Span) :
      IsWord x → IsReference (node (.identifier x) [] span) x []
  | path {x w : String} {segments : List Phrase} {ws : List String}
      (rootSpan span : Source.Span) :
      IsWord x → AreSegments segments (w :: ws) →
        IsReference (node .path (node (.identifier x) [] rootSpan :: segments) span)
          x (w :: ws)

namespace AreSegments

variable {segments : List Phrase} {ws : List String}

theorem words (h : AreSegments segments ws) : ∀ w ∈ ws, IsWord w := by
  induction h with
  | nil => simp
  | cons span hword _ ih =>
      intro v hv
      rcases List.mem_cons.mp hv with rfl | hv
      · exact hword
      · exact ih v hv

theorem filterMap_text? (h : AreSegments segments ws) : segments.filterMap text? = ws := by
  induction h with
  | nil => rfl
  | cons span hword _ ih => simp [text?, label, Label.text?, ih]

theorem texts?_eq (h : AreSegments segments ws) : texts? segments = some ws := by
  induction h with
  | nil => rfl
  | cons span hword _ ih => simp [texts?, text?, label, Label.text?, ih]

theorem normalizeAll_eq (h : AreSegments segments ws) : normalizeAll segments = segments := by
  induction h with
  | nil => rfl
  | cons span hword _ ih => simp [normalizeAll, normalize, NormalForm.close, ih]

theorem build {ws : List String} (hwords : ∀ w ∈ ws, IsWord w) :
    AreSegments (ws.map fun w => Phrase.build (.segment w) []) ws := by
  induction ws with
  | nil => exact AreSegments.nil
  | cons w ws ih =>
      exact AreSegments.cons Source.Span.none (hwords w (by simp))
        (ih fun v hv => hwords v (List.mem_cons_of_mem w hv))

theorem append {more : List Phrase} {vs : List String} (h : AreSegments segments ws)
    (hmore : AreSegments more vs) : AreSegments (segments ++ more) (ws ++ vs) := by
  induction h with
  | nil => exact hmore
  | cons span hword _ ih => exact AreSegments.cons span hword ih

end AreSegments

namespace IsReference

variable {t : Phrase} {x : String} {ws : List String}

theorem isWord_root (h : IsReference t x ws) : IsWord x := by
  cases h <;> assumption

theorem words (h : IsReference t x ws) : ∀ w ∈ ws, IsWord w := by
  cases h with
  | name => simp
  | path _ _ _ hsegments => exact hsegments.words

theorem parts (h : IsReference t x ws) : ∀ w ∈ x :: ws, IsWord w := by
  intro w hw
  rcases List.mem_cons.mp hw with rfl | hw
  · exact h.isWord_root
  · exact h.words w hw

theorem rootAlias?_eq (h : IsReference t x ws) : t.rootAlias? = some x := by
  cases h <;> rfl

theorem dotted?_eq (h : IsReference t x ws) :
    t.dotted? = some (Text.Dotted.join (x :: ws)) := by
  cases h with
  | name => simp [dotted?, Text.Dotted.join]
  | path rootSpan span _ hsegments => simp [dotted?, hsegments.texts?_eq]

theorem normalize_eq (h : IsReference t x ws) : t.normalize = t := by
  cases h with
  | name => rfl
  | path rootSpan span _ hsegments =>
      simp [normalize, normalizeAll, NormalForm.close, hsegments.normalizeAll_eq]

/-- A reference is determined by its root and its words up to its spans. -/
theorem eq_and_eq {y : String} {vs : List String} (h : IsReference t x ws)
    (h' : IsReference t y vs) : x = y ∧ ws = vs := by
  have hroot := h.rootAlias?_eq.symm.trans h'.rootAlias?_eq
  refine ⟨Option.some.inj hroot, ?_⟩
  cases h with
  | name => cases h' with | name => rfl
  | path rootSpan span _ hsegments =>
      cases h' with
      | path _ _ _ hsegments' =>
          rw [← hsegments.filterMap_text?, ← hsegments'.filterMap_text?]

theorem identifier?_eq (h : IsReference t x ws) :
    t.identifier? = if ws = [] then some x else none := by
  cases h <;> simp [identifier?, label]

end IsReference

theorem isReference_path {root : Phrase} {x : String} {ws : List String}
    (hroot : root = identifier x) (hparts : ∀ w ∈ x :: ws, IsWord w) :
    IsReference (path root ws) x ws := by
  subst hroot
  cases ws with
  | nil => exact IsReference.name _ (hparts x (by simp))
  | cons w ws =>
      exact IsReference.path _ _ (hparts x (by simp))
        (AreSegments.build fun v hv => hparts v (List.mem_cons_of_mem x hv))

/-- The dotted text of a reference gives the reference again. -/
theorem isReference_ofDotted {x : String} {ws : List String}
    (hparts : ∀ w ∈ x :: ws, IsWord w) :
    IsReference (ofDotted (Text.Dotted.join (x :: ws))) x ws := by
  obtain ⟨hfirst, hothers⟩ := Text.Dotted.parts_join_words hparts
  unfold ofDotted
  rw [hfirst, hothers]
  exact isReference_path rfl hparts

end Query.Phrase

/-! ## The value of a reference -/

namespace Expression

/-- What lies behind the words of a reference, from the value of its root. -/
def followWords (ev : Evaluator) (root : Value) (ws : List String) :
    Except Fault (Option Value) :=
  if root.isNull then .ok (some .null)
  else do
    let vs ← Navigation.evaluateAll ev.mapping ev.world [root] ws
    return some (Value.collapse vs)

/-- The value of a reference. -/
def referenceValue (ev : Evaluator) (env : Environment) (x : String) (ws : List String) :
    Except Fault (Option Value) :=
  match env.alias? x with
  | none => .ok none
  | some root => followWords ev root ws

theorem followWords_nil (ev : Evaluator) (root : Value) :
    followWords ev root [] = .ok (some root) := by
  unfold followWords
  cases root <;>
    simp [Value.isNull, Navigation.evaluateAll, Navigation.notNull, Value.collapse,
      pure, Except.pure, bind, Except.bind]

theorem value_reference (ev : Evaluator) (sub : Phrase → Eval Value) (env : Environment)
    {t : Phrase} {x : String} {ws : List String} (h : t.IsReference x ws) :
    value ev sub env t = Eval.ofOutcome (referenceValue ev env x ws) := by
  cases h with
  | name span hword =>
      unfold value
      simp only [terminal?, referenceValue]
      cases env.alias? x with
      | none => rfl
      | some root => simp [followWords_nil]
  | @path _ w segments ws rootSpan span hword hsegments =>
      have hwords : segmentsOf segments = w :: ws := by
        unfold segmentsOf
        rw [hsegments.filterMap_text?]
        exact Navigation.segments_join hsegments.words
      have hroot : value ev sub env (.node (.identifier x) [] rootSpan) =
          Eval.ofOutcome (.ok (env.alias? x)) := by
        unfold value
        rfl
      unfold value
      simp only [terminal?, Operation.admits, Operation.operands, hroot, hwords, follow,
        referenceValue]
      cases env.alias? x with
      | none => rfl
      | some root => rfl

end Expression

end RowGuard
