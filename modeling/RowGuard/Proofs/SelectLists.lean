import RowGuard.Proofs.Assignments
import RowGuard.Proofs.Standalones

/-!
# Rows of select lists

Enumeration reads its rows off the paths that a select list names, not off the select list.
Where every item of the list is a path, this is what the list asks for: the value of the only
item, or the tuple of the values of all of them, for each assignment that is accepted.  An item
of another sort is not among the paths, and a row lacks it.
-/

namespace RowGuard

open Query (AliasDefinition Label Phrase Statement)
open Query.Phrase
open Enumeration

/-! ## Select lists -/

namespace Query.Statement

/-- The items of the select list. -/
def items (s : Statement) : List Phrase :=
  ((s.phrase.findChild? Label.isSelectClause).map Phrase.children).getD []

/-- Every item of the select list is a name or a path. -/
def NamesPaths (s : Statement) : Prop := ∀ item ∈ s.items, item.dotted?.isSome

instance (s : Statement) : Decidable s.NamesPaths :=
  inferInstanceAs (Decidable (∀ item ∈ s.items, _))

/-- The row that the select list asks for under an assignment: the value of its only item, or
the tuple of the values of its items. -/
def Records (ev : Evaluator) (env : Environment) (s : Statement) (a : Bindings Value)
    (r : Value) : Prop :=
  match s.items with
  | [item] => (ev.value (s.under env a) item).run.outcome = .ok (some r)
  | items => ∃ vs, r = .tuple vs ∧ List.Forall₂ (fun item v =>
      (ev.value (s.under env a) item).run.outcome = .ok (some v)) items vs

/-- Whether an assignment is found to meet the condition, if there is one. -/
def accepts (ev : Evaluator) (env : Environment) (s : Statement) (a : Bindings Value) : Bool :=
  match (isAccepted ev ev.value (s.under env a) s.condition?).outcome with
  | .ok b => b
  | .error _ => false

variable {ev : Evaluator} {env : Environment} {s : Statement} {a : Bindings Value}
  {model? : Option TypeModel} {scope : List AliasDefinition} {u : Phrase}

theorem accepts_iff : s.accepts ev env a ↔
    (isAccepted ev ev.value (s.under env a) s.condition?).outcome = .ok true := by
  unfold accepts
  cases (isAccepted ev ev.value (s.under env a) s.condition?).outcome with
  | error e => simp
  | ok b => simp

theorem selectedPaths_of_ofSubselect (hs : Statement.ofSubselect model? scope u = .ok s) :
    s.selectedPaths = selectedPathsAll s.items := by
  rw [ofSubselect, if_pos (label_of_ofSubselect hs)] at hs
  obtain ⟨ds, -, hs⟩ := Query.Scope.ok_of_bind hs
  obtain ⟨subselects, -, hs⟩ := Query.Scope.ok_of_bind hs
  cases hs
  unfold items assemble
  cases u.normalize.findChild? Label.isSelectClause <;> rfl

/-- Only names and paths have a dotted text. -/
theorem label_of_dotted? {l : Label} {cs : List Phrase} {r : Source.Span}
    (h : (node l cs r).dotted?.isSome) : (∃ x, l = .identifier x) ∨ l = .path := by
  cases l <;> simp_all [dotted?]

theorem isReference_of_dotted? {P : String → Prop} {t : Phrase} (h : Within P t)
    (hdotted : t.dotted?.isSome) : ∃ x ws, t.IsReference x ws := by
  cases h with
  | reference h _ => exact ⟨_, _, h⟩
  | leaf r hl => obtain ⟨x, rfl⟩ | rfl := label_of_dotted? hdotted <;> cases hl
  | subselect => obtain ⟨x, hl⟩ | hl := label_of_dotted? hdotted <;> cases hl
  | compound r hl _ => obtain ⟨x, rfl⟩ | rfl := label_of_dotted? hdotted <;> cases hl

/-- The items of a list of names and paths refer to something. -/
theorem NamesPaths.references (h : s.NamesPaths)
    (hderives : Query.Grammar.Derives .subselect s.phrase) :
    ∀ item ∈ s.items, ∃ x ws, item.IsReference x ws := by
  intro item hitem
  refine isReference_of_dotted? (P := fun _ => True) ?_ (h item hitem)
  unfold items at hitem
  generalize s.phrase = p at hderives hitem
  cases hderives with
  | query _ hselect _ _ _ _ =>
      obtain ⟨distinct, cs, r, rfl, hcs⟩ := hselect.shapes
      exact hcs item hitem

/-- The selected paths of a list of paths are its items, one by one. -/
theorem forall₂_selectedPathsAll {items : List Phrase}
    (h : ∀ item ∈ items, ∃ x ws, item.IsReference x ws) :
    List.Forall₂ (fun item path => ∃ x ws, item.IsReference x ws ∧
      path = Text.Dotted.join (x :: ws)) items (selectedPathsAll items) := by
  induction items with
  | nil => exact .nil
  | cons item items ih =>
      obtain ⟨⟨x, ws, hitem⟩, hitems⟩ := List.forall_mem_cons.mp h
      rw [selectedPathsAll, hitem.selectedPaths_eq]
      exact .cons ⟨x, ws, hitem, rfl⟩ (ih hitems)

/-- A path that is put together again has the value of the item that names it. -/
theorem value_ofDotted (ev : Evaluator) (env : Environment) {item : Phrase} {x : String}
    {ws : List String} (h : item.IsReference x ws) :
    ev.value env (ofDotted (Text.Dotted.join (x :: ws))) = ev.value env item := by
  calc
    ev.value env (ofDotted (Text.Dotted.join (x :: ws)))
      = Eval.ofOutcome (Expression.referenceValue ev env x ws) :=
        Evaluator.valueAt_reference _ env (isReference_ofDotted h.parts)
    _ = ev.value env item := (Evaluator.valueAt_reference _ env h).symm

/-- The items of a list of paths have the values of the selected paths. -/
theorem forall₂_value_iff (hs : Statement.ofSubselect model? scope u = .ok s)
    (hpaths : ∀ item ∈ s.items, ∃ x ws, item.IsReference x ws) (env : Environment)
    {vs : List Value} :
    List.Forall₂ (fun path v => (ev.value env (ofDotted path)).run.outcome = .ok (some v))
        s.selectedPaths vs ↔
      List.Forall₂ (fun item v => (ev.value env item).run.outcome = .ok (some v)) s.items vs := by
  have hall := forall₂_selectedPathsAll hpaths
  rw [selectedPaths_of_ofSubselect hs]
  generalize selectedPathsAll s.items = paths at hall
  generalize s.items = items at hall
  induction hall generalizing vs with
  | nil => simp only [List.forall₂_nil_left_iff]
  | cons hitem _ ih =>
      obtain ⟨x, ws, href, rfl⟩ := hitem
      simp only [List.forall₂_cons_left_iff, ih, value_ofDotted ev env href]

/-- What an assignment selects is what the select list asks for. -/
theorem selects_iff_records (hs : Statement.ofSubselect model? scope u = .ok s)
    (hpaths : ∀ item ∈ s.items, ∃ x ws, item.IsReference x ws) {r : Value} :
    s.Selects ev env a r ↔ s.Records ev env a r := by
  unfold Selects Records
  simp only [forall₂_value_iff hs hpaths]
  generalize s.items = items
  cases items with
  | nil => simp [row]
  | cons item items =>
      cases items with
      | nil =>
          constructor
          · rintro ⟨vs, hvs, rfl⟩
            cases hvs with
            | cons hv hrest =>
                cases hrest
                exact hv
          · exact fun hv => ⟨[r], .cons hv .nil, rfl⟩
      | cons other items =>
          have hrow : ∀ {vs : List Value}, List.Forall₂ (fun item v =>
              (ev.value (s.under env a) item).run.outcome = .ok (some v))
                (item :: other :: items) vs → row vs = .tuple vs := by
            rintro vs (_ | ⟨_, _ | ⟨_, _⟩⟩)
            rfl
          constructor
          · rintro ⟨vs, hvs, rfl⟩
            exact ⟨vs, hrow hvs, hvs⟩
          · rintro ⟨vs, rfl, hvs⟩
            exact ⟨vs, hvs, (hrow hvs).symm⟩

end Query.Statement

/-! ## Rows of accepted assignments -/

section Rows

open Query.Statement

variable {ev : Evaluator} {env : Environment} {s : Statement} {found : List (Bindings Value)}

/-- The combinations that are accepted make the rows, one by one. -/
theorem forall₂_rows {out : List Value}
    (h : (rows ev ev.value (env.unbindAliases s.aliases) s found).outcome = .ok out) :
    List.Forall₂ (s.Selects ev env) (found.filter (s.accepts ev env)) out := by
  induction found generalizing out with
  | nil =>
      cases h
      exact .nil
  | cons v found ih =>
      rw [rows] at h
      obtain ⟨b, hb, h⟩ := Traced.outcome_bind_eq_ok.mp h
      have hb : (isAccepted ev ev.value (s.under env v) s.condition?).outcome = .ok b := hb
      cases b with
      | false =>
          have hrejected : ¬s.accepts ev env v := by
            rw [accepts_iff, hb]
            simp
          rw [List.filter_cons_of_neg hrejected]
          exact ih h
      | true =>
          obtain ⟨us, hus, h⟩ := Traced.outcome_bind_eq_ok.mp h
          obtain ⟨others, hothers, h⟩ := Traced.outcome_bind_eq_ok.mp h
          cases h
          rw [List.filter_cons_of_pos (accepts_iff.mpr hb)]
          exact .cons ⟨us, project_eq_ok.mp hus, rfl⟩ (ih hothers)

/-- A fault that evaluating the condition, or the item of a select list, raises for one of some
assignments. -/
inductive Raises (ev : Evaluator) (env : Environment) (s : Statement)
    (found : List (Bindings Value)) (e : Fault) : Prop
  | condition {a : Bindings Value} {condition : Phrase} : a ∈ found →
      s.condition? = some condition →
      (ev.truth (s.under env a) condition).outcome = .error e → Raises ev env s found e
  | item {a : Bindings Value} {item : Phrase} : a ∈ found → s.accepts ev env a →
      item ∈ s.items → (ev.value (s.under env a) item).run.outcome = .error e →
        Raises ev env s found e

/-- An undefined path makes the answer undecidable; another fault is one of a path. -/
theorem project_fails {evaluate : Environment → Phrase → Eval Value} {paths : List String}
    {e : Fault} (h : (project evaluate env paths).outcome = .error e) :
    (∃ reason, e = .undecidable reason) ∨
      ∃ path ∈ paths, (evaluate env (ofDotted path)).run.outcome = .error e := by
  induction paths with
  | nil => cases h
  | cons path paths ih =>
      rw [project, Traced.outcome_bind] at h
      obtain hfirst | ⟨v?, -, h⟩ := Query.Scope.error_of_bind h
      · exact Or.inr ⟨path, List.mem_cons_self, hfirst⟩
      · cases v? with
        | none =>
            cases h
            exact Or.inl ⟨_, rfl⟩
        | some v =>
            rw [Traced.outcome_bind] at h
            obtain hrest | ⟨vs, -, h⟩ := Query.Scope.error_of_bind h
            · obtain hundecidable | ⟨other, hother, he⟩ := ih hrest
              · exact Or.inl hundecidable
              · exact Or.inr ⟨other, List.mem_cons_of_mem path hother, he⟩
            · cases h

/-- A condition that is not decided makes the answer undecidable; another fault is its own. -/
theorem isAccepted_fails {condition? : Option Phrase} {e : Fault}
    (h : (isAccepted ev ev.value env condition?).outcome = .error e) :
    (∃ reason, e = .undecidable reason) ∨
      ∃ condition, condition? = some condition ∧ (ev.truth env condition).outcome = .error e := by
  cases condition? with
  | none => cases h
  | some condition =>
      rw [isAccepted, Traced.outcome_bind] at h
      obtain hcondition | ⟨b?, -, h⟩ := Query.Scope.error_of_bind h
      · exact Or.inr ⟨condition, rfl, hcondition⟩
      · cases b? with
        | none =>
            cases h
            exact Or.inl ⟨_, rfl⟩
        | some b => cases h

/-- Where the rows fail, they cannot be told in memory, or evaluating for one of the assignments
has failed. -/
theorem rows_fail {model? : Option Query.TypeModel} {scope : List AliasDefinition} {u : Phrase}
    (hs : Statement.ofSubselect model? scope u = .ok s)
    (hpaths : ∀ item ∈ s.items, ∃ x ws, item.IsReference x ws)
    {vs : List (Bindings Value)} (hvs : vs ⊆ found) {e : Fault}
    (h : (rows ev ev.value (env.unbindAliases s.aliases) s vs).outcome = .error e) :
    (∃ reason, e = .undecidable reason) ∨ Raises ev env s found e := by
  induction vs with
  | nil => cases h
  | cons v vs ih =>
      obtain ⟨hv, hrest⟩ := List.cons_subset.mp hvs
      rw [rows, Traced.outcome_bind] at h
      obtain hcondition | ⟨b, hb, h⟩ := Query.Scope.error_of_bind h
      · apply (isAccepted_fails hcondition).imp_right
        rintro ⟨condition, hsome, he⟩
        exact .condition hv hsome he
      · cases b with
        | false => exact ih hrest h
        | true =>
            simp only [if_true, Traced.outcome_bind] at h
            obtain hproject | ⟨us, -, h⟩ := Query.Scope.error_of_bind h
            · apply (project_fails hproject).imp_right
              rintro ⟨path, hpath, he⟩
              rw [selectedPaths_of_ofSubselect hs] at hpath
              obtain ⟨item, hitem, x, ws, href, rfl⟩ :=
                exists_of_forall₂ (forall₂_selectedPathsAll hpaths).flip hpath
              rw [value_ofDotted ev _ href] at he
              exact .item hv (accepts_iff.mpr hb) hitem he
            · obtain hothers | ⟨others, -, h⟩ := Query.Scope.error_of_bind h
              · exact ih hrest hothers
              · cases h

end Rows

/-- The rows that enumeration gives for a select list of paths are what the select list asks for:
one row for each assignment that is accepted, the value of the only item or the tuple of the
values of all.  If an item has no value for one of them, there is no answer: it is undecidable,
or evaluating has failed. -/
theorem rows_are_select_lists (ev : Evaluator) {source : String} {t u : Phrase}
    (ht : Phrase.ofText source = .ok t ∨ Phrase.ruleOfText source = .ok t)
    (hu : u ∈ t.nodes ∨ u ∈ t.normalize.nodes) {scope : List AliasDefinition} {s : Statement}
    (hs : Statement.ofSubselect (some ev.mapping.model) scope u = .ok s) (hpaths : s.NamesPaths)
    (env : Environment) :
    (∀ out, (answer ev ev.value env s).outcome = .ok out →
      ((out = [] ∧ ∀ a, ¬s.Satisfies ev env a) ∨
        ∃ found, s.Reaches ev env found ∧
          (∀ a ∈ found, s.accepts ev env a → s.Satisfies ev env a) ∧
          List.Forall₂ (s.Records ev env) (found.filter (s.accepts ev env)) out) ∧
      ((∀ a b, ev.world.sameObject a b → a = b) →
        ∀ a, s.Satisfies ev env a → ∃ r ∈ out, s.Records ev env a r)) ∧
    ∀ found, s.Reaches ev env found → ∀ a ∈ found, s.accepts ev env a → ∀ item ∈ s.items,
      (∀ v, (ev.value (s.under env a) item).run.outcome ≠ .ok (some v)) →
        ∃ e, (answer ev ev.value env s).outcome = .error e ∧
          ((∃ reason, e = .undecidable reason) ∨ Raises ev env s found e) := by
  have hlabel := Statement.label_of_ofSubselect hs
  have hderives : Query.Grammar.Derives .subselect u :=
    Query.Grammar.derives_of_mem_nodes ht hu hlabel
  have hplain := Statement.isPlain_of_ofSubselect hderives.shapes hs
  have hreferences := hpaths.references ((Statement.checked_of_ofSubselect hs).1 ▸
    hderives.normalize (P := fun _ => True) hderives.shapes)
  have hrecords : ∀ {a : Bindings Value} {r : Value}, s.Selects ev env a r ↔ s.Records ev env a r :=
    Statement.selects_iff_records hs hreferences
  refine ⟨fun out hout => ?_, fun found hreaches a ha haccepted item hitem hnone => ?_⟩
  · obtain ⟨hrefuted, rfl⟩ | ⟨found, hreaches, hrows⟩ := answer_cases hout
    · have hno : ∀ a, ¬s.Satisfies ev env a := fun a => not_satisfies_of_refuted hplain hrefuted
      exact ⟨Or.inl ⟨rfl, hno⟩, fun _ a ha => absurd ha (hno a)⟩
    · obtain ⟨ordered, hfound⟩ := hreaches.enumerated hrows
      refine ⟨Or.inr ⟨found, hreaches, fun a ha haccepted => ?_, ?_⟩, fun hworld a ha => ?_⟩
      · exact hfound.satisfies hplain ha (Statement.accepts_iff.mp haccepted)
      · exact (forall₂_rows hrows).imp fun a r => hrecords.mp
      · obtain ⟨r, hr, hselects⟩ := hfound.exists_row hworld hplain ha
        exact ⟨r, hr, hrecords.mp hselects⟩
  · rw [hreaches.outcome_answer]
    cases hrows : (rows ev ev.value (env.unbindAliases s.aliases) s found).outcome with
    | error e => exact ⟨e, rfl, rows_fail hs hreferences (List.Subset.refl found) hrows⟩
    | ok out =>
        -- An accepted assignment has made a row, so all items have values for it.
        obtain ⟨r, -, vs, hvs, -⟩ := exists_of_forall₂ (forall₂_rows hrows)
          (List.mem_filter.mpr ⟨ha, haccepted⟩)
        have hvalues := (Statement.forall₂_value_iff hs hreferences (s.under env a)).mp hvs
        obtain ⟨v, -, hv⟩ := exists_of_forall₂ hvalues hitem
        exact absurd hv (hnone v)

/-! ## A document in a folder -/

/-- Whether an expression is seen to have a value, as far as the value can be read. -/
def Eval.shows {α : Type} [BEq α] (read : Value → Option α) (x : Eval Value) (a : α) : Bool :=
  x.run.outcome.toOption.any fun v? => v?.bind read == some a

theorem Eval.outcome_of_shows {α : Type} [BEq α] [LawfulBEq α] {read : Value → Option α}
    {make : α → Value} (hread : ∀ v a, read v = some a → v = make a) {x : Eval Value} {a : α}
    (h : x.shows read a) : x.run.outcome = .ok (some (make a)) := by
  obtain ⟨v?, houtcome, hshown⟩ := Query.Scope.ok_of_any h
  obtain ⟨v, rfl, hv⟩ := Option.bind_eq_some_iff.mp (beq_iff_eq.mp hshown)
  rw [houtcome, hread v a hv]

theorem Value.eq_of_integer? (v : Value) (n : Int64) (h : v.integer? = some n) :
    v = .integer n := by
  cases v <;> cases h
  rfl

theorem Value.eq_of_boolean? (v : Value) (b : Bool) (h : v.boolean? = some b) :
    v = .boolean b := by
  cases v <;> cases h
  rfl

/-- A document in a folder of level 1. -/
def folderEvaluator : Evaluator where
  world := ⟨[⟨"Folder", none, [("level", .integer 1), ("owner", .string "ann")]⟩,
    ⟨"Document", none, [("folder", .entity 0)]⟩]⟩
  mapping := { classes := [
    { name := "Folder", properties := [⟨"level", .basic⟩, ⟨"owner", .basic⟩] },
    { name := "Document", properties := [⟨"folder", .entity "Folder"⟩] }] }
  strategies := [.simple]

def folderRow : Environment := { aliases := [("d", .entity 1)], now := default }

/-- Whether the owner and the folder make the only row. -/
def isOwnedFolder : List Value → Bool
  | [.tuple [.string "ann", .entity 0]] => true
  | _ => false

theorem eq_of_isOwnedFolder {rs : List Value} (h : isOwnedFolder rs) :
    rs = [.tuple [.string "ann", .entity 0]] := by
  unfold isOwnedFolder at h
  split at h
  · rfl
  · cases h

/-- Whether the only row is a tuple of nothing. -/
def isEmptyTuple : List Value → Bool
  | [.tuple []] => true
  | _ => false

theorem eq_of_isEmptyTuple {rs : List Value} (h : isEmptyTuple rs) : rs = [.tuple []] := by
  unfold isEmptyTuple at h
  split at h
  · rfl
  · cases h

theorem rows_are_select_lists_folder : ∃ t u s,
    Phrase.ofText ("SELECT d FROM Document d WHERE EXISTS " ++
      "(SELECT (f.owner), f FROM Folder f WHERE f = d.folder)") = .ok t ∧ u ∈ t.nodes ∧
    Statement.ofSubselect (some folderEvaluator.mapping.model)
      (folderRow.scope folderEvaluator.world) u = .ok s ∧ s.NamesPaths ∧
    (answer folderEvaluator folderEvaluator.value folderRow s).outcome =
      .ok [.tuple [.string "ann", .entity 0]] ∧
    ∃ a, s.Satisfies folderEvaluator folderRow a ∧
      s.Records folderEvaluator folderRow a (.tuple [.string "ann", .entity 0]) := by
  have hfound : (Phrase.ofText ("SELECT d FROM Document d WHERE EXISTS " ++
      "(SELECT (f.owner), f FROM Folder f WHERE f = d.folder)")).toOption.any fun t =>
        t.nodes.any fun u => (Statement.ofSubselect (some folderEvaluator.mapping.model)
          (folderRow.scope folderEvaluator.world) u).toOption.any fun s =>
            decide s.NamesPaths && (answer folderEvaluator folderEvaluator.value folderRow
              s).outcome.toOption.any isOwnedFolder := by decide +kernel
  obtain ⟨t, ht, hfound⟩ := Query.Scope.ok_of_any hfound
  obtain ⟨u, hu, hfound⟩ := List.any_eq_true.mp hfound
  obtain ⟨s, hs, hfound⟩ := Query.Scope.ok_of_any hfound
  obtain ⟨hpaths, hfound⟩ := (Bool.and_eq_true _ _).mp hfound
  obtain ⟨rows, hrows, hfound⟩ := Query.Scope.ok_of_any hfound
  have hpaths := of_decide_eq_true hpaths
  obtain rfl := eq_of_isOwnedFolder hfound
  obtain ⟨⟨⟨⟩, -⟩ | ⟨found, -, hsatisfies, hall⟩, -⟩ := (rows_are_select_lists folderEvaluator
    (Or.inl ht) (Or.inl hu) hs hpaths folderRow).1 _ hrows
  obtain ⟨a, others, ha, -, heq⟩ := List.forall₂_cons_right_iff.mp hall
  obtain ⟨hmem, haccepted⟩ := List.mem_filter.mp (heq ▸ List.mem_cons_self)
  exact ⟨t, u, s, ht, hu, hs, hpaths, hrows, a, hsatisfies a hmem haccepted, ha⟩

/-- A sum is not among the selected paths.  So its row is a tuple of nothing, and the value of
the sum is not found among the rows. -/
theorem row_of_sum_is_empty : ∃ t u s condition item,
    Phrase.ofText ("SELECT d FROM Document d WHERE 2 IN " ++
      "(SELECT f.level + 1 FROM Folder f WHERE f = d.folder)") = .ok t ∧ u ∈ t.nodes ∧
    Statement.ofSubselect (some folderEvaluator.mapping.model)
      (folderRow.scope folderEvaluator.world) u = .ok s ∧ aggregates s.phrase = false ∧
    s.items = [item] ∧ s.accepts folderEvaluator folderRow [("f", .entity 0)] ∧
    (folderEvaluator.value (s.under folderRow [("f", .entity 0)]) item).run.outcome =
      .ok (some (.integer 2)) ∧
    (answer folderEvaluator folderEvaluator.value folderRow s).outcome = .ok [.tuple []] ∧
    t.conditionOf? = some condition ∧
    (folderEvaluator.value folderRow condition).run.outcome = .ok (some (.boolean false)) := by
  have hfound : (Phrase.ofText ("SELECT d FROM Document d WHERE 2 IN " ++
      "(SELECT f.level + 1 FROM Folder f WHERE f = d.folder)")).toOption.any fun t =>
        t.nodes.any fun u => (Statement.ofSubselect (some folderEvaluator.mapping.model)
          (folderRow.scope folderEvaluator.world) u).toOption.any fun s =>
            !aggregates s.phrase && s.accepts folderEvaluator folderRow [("f", .entity 0)] &&
            (s.items.length == 1 && s.items.all fun item =>
              (folderEvaluator.value (s.under folderRow [("f", .entity 0)]) item).shows
                Value.integer? 2) &&
            (answer folderEvaluator folderEvaluator.value folderRow
              s).outcome.toOption.any isEmptyTuple &&
            t.conditionOf?.any fun condition =>
              (folderEvaluator.value folderRow condition).shows Value.boolean? false := by
    decide +kernel
  obtain ⟨t, ht, hfound⟩ := Query.Scope.ok_of_any hfound
  obtain ⟨u, hu, hfound⟩ := List.any_eq_true.mp hfound
  obtain ⟨s, hs, hfound⟩ := Query.Scope.ok_of_any hfound
  simp only [Bool.and_eq_true, Bool.not_eq_true', beq_iff_eq] at hfound
  obtain ⟨⟨⟨⟨hplain, haccepts⟩, hone, hitems⟩, hanswer⟩, hcondition⟩ := hfound
  obtain ⟨item, hitem⟩ := List.length_eq_one_iff.mp hone
  have hvalue := Eval.outcome_of_shows Value.eq_of_integer?
    (List.all_eq_true.mp hitems item (hitem ▸ List.mem_cons_self))
  obtain ⟨rows, hrows, hempty⟩ := Query.Scope.ok_of_any hanswer
  obtain ⟨condition, hsome, hcondition⟩ := (Option.any_eq_true _ _).mp hcondition
  obtain rfl := eq_of_isEmptyTuple hempty
  exact ⟨t, u, s, condition, item, ht, hu, hs, hplain, hitem, haccepts, hvalue, hrows, hsome,
    Eval.outcome_of_shows Value.eq_of_boolean? hcondition⟩

end RowGuard
