import RowGuard.Proofs.Rereading
import RowGuard.Proofs.Recasting

/-!
# What the check accepts

The check of a phrase gives reports with spans and the subselects that it has met,
but whether it succeeds depends on neither.  It depends on the parts of the phrase:
on the declarations of its subselects, and on what its names and paths resolve to.
So a phrase without its spans is accepted where the phrase is, and a phrase that is
recast without new names is accepted where it was.
-/

namespace RowGuard

open Query (AliasDefinition Label Phrase Statement StatementKind TypeModel)
open Query.Phrase
open Query.Scope

/-! ## Parts -/

/-- Two computations both succeed exactly if they do so one after the other. -/
theorem exists_ok_both {ε α β γ : Type} {x : Except ε α} {y : Except ε β} {g : α → β → γ} :
    (∃ c, (do let a ← x; let b ← y; return g a b) = Except.ok c) ↔
      (∃ a, x = .ok a) ∧ ∃ b, y = .ok b := by
  constructor
  · rintro ⟨c, h⟩
    obtain ⟨a, ha, h⟩ := ok_of_bind h
    obtain ⟨b, hb, -⟩ := ok_of_bind h
    exact ⟨⟨a, ha⟩, b, hb⟩
  · rintro ⟨⟨a, rfl⟩, b, rfl⟩
    exact ⟨g a b, rfl⟩

namespace Query.Scope

variable {model? : Option TypeModel} {scope : List AliasDefinition}

/-- The check of the phrase succeeds. -/
def Accepts (model? : Option TypeModel) (scope : List AliasDefinition) (t : Phrase) : Prop :=
  ∃ ss, check model? scope t = .ok ss

/-- The parts of a path that are looked at along with it. -/
def isPathPart : Label → Bool
  | .identifier _ | .segment _ => true
  | _ => false

theorem exists_checkAll_iff {ts : List Phrase} :
    (∃ ss, checkAll model? scope ts = .ok ss) ↔ ∀ t ∈ ts, Accepts model? scope t := by
  induction ts with
  | nil => simp [checkAll]
  | cons t ts ih => rw [checkAll, exists_ok_both, ih, List.forall_mem_cons, Accepts]

/-- Some parts are checked and the others are left out. -/
theorem exists_ok_unless {skipped : Bool} {t : Phrase} :
    (∃ ss, (if skipped = true then pure [] else check model? scope t) =
      (Except.ok ss : Checked (List Statement))) ↔ skipped = true ∨ Accepts model? scope t := by
  cases skipped <;> simp [Accepts, pure, Except.pure]

theorem exists_checkClauses_iff {ts : List Phrase} :
    (∃ ss, checkClauses model? scope ts = .ok ss) ↔
      ∀ t ∈ ts, declaresOnly t.label = true ∨ Accepts model? scope t := by
  induction ts with
  | nil => simp [checkClauses]
  | cons t ts ih =>
      have hcons : checkClauses model? scope (t :: ts) = (do
          let first ← (if declaresOnly t.label = true then pure [] else check model? scope t)
          let others ← checkClauses model? scope ts
          return first ++ others) := by
        rw [checkClauses]
        cases declaresOnly t.label <;> rfl
      rw [hcons, exists_ok_both, exists_ok_unless, ih, List.forall_mem_cons]

theorem exists_checkParts_iff {ts : List Phrase} :
    (∃ ss, checkParts model? scope ts = .ok ss) ↔
      ∀ t ∈ ts, isPathPart t.label = true ∨ Accepts model? scope t := by
  induction ts with
  | nil => simp [checkParts]
  | cons t ts ih =>
      have hcons : checkParts model? scope (t :: ts) = (do
          let first ← (if isPathPart t.label = true then pure [] else check model? scope t)
          let others ← checkParts model? scope ts
          return first ++ others) := by
        rw [checkParts]
        cases t.label <;> rfl
      rw [hcons, exists_ok_both, exists_ok_unless, ih, List.forall_mem_cons]

/-- A name is accepted where it resolves. -/
theorem accepts_identifier {x : String} {cs : List Phrase} {s : Source.Span} :
    Accepts model? scope (.node (.identifier x) cs s) ↔ ∃ d, find? scope x = some d := by
  unfold Accepts
  rw [check]
  unfold resolve
  cases find? scope x <;> simp [bind, Except.bind, pure, Except.pure]

theorem accepts_path {cs : List Phrase} {s : Source.Span} :
    Accepts model? scope (.node .path cs s) ↔
      (∃ type?, typeOf model? scope (.node .path cs s) = .ok type?) ∧
        ∀ t ∈ cs, isPathPart t.label = true ∨ Accepts model? scope t := by
  rw [← exists_checkParts_iff]
  unfold Accepts
  rw [check]
  constructor
  · rintro ⟨ss, h⟩
    obtain ⟨type?, htype, h⟩ := ok_of_bind h
    exact ⟨⟨type?, htype⟩, ss, h⟩
  · rintro ⟨⟨type?, htype⟩, ss, h⟩
    exact ⟨ss, by rw [htype]; exact h⟩

theorem accepts_subselect {cs : List Phrase} {s : Source.Span} :
    Accepts model? scope (.node .subselect cs s) ↔
      ∃ ds, declarations model? .subselect scope (.node .subselect cs s) = .ok ds ∧
        ∀ t ∈ cs, declaresOnly t.label = true ∨ Accepts model? (scope ++ ds) t := by
  unfold Accepts
  rw [check]
  constructor
  · rintro ⟨ss, h⟩
    obtain ⟨ds, hds, h⟩ := ok_of_bind h
    obtain ⟨inner, hinner, -⟩ := ok_of_bind h
    exact ⟨ds, hds, exists_checkClauses_iff.mp ⟨inner, hinner⟩⟩
  · rintro ⟨ds, hds, h⟩
    obtain ⟨inner, hinner⟩ := exists_checkClauses_iff.mpr h
    exact ⟨_, by rw [hds]; simp only [bind, Except.bind, hinner]; rfl⟩

/-- Any other phrase is accepted if its parts are. -/
theorem accepts_node {l : Label} (hname : ∀ x, l ≠ .identifier x) (hpath : l ≠ .path)
    (hsubselect : l ≠ .subselect) {cs : List Phrase} {s : Source.Span} :
    Accepts model? scope (.node l cs s) ↔ ∀ t ∈ cs, Accepts model? scope t := by
  rw [← exists_checkAll_iff]
  unfold Accepts
  have hcheck : check model? scope (.node l cs s) = checkAll model? scope cs := by
    cases l <;> first | rfl | simp_all
  rw [hcheck]

theorem accepts_compound {l : Label} (hl : l.isCompound) {cs : List Phrase} {s : Source.Span} :
    Accepts model? scope (.node l cs s) ↔ ∀ t ∈ cs, Accepts model? scope t := by
  apply accepts_node
  · rintro x rfl
    cases hl
  · rintro rfl
    cases hl
  · rintro rfl
    cases hl

theorem accepts_leaf {l : Label} (hl : l.isLeaf) (s : Source.Span) :
    Accepts model? scope (.node l [] s) := ⟨[], check_leaf model? scope hl s⟩

/-- A statement is accepted if its declarations are and its clauses in their scope. -/
theorem exists_statement_iff {kind : StatementKind} {outer : List AliasDefinition} {t : Phrase} :
    (∃ s, statement model? kind outer t = .ok s) ↔
      ∃ ds, declarations model? kind outer t = .ok ds ∧
        ∀ c ∈ t.children, declaresOnly c.label = true ∨ Accepts model? (outer ++ ds) c := by
  unfold statement
  constructor
  · rintro ⟨ss, h⟩
    obtain ⟨ds, hds, h⟩ := ok_of_bind h
    obtain ⟨inner, hinner, -⟩ := ok_of_bind h
    exact ⟨ds, hds, exists_checkClauses_iff.mp ⟨inner, hinner⟩⟩
  · rintro ⟨ds, hds, h⟩
    obtain ⟨inner, hinner⟩ := exists_checkClauses_iff.mpr h
    exact ⟨_, by rw [hds]; simp only [bind, Except.bind, hinner]; rfl⟩

end Query.Scope

/-! ## Spans -/

namespace Query.Phrase

theorem bareAll_eq_map (ts : List Phrase) : bareAll ts = ts.map bare := by
  induction ts with
  | nil => rfl
  | cons t ts ih => rw [bareAll, ih, List.map_cons]

theorem bare_node (l : Label) (cs : List Phrase) (s : Source.Span) :
    (node l cs s).bare = node l (cs.map bare) Source.Span.none := by
  rw [bare, bareAll_eq_map]

@[simp]
theorem label_bare (t : Phrase) : t.bare.label = t.label := by
  obtain ⟨l, cs, s⟩ := t
  rw [bare]
  rfl

@[simp]
theorem children_bare (t : Phrase) : t.bare.children = t.children.map bare := by
  obtain ⟨l, cs, s⟩ := t
  rw [bare_node]
  rfl

@[simp]
theorem text?_bare (t : Phrase) : t.bare.text? = t.text? := by simp [text?]

@[simp]
theorem identifier?_bare (t : Phrase) : t.bare.identifier? = t.identifier? := by
  simp [identifier?]

@[simp]
theorem child?_bare (t : Phrase) (i : Nat) : t.bare.child? i = (t.child? i).map bare := by
  simp [child?]

theorem findChild?_bare (p : Label → Bool) (t : Phrase) :
    t.bare.findChild? p = (t.findChild? p).map bare := by
  simp only [findChild?, children_bare, List.find?_map, Function.comp_def, label_bare]

theorem texts?_bare (ts : List Phrase) : texts? (ts.map bare) = texts? ts := by
  induction ts with
  | nil => rfl
  | cons t ts ih => simp [texts?, ih]

theorem dotted?_bare : ∀ t : Phrase, t.bare.dotted? = t.dotted?
  | .node l cs s => by
      rw [bare_node]
      cases l <;> first | rfl | skip
      cases cs with
      | nil => rfl
      | cons root segments =>
          rw [List.map_cons, dotted?, dotted?, dotted?_bare root, texts?_bare]

theorem flatMap_splice_bare (l : Label) (cs : List Phrase) :
    (cs.map bare).flatMap (NormalForm.splice l) = (cs.flatMap (NormalForm.splice l)).map bare := by
  rw [List.flatMap_map, List.map_flatMap]
  congr 1
  funext t
  unfold NormalForm.splice
  rw [label_bare]
  split
  · exact children_bare t
  · rfl

theorem close_bare (l : Label) (cs : List Phrase) (s : Source.Span) :
    NormalForm.close l (cs.map bare) Source.Span.none = (NormalForm.close l cs s).bare := by
  unfold NormalForm.close
  split
  · rw [bare_node, flatMap_splice_bare]
  · rw [bare_node, flatMap_splice_bare]
  · rcases cs with _ | ⟨t, _ | ⟨u, cs⟩⟩
    · rfl
    · simp only [List.map_cons, List.map_nil, label_bare]
      split
      · rfl
      · rw [bare_node]
        rfl
    · simp only [List.map_cons, bare_node]
  · rw [bare_node]

mutual

/-- The normal form without spans is that of the phrase without spans. -/
theorem normalize_bare : ∀ t : Phrase, t.bare.normalize = t.normalize.bare
  | .node l cs s => by
      rw [bare, normalize, normalize, normalizeAll_bare, close_bare]

theorem normalizeAll_bare : ∀ ts : List Phrase,
    normalizeAll (bareAll ts) = (normalizeAll ts).map bare
  | [] => rfl
  | t :: ts => by
      rw [bareAll, normalizeAll, normalizeAll, List.map_cons, normalize_bare t, normalizeAll_bare ts]

end

end Query.Phrase

namespace Query.Scope

variable {model? : Option TypeModel} {scope outer declared : List AliasDefinition}

theorem toOption_bind {ε α β : Type} (x : Except ε α) (f : α → Except ε β) :
    (x >>= f).toOption = x.toOption.bind fun a => (f a).toOption := by
  cases x <;> rfl

/-- Steps with one result each make folds with one result. -/
theorem toOption_foldlM {ε α β γ : Type} {f : γ → α → Except ε γ} {g : β → α}
    {h : γ → β → Except ε γ} (hstep : ∀ c b, (f c (g b)).toOption = (h c b).toOption)
    (bs : List β) (c : γ) :
    ((bs.map g).foldlM f c).toOption = (bs.foldlM h c).toOption := by
  induction bs generalizing c with
  | nil => rfl
  | cons b bs ih => simp only [List.map_cons, List.foldlM_cons, toOption_bind, hstep, ih]

theorem ok_iff_toOption {ε α : Type} {x : Except ε α} {a : α} :
    x = .ok a ↔ x.toOption = some a := by
  cases x <;> simp [Except.toOption]

theorem toOption_typeBehind (model : TypeModel) (segments : List Phrase) (owner? : Option String)
    (previous : String) :
    (typeBehind model owner? previous (segments.map bare)).toOption =
      (typeBehind model owner? previous segments).toOption := by
  induction segments generalizing owner? previous with
  | nil => rfl
  | cons t segments ih =>
      simp only [List.map_cons, typeBehind, text?_bare]
      cases t.text? with
      | none => rfl
      | some name =>
          cases owner? with
          | none => rfl
          | some owner =>
              simp only
              cases model.propertyType? owner name with
              | none => rfl
              | some type => exact ih type.target? name

theorem rootAndSegments_bare (t : Phrase) : rootAndSegments t.bare =
    (rootAndSegments t).map fun p => (p.1.bare, p.2.map bare) := by
  obtain ⟨l, cs, s⟩ := t
  rw [bare_node]
  by_cases hl : l = .path
  · subst hl
    cases cs <;> rfl
  · have hroot : ∀ (ds : List Phrase) (r : Source.Span),
        rootAndSegments (.node l ds r) = some (.node l ds r, []) := by
      intro ds r
      cases l <;> first | rfl | exact absurd rfl hl
    rw [hroot, hroot, Option.map_some, bare_node]
    rfl

theorem toOption_resolve (name : String) (s : Source.Span) :
    (resolve scope name s).toOption = find? scope name := by
  unfold resolve
  cases find? scope name <;> rfl

theorem toOption_typeOf (t : Phrase) :
    (typeOf model? scope t.bare).toOption = (typeOf model? scope t).toOption := by
  unfold typeOf
  rw [rootAndSegments_bare]
  rcases rootAndSegments t with _ | ⟨root, segments⟩
  · rfl
  · simp only [Option.map_some, label_bare]
    cases root.label <;> first | rfl | skip
    simp only [toOption_bind, toOption_resolve]
    congr 1
    funext d
    rcases model? with _ | model
    · rfl
    · rcases d.type? with _ | type
      · rfl
      · exact toOption_typeBehind model segments _ _

theorem toOption_declare (d : AliasDefinition) (s r : Source.Span) :
    (declare declared d s).toOption = (declare declared d r).toOption := by
  unfold declare
  split <;> rfl

theorem rangeParts?_bare (r : Phrase) : rangeParts? r.bare =
    (rangeParts? r).map fun p => ((p.1.1.bare, p.1.2), (p.2.1.bare, p.2.2)) := by
  unfold rangeParts?
  simp only [child?_bare, Option.bind_eq_bind]
  rcases r.child? 0 with _ | entity
  · rfl
  · rcases r.child? 1 with _ | name
    · rfl
    · simp only [Option.map_some, Option.bind_some, label_bare]
      cases entity.label <;> first | rfl | skip
      cases name.label <;> rfl

theorem toOption_declareRange (kind : StatementKind) (declared : List AliasDefinition)
    (r : Phrase) : (declareRange model? kind declared r.bare).toOption =
      (declareRange model? kind declared r).toOption := by
  unfold declareRange
  rw [rangeParts?_bare]
  rcases rangeParts? r with _ | ⟨⟨entity, e⟩, name, a⟩
  · rfl
  · simp only [Option.map_some]
    split
    · rfl
    · exact toOption_declare _ _ _

theorem toOption_declareJoin (declared : List AliasDefinition) (j : Phrase) :
    (declareJoin model? outer declared j.bare).toOption =
      (declareJoin model? outer declared j).toOption := by
  unfold declareJoin
  rw [label_bare, child?_bare, child?_bare]
  cases j.label <;> first | rfl | skip
  rcases j.child? 0 with _ | path
  · rfl
  · simp only [Option.map_some, toOption_bind, toOption_typeOf, dotted?_bare]
    congr 1
    funext type?
    rcases j.child? 1 with _ | name
    · rfl
    · simp only [Option.map_some, identifier?_bare]
      rcases name.identifier? with _ | a
      · rfl
      · exact toOption_declare _ _ _

theorem ranges_bare (kind : StatementKind) (t : Phrase) :
    ranges kind t.bare = (ranges kind t).map bare := by
  cases kind <;> simp only [ranges, findChild?_bare]
  case accessRule => rfl
  all_goals
    cases findChild? _ t <;> simp

/-- What is declared does not depend on spans. -/
theorem toOption_declarations (kind : StatementKind) (t : Phrase) :
    (declarations model? kind outer t.bare).toOption =
      (declarations model? kind outer t).toOption := by
  have hjoins : ∀ rs : List Phrase, (rs.map bare).flatMap (fun r => r.children.drop 2) =
      (rs.flatMap fun r => r.children.drop 2).map bare := by
    intro rs
    simp [List.flatMap_map, List.map_flatMap]
  unfold declarations
  simp only [ranges_bare, hjoins, toOption_bind]
  rw [toOption_foldlM (toOption_declareRange kind)]
  congr 1
  funext ds
  exact toOption_foldlM toOption_declareJoin _ _

theorem declarations_bare {kind : StatementKind} {t : Phrase} {ds : List AliasDefinition} :
    declarations model? kind outer t.bare = .ok ds ↔ declarations model? kind outer t = .ok ds := by
  rw [ok_iff_toOption, toOption_declarations, ← ok_iff_toOption]

mutual

/-- What is accepted does not depend on spans. -/
theorem accepts_bare : ∀ {t : Phrase} {scope : List AliasDefinition},
    Accepts model? scope t.bare ↔ Accepts model? scope t
  | .node l cs s, scope => by
      by_cases hname : ∃ x, l = .identifier x
      · obtain ⟨x, rfl⟩ := hname
        rw [bare, accepts_identifier, accepts_identifier]
      · by_cases hpath : l = .path
        · subst hpath
          have htype : (∃ type?, typeOf model? scope (node .path cs s).bare = .ok type?) ↔
              ∃ type?, typeOf model? scope (.node .path cs s) = .ok type? := by
            simp only [ok_iff_toOption, toOption_typeOf]
          rw [accepts_path, ← htype, ← accepts_bareAll, bare, accepts_path]
        · by_cases hsubselect : l = .subselect
          · subst hsubselect
            have hdeclared : ∀ ds, declarations model? .subselect scope
                (.node .subselect (bareAll cs) Source.Span.none) = .ok ds ↔
                declarations model? .subselect scope (.node .subselect cs s) = .ok ds :=
              fun ds => declarations_bare (t := .node .subselect cs s)
            rw [bare, accepts_subselect, accepts_subselect]
            simp only [hdeclared, accepts_bareAll]
          · rw [bare, accepts_node (by simpa using hname) hpath hsubselect,
              accepts_node (by simpa using hname) hpath hsubselect]
            have hall : (∀ t ∈ bareAll cs, false = true ∨ Accepts model? scope t) ↔
                ∀ t ∈ cs, false = true ∨ Accepts model? scope t := accepts_bareAll fun _ => false
            simpa using hall

theorem accepts_bareAll : ∀ (skips : Label → Bool) {ts : List Phrase}
    {scope : List AliasDefinition}, (∀ t ∈ bareAll ts, skips t.label = true ∨ Accepts model? scope t) ↔
      ∀ t ∈ ts, skips t.label = true ∨ Accepts model? scope t
  | _, [], _ => by simp [bareAll]
  | skips, t :: ts, scope => by
      rw [bareAll, List.forall_mem_cons, List.forall_mem_cons, accepts_bareAll skips, label_bare,
        accepts_bare]

end

end Query.Scope

theorem Query.Statement.exists_ofPhrase_bare {model? : Option TypeModel} {t : Phrase} :
    (∃ s, Statement.ofPhrase model? t.bare = .ok s) ↔
      ∃ s, Statement.ofPhrase model? t = .ok s := by
  unfold ofPhrase
  simp only [normalize_bare, label_bare]
  cases StatementKind.ofLabel? t.normalize.label with
  | none => simp
  | some kind =>
      simp only [exists_statement_iff, declarations_bare, children_bare, ← bareAll_eq_map,
        accepts_bareAll]

/-- Whether a statement passes the check does not depend on spans. -/
theorem Query.Statement.exists_ofPhrase_of_same {model? : Option TypeModel} {t u : Phrase}
    (h : u.same t = true) (ht : ∃ s, Statement.ofPhrase model? t = .ok s) :
    ∃ s, Statement.ofPhrase model? u = .ok s := by
  rw [← exists_ofPhrase_bare] at ht ⊢
  rwa [(same_iff u t).mp h]

/-! ## Recast phrases -/

namespace Query.Scope

variable {model? : Option TypeModel} {scope : List AliasDefinition}

theorem accepts_namedParameter (name : String) : Accepts model? scope (namedParameter name) :=
  accepts_leaf rfl Source.Span.none

theorem accepts_alwaysFalse : Accepts model? scope alwaysFalse := by
  refine (accepts_compound rfl).mpr fun t ht => ?_
  rcases List.mem_pair.mp ht with rfl | rfl
  · exact accepts_leaf rfl Source.Span.none
  · exact accepts_leaf rfl Source.Span.none

/-- Closing a node takes nothing in but its parts and theirs. -/
theorem accepts_close {l : Label} (hl : l.isCompound) {ts : List Phrase} (s : Source.Span)
    (h : ∀ t ∈ ts, Accepts model? scope t) : Accepts model? scope (NormalForm.close l ts s) := by
  have hspliced : ∀ c ∈ ts.flatMap (NormalForm.splice l), Accepts model? scope c := by
    intro c hmem
    obtain ⟨⟨m, cs, r⟩, ht, hc⟩ := List.mem_flatMap.mp hmem
    unfold NormalForm.splice at hc
    split at hc
    · rename_i hlabel
      obtain rfl : m = l := hlabel
      exact (accepts_compound hl).mp (h _ ht) c hc
    · rw [List.mem_singleton.mp hc]
      exact h _ ht
  unfold NormalForm.close
  split
  · exact (accepts_compound rfl).mpr hspliced
  · exact (accepts_compound rfl).mpr hspliced
  · split
    · split
      · exact h _ (by simp)
      · exact (accepts_compound rfl).mpr h
    · exact (accepts_compound rfl).mpr h
  · exact (accepts_compound hl).mpr h

end Query.Scope

/-- Nothing is exchanged for a new name. -/
structure Exchange.Nameless (k : Exchange) : Prop where
  atom {t u : Phrase} : k.atom t u → u = t ∨ ∃ l s, u = .node l [] s ∧ l.isLeaf
  items {is js : List Phrase} : k.items is js → js = is

theorem nameless_none : Exchange.none.Nameless where
  atom h := Or.inl h
  items h := h

section Recasts

variable {model? : Option TypeModel} {k : Exchange}

mutual

/-- A phrase that is recast without new names is accepted where it was before. -/
theorem Recast.accepts (hk : k.Nameless) : ∀ {scope : List AliasDefinition} {t u : Phrase},
    Recast k t u → Accepts model? scope t → Accepts model? scope u
  | _, _, _, .atom _ h, ht => by
      rcases hk.atom h with rfl | ⟨l, s, rfl, hl⟩
      · exact ht
      · exact accepts_leaf hl s
  | _, _, _, .compound s hl h, ht =>
      (accepts_compound hl).mpr (h.accepts hk ((accepts_compound hl).mp ht))
  | _, _, _, .closed s hl h, ht =>
      accepts_close hl s (h.accepts hk ((accepts_compound hl).mp ht))
  | _, _, _, .roles ds r s h _ _, ht => by
      refine (accepts_compound rfl).mpr (List.forall_mem_cons.mpr ⟨?_, fun v hv => ?_⟩)
      · exact h.accepts hk ((accepts_compound rfl).mp ht _ List.mem_cons_self)
      · obtain ⟨name, -, rfl⟩ := List.mem_map.mp hv
        exact accepts_namedParameter name
  | _, _, _, .never _ _ _ _, _ => accepts_alwaysFalse
  | scope, _, _, @Recast.subselect _ cs ds items _ rest rest' distinct s₁ s₂ s₃ hitems hcs hrest
      hfinal, ht => by
      obtain rfl := hk.items hitems
      obtain ⟨declared, hdeclared, hclauses⟩ := accepts_subselect.mp ht
      obtain ⟨hselect, hclauses⟩ := List.forall_mem_cons.mp hclauses
      obtain ⟨-, hclauses⟩ := List.forall_mem_cons.mp hclauses
      have hchecked : ∀ t ∈ rest, Accepts model? (scope ++ declared) t := by
        intro t ht
        refine (hclauses t ht).resolve_left ?_
        rw [declaresOnly_of_isFinalClause (hfinal t ht)]
        exact Bool.false_ne_true
      refine accepts_subselect.mpr ⟨declared, hdeclared, List.forall_mem_cons.mpr ⟨Or.inr ?_,
        List.forall_mem_cons.mpr ⟨Or.inl rfl, fun u hu => Or.inr ?_⟩⟩⟩
      · refine (accepts_compound rfl).mpr (hcs.accepts hk ?_)
        exact (accepts_compound rfl).mp (hselect.resolve_left (by simp [Phrase.label, declaresOnly]))
      · exact hrest.accepts hk hchecked u hu

theorem RecastAll.accepts (hk : k.Nameless) : ∀ {scope : List AliasDefinition}
    {ts us : List Phrase}, RecastAll k ts us → (∀ t ∈ ts, Accepts model? scope t) →
      ∀ u ∈ us, Accepts model? scope u
  | _, _, _, .nil, _ => by simp
  | _, _, _, .cons h hs, hts =>
      have ⟨ht, hts⟩ := List.forall_mem_cons.mp hts
      List.forall_mem_cons.mpr ⟨h.accepts hk ht, hs.accepts hk hts⟩

end

/-- The normal form of a phrase is accepted where the phrase is. -/
theorem Query.Phrase.Within.accepts_normalize {P : String → Prop} {t : Phrase} (h : Within P t)
    {scope : List AliasDefinition} (ht : Accepts model? scope t) :
    Accepts model? scope t.normalize :=
  h.recast_normalize.accepts nameless_none ht

end Recasts

end RowGuard
