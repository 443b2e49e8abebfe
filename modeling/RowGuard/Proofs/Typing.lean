import RowGuard.Proofs.NormalForms
import RowGuard.Proofs.Queries

/-!
# Typed phrases

Checking looks up every property along a path, but only as far as it knows the type
that the path starts at: a path behind an alias without a type is taken on trust.  An
anchored phrase gives no such trust.  Its paths start at aliases of known types, and
its joins at aliases that have been declared before them, so that a join path means
the same when it is checked and when it is followed.  What is anchored and passes the
check is typed: for each path the scope tells a type.
-/

namespace RowGuard

open Query (AliasDefinition Label Phrase Statement TypeModel)
open Query.Phrase
open Query.Scope

namespace Query.Scope

/-! ## Anchors -/

/-- Whether no join path starts at the alias of the same join or of a later one. -/
def startBefore : List Phrase → Bool
  | [] => true
  | j :: js =>
      ((j.child? 0).bind rootAlias?).all (fun x => !((j :: js).filterMap declaredAlias?).contains x)
        && startBefore js

mutual

/-- Whether the paths of a phrase start at aliases of known types, and its joins at
aliases declared before them. -/
def anchored (model : TypeModel) (scope : List AliasDefinition) : Phrase → Bool
  | .node .path cs _ =>
      (cs.head?.bind identifier?).any fun x => (find? scope x).any fun d => d.type?.isSome
  | .node .subselect cs span =>
      match declarations (some model) .subselect scope (.node .subselect cs span) with
      | .ok ds =>
          startBefore ((ranges .subselect (.node .subselect cs span)).flatMap
            fun r => r.children.drop 2) && anchoredAll model (scope ++ ds) cs
      | .error _ => true
  | .node _ cs _ => anchoredAll model scope cs

def anchoredAll (model : TypeModel) (scope : List AliasDefinition) : List Phrase → Bool
  | [] => true
  | t :: ts => anchored model scope t && anchoredAll model scope ts

end

variable {model : TypeModel} {scope declared ds : List AliasDefinition}

theorem anchoredAll_iff {ts : List Phrase} :
    anchoredAll model scope ts = true ↔ ∀ t ∈ ts, anchored model scope t := by
  induction ts with
  | nil => simp [anchoredAll]
  | cons t ts ih => simp [anchoredAll, ih]

theorem anchored_node {l : Label} (hpath : l ≠ .path) (hsubselect : l ≠ .subselect)
    (cs : List Phrase) (s : Source.Span) :
    anchored model scope (.node l cs s) = anchoredAll model scope cs := by
  unfold anchored
  split
  · rename_i heq
    cases heq
    exact absurd rfl hpath
  · rename_i heq
    cases heq
    exact absurd rfl hsubselect
  · rename_i heq
    cases heq
    rfl

theorem anchored_child {l : Label} {cs : List Phrase} {s : Source.Span} {t : Phrase}
    (hpath : l ≠ .path) (hsubselect : l ≠ .subselect)
    (h : anchored model scope (.node l cs s)) (ht : t ∈ cs) : anchored model scope t := by
  rw [anchored_node hpath hsubselect] at h
  exact anchoredAll_iff.mp h t ht

/-- The clauses of an anchored subselect are anchored behind what it declares. -/
theorem anchored_subselect {cs items rest : List Phrase} {distinct : Bool}
    {s₁ s₂ s₃ : Source.Span} (hitems : ∀ r ∈ items, r.IsRange) (hdeclared : declarations (some model) .subselect scope
      (.node .subselect (.node (.selectClause distinct) cs s₁
        :: .node .fromClause items s₂ :: rest) s₃) = .ok ds)
    (h : anchored model scope (.node .subselect (.node (.selectClause distinct) cs s₁
        :: .node .fromClause items s₂ :: rest) s₃)) :
    startBefore (joinsOf items) ∧ (∀ j ∈ joinsOf items, anchored model (scope ++ ds) j) ∧
      ∀ t, t ∈ cs ∨ t ∈ rest → anchored model (scope ++ ds) t := by
  rw [anchored, hdeclared] at h
  obtain ⟨horder, hclauses⟩ := Bool.and_eq_true_iff.mp h
  obtain ⟨hselect, hclauses⟩ := List.forall_mem_cons.mp (anchoredAll_iff.mp hclauses)
  obtain ⟨hfrom, hrest⟩ := List.forall_mem_cons.mp hclauses
  refine ⟨horder, fun j hj => ?_, ?_⟩
  · obtain ⟨r, hr, hj⟩ := List.mem_flatMap.mp hj
    have hrange := anchored_child (by simp) (by simp) hfrom hr
    obtain ⟨a, entity, js, _, _, _, -⟩ := hitems r hr
    exact anchored_child (by simp) (by simp) hrange (List.mem_of_mem_drop hj)
  · rintro t (ht | ht)
    · exact anchored_child (by simp) (by simp) hselect ht
    · exact hrest t ht

/-! ## References -/

/-- What a scope tells of the words behind an alias: no word but behind a known type. -/
def Tells (model : TypeModel) (scope : List AliasDefinition) (x : String) (ws : List String)
    (type? : Option String) : Prop :=
  ∃ d, find? scope x = some d ∧ typeAlong model d.type? ws = some type?

theorem find?_append_of_not_mem {more : List AliasDefinition} {x : String}
    (h : x ∉ names more) : find? (scope ++ more) x = find? scope x := by
  have hnone : more.reverse.find? (fun d => d.name == x) = none := by
    apply List.find?_eq_none.mpr
    intro d hd heq
    rw [beq_iff_eq] at heq
    exact h (heq ▸ List.mem_map_of_mem (List.mem_reverse.mp hd))
  rw [find?, List.reverse_append, List.find?_append, hnone]
  rfl

/-- A reference that has been checked in one scope is told its type by another one that
resolves its root alike, if it is anchored there. -/
theorem tells_of_typeOf {scope' : List AliasDefinition} {t : Phrase} {x : String}
    {ws : List String} {type? : Option String} (ht : t.IsReference x ws)
    (hsame : find? scope' x = find? scope x) (hanchored : anchored model scope' t)
    (h : typeOf (some model) scope t = .ok type?) : Tells model scope' x ws type? := by
  cases hfind : find? scope x with
  | none =>
      have hlook := typeOf_reference model scope ht
      rw [hfind, h] at hlook
      obtain ⟨e, he, -⟩ := hlook
      cases he
  | some d =>
      have htype := typeOf_name model scope ht hfind h
      refine ⟨d, hsame.trans hfind, ?_⟩
      cases hd : d.type? with
      | some type =>
          rw [hd] at htype
          exact htype
      | none =>
          rw [hd] at htype
          cases ht with
          | name => exact htype
          | path =>
              rw [anchored, List.head?_cons, Option.bind_some] at hanchored
              simp [identifier?, Phrase.label, hsame, hfind, hd] at hanchored

/-! ## Definitions -/

/-- A range, or a join whose path the scope tells the type of the alias for. -/
inductive TypedDefinition (model : TypeModel) (scope : List AliasDefinition) :
    AliasDefinition → Prop
  | range (a type : String) : TypedDefinition model scope (.range a type)
  | join {d : AliasDefinition} {x : String} {ws : List String} :
      d.joinPath? = some (Text.Dotted.join (x :: ws)) → (∀ w ∈ x :: ws, IsWord w) →
      Tells model scope x ws d.type? → TypedDefinition model scope d

theorem declare_eq_ok {d : AliasDefinition} {s : Source.Span}
    (h : declare declared d s = .ok ds) : ds = declared ++ [d] := by
  unfold declare at h
  split at h
  · cases h
  · exact (Except.ok.inj h).symm

theorem ranges_of_declareRanges {kind : StatementKind} {items : List Phrase}
    (hitems : ∀ r ∈ items, r.IsRange) (hdeclared : ∀ d ∈ declared, ∃ a type, d = .range a type)
    (h : items.foldlM (declareRange (some model) kind) declared = .ok ds) :
    ∀ d ∈ ds, ∃ a type, d = .range a type := by
  induction items generalizing declared with
  | nil =>
      cases h
      exact hdeclared
  | cons r items ih =>
      rw [List.foldlM_cons] at h
      obtain ⟨more, hr, h⟩ := ok_of_bind h
      apply ih (fun u hu => hitems u (List.mem_cons_of_mem r hu)) ?_ h
      obtain ⟨a, entity, js, s₁, s₂, s₃, -⟩ := hitems r (by simp)
      have hparts : declareRange (some model) kind declared (.node .fromItem
          (.node (.entityName entity) [] s₁ :: .node (.identifier a) [] s₂ :: js) s₃) =
          if !model.hasEntity entity then .error ⟨unknownEntity kind entity, s₁⟩
          else declare declared (.range a entity) s₂ := rfl
      rw [hparts] at hr
      split at hr
      · cases hr
      · rw [declare_eq_ok hr]
        intro d hd
        rcases List.mem_append.mp hd with hd | hd
        · exact hdeclared d hd
        · exact ⟨a, entity, List.mem_singleton.mp hd⟩

/-- Anchored joins are declared with the types that the whole scope tells for their paths. -/
theorem typed_of_declareJoins {P : String → Prop} {before : List String} {js : List Phrase}
    (hjoins : JoinsWithin P before js) (horder : startBefore js)
    (hanchored : ∀ j ∈ js, anchored model (scope ++ ds) j)
    (h : js.foldlM (declareJoin (some model) scope) declared = .ok ds) :
    ∃ more, ds = declared ++ more ∧ names more = js.filterMap declaredAlias? ∧
      ∀ d ∈ more, TypedDefinition model (scope ++ ds) d := by
  induction hjoins generalizing declared with
  | nil =>
      cases h
      exact ⟨[], by simp, rfl, by simp⟩
  | bare outer fetch s hp hn _ ih =>
      rw [List.foldlM_cons] at h
      obtain ⟨same, hjoin, h⟩ := ok_of_bind h
      obtain ⟨type?, -, hjoin⟩ := ok_of_bind hjoin
      cases hjoin
      obtain ⟨-, horder⟩ := Bool.and_eq_true_iff.mp horder
      exact ih horder (fun j hj => hanchored j (List.mem_cons_of_mem _ hj)) h
  | @named before p js n a ws outer fetch s r hp hn ha _ ih =>
      rw [List.foldlM_cons] at h
      obtain ⟨next, hjoin, h⟩ := ok_of_bind h
      obtain ⟨type?, htype, hjoin⟩ := ok_of_bind hjoin
      have hnext := declare_eq_ok hjoin
      obtain ⟨hfirst, horder⟩ := Bool.and_eq_true_iff.mp horder
      obtain ⟨more, hds, hnames, hmore⟩ :=
        ih horder (fun j hj => hanchored j (List.mem_cons_of_mem _ hj)) h
      rw [hnext, List.append_assoc, List.singleton_append] at hds
      obtain ⟨d, hd⟩ : ∃ d : AliasDefinition, d = { name := a, type?, joinPath? := p.dotted?
                                                    inner := !outer, fetch } := ⟨_, rfl⟩
      rw [← hd] at hds
      have hall : names (d :: more) = a :: js.filterMap declaredAlias? := by
        rw [names, List.map_cons, ← hnames, hd]
        rfl
      refine ⟨d :: more, hds, hall, List.forall_mem_cons.mpr ⟨?_, hmore⟩⟩
      have hroot : n ∉ names (d :: more) := by
        have hdeclared : (Phrase.node (.join outer fetch) [p, .node (.identifier a) [] r] s
            :: js).filterMap declaredAlias? = a :: js.filterMap declaredAlias? := rfl
        have hfirst : (p.rootAlias?).all (fun x => !(a :: js.filterMap declaredAlias?).contains x) :=
          hdeclared ▸ hfirst
        rw [hp.rootAlias?_eq, Option.all_some] at hfirst
        rw [hall]
        simpa using hfirst
      -- No alias from here on hides the one that the path starts at.
      have hsame : find? (scope ++ ds) n = find? (scope ++ declared) n := by
        rw [hds, ← List.append_assoc]
        exact find?_append_of_not_mem hroot
      have hpath : anchored model (scope ++ ds) p :=
        anchored_child (l := .join outer fetch) (by simp) (by simp)
          (hanchored _ List.mem_cons_self) List.mem_cons_self
      subst hd
      exact .join hp.dotted?_eq hp.parts (tells_of_typeOf hp hsame hpath htype)

/-- The definitions that a subselect makes in an anchored phrase are typed in the scope
that they extend. -/
theorem typed_of_declarations {P : String → Prop} {cs items rest : List Phrase}
    {distinct : Bool} {s₁ s₂ s₃ : Source.Span} (hitems : ∀ r ∈ items, r.IsRange)
    (hjoins : JoinsWithin P (rangeAliases items) (joinsOf items))
    (horder : startBefore (joinsOf items))
    (hanchored : ∀ j ∈ joinsOf items, anchored model (scope ++ ds) j)
    (h : declarations (some model) .subselect scope (.node .subselect
      (.node (.selectClause distinct) cs s₁ :: .node .fromClause items s₂ :: rest) s₃) = .ok ds) :
    ∀ d ∈ ds, TypedDefinition model (scope ++ ds) d := by
  rw [declarations_subselect] at h
  obtain ⟨declared, hranges, h⟩ := ok_of_bind h
  obtain ⟨more, hds, -, hmore⟩ := typed_of_declareJoins hjoins horder hanchored h
  intro d hd
  rw [hds] at hd
  rcases List.mem_append.mp hd with hd | hd
  · obtain ⟨a, type, rfl⟩ := ranges_of_declareRanges hitems (by simp) hranges d hd
    exact .range a type
  · exact hmore d hd

/-- Definitions of one alias that may differ in the type of a join. -/
structure Alike (d d' : AliasDefinition) : Prop where
  name : d.name = d'.name
  joinPath : d.joinPath? = d'.joinPath?
  range : d.joinPath? = none → d = d'

theorem Alike.refl (d : AliasDefinition) : Alike d d := ⟨rfl, rfl, fun _ => rfl⟩

theorem alike_declareJoins {P : String → Prop} {before : List String} {js : List Phrase}
    {scope' declared' ds' : List AliasDefinition} (hjoins : JoinsWithin P before js)
    (hdeclared : List.Forall₂ Alike declared declared')
    (h : js.foldlM (declareJoin (some model) scope) declared = .ok ds)
    (h' : js.foldlM (declareJoin (some model) scope') declared' = .ok ds') :
    List.Forall₂ Alike ds ds' := by
  induction hjoins generalizing declared declared' with
  | nil =>
      cases h
      cases h'
      exact hdeclared
  | bare outer fetch s hp hn _ ih =>
      rw [List.foldlM_cons] at h h'
      obtain ⟨same, hjoin, h⟩ := ok_of_bind h
      obtain ⟨same', hjoin', h'⟩ := ok_of_bind h'
      obtain ⟨type?, -, hjoin⟩ := ok_of_bind hjoin
      obtain ⟨type'?, -, hjoin'⟩ := ok_of_bind hjoin'
      cases hjoin
      cases hjoin'
      exact ih hdeclared h h'
  | named outer fetch s r hp hn ha _ ih =>
      rw [List.foldlM_cons] at h h'
      obtain ⟨next, hjoin, h⟩ := ok_of_bind h
      obtain ⟨next', hjoin', h'⟩ := ok_of_bind h'
      obtain ⟨type?, -, hjoin⟩ := ok_of_bind hjoin
      obtain ⟨type'?, -, hjoin'⟩ := ok_of_bind hjoin'
      have hnext : List.Forall₂ Alike next next' := by
        rw [declare_eq_ok hjoin, declare_eq_ok hjoin']
        apply List.rel_append hdeclared
        refine .cons ⟨rfl, rfl, fun hnone => ?_⟩ .nil
        rw [hp.dotted?_eq] at hnone
        cases hnone
      exact ih hnext h h'

/-- Whatever scope a subselect stands in, it makes the same definitions up to the types
of its joins. -/
theorem alike_declarations {P : String → Prop} {cs items rest : List Phrase}
    {distinct : Bool} {s₁ s₂ s₃ : Source.Span} {scope' ds' : List AliasDefinition}
    (hjoins : JoinsWithin P (rangeAliases items) (joinsOf items))
    (h : declarations (some model) .subselect scope (.node .subselect
      (.node (.selectClause distinct) cs s₁ :: .node .fromClause items s₂ :: rest) s₃) = .ok ds)
    (h' : declarations (some model) .subselect scope' (.node .subselect
      (.node (.selectClause distinct) cs s₁ :: .node .fromClause items s₂ :: rest) s₃) = .ok ds') :
    List.Forall₂ Alike ds ds' := by
  rw [declarations_subselect] at h h'
  obtain ⟨declared, hranges, h⟩ := ok_of_bind h
  obtain ⟨declared', hranges', h'⟩ := ok_of_bind h'
  cases hranges.symm.trans hranges'
  exact alike_declareJoins hjoins (List.forall₂_same.mpr fun d _ => Alike.refl d) h h'

end Query.Scope

/-! ## Phrases -/

/-- A phrase in which the scope tells a type for every path. -/
inductive Typed (model : TypeModel) : List AliasDefinition → Phrase → Prop
  | reference {scope : List AliasDefinition} {t : Phrase} {x : String} {ws : List String}
      {type? : Option String} : t.IsReference x ws → Tells model scope x ws type? →
      Typed model scope t
  | leaf {scope : List AliasDefinition} {l : Label} (s : Source.Span) : l.isLeaf →
      Typed model scope (.node l [] s)
  | subselect {scope ds : List AliasDefinition} {cs items rest : List Phrase} {distinct : Bool}
      {s₁ s₂ s₃ : Source.Span} :
      Phrase.WellFormed (.node .subselect (.node (.selectClause distinct) cs s₁
        :: .node .fromClause items s₂ :: rest) s₃) →
      Phrase.IsNormal (.node .subselect (.node (.selectClause distinct) cs s₁
        :: .node .fromClause items s₂ :: rest) s₃) →
      declarations (some model) .subselect scope (.node .subselect
        (.node (.selectClause distinct) cs s₁ :: .node .fromClause items s₂ :: rest) s₃) =
        .ok ds →
      (∀ d ∈ ds, TypedDefinition model (scope ++ ds) d) →
      (∀ t, t ∈ cs ∨ t ∈ rest → Typed model (scope ++ ds) t) →
        Typed model scope (.node .subselect (.node (.selectClause distinct) cs s₁
          :: .node .fromClause items s₂ :: rest) s₃)
  | compound {scope : List AliasDefinition} {l : Label} {ts : List Phrase} (s : Source.Span) :
      l.isCompound → (∀ t ∈ ts, Typed model scope t) → Typed model scope (.node l ts s)

variable {model : TypeModel} {scope : List AliasDefinition}

/-- What is anchored and passes the check is typed. -/
theorem typed_of_check {P : String → Prop} {t : Phrase} {ss : List Statement} (ht : Within P t)
    (hnormal : t.IsNormal) (hanchored : anchored model scope t)
    (h : check (some model) scope t = .ok ss) : Typed model scope t := by
  induction ht generalizing scope ss with
  | reference ht _ =>
      rw [check_reference model scope ht] at h
      cases htype : typeOf (some model) scope _ with
      | error e =>
          rw [htype] at h
          cases h
      | ok type? => exact .reference ht (tells_of_typeOf ht rfl hanchored htype)
  | leaf s hl => exact .leaf s hl
  | @subselect P cs items rest distinct s₁ s₂ s₃ hitems hjoins hselected hclauses hfinal hselect
      hrest =>
      obtain ⟨ds, hdeclared, h⟩ := ok_of_bind h
      obtain ⟨subselects, hchecked, -⟩ := ok_of_bind h
      obtain ⟨horder, hroots, hinside⟩ := anchored_subselect hitems hdeclared hanchored
      obtain ⟨-, -, hchecked⟩ := within_clauses hitems hjoins hfinal hdeclared hchecked
      have hwell : Within P (.node .subselect (.node (.selectClause distinct) cs s₁
          :: .node .fromClause items s₂ :: rest) s₃) :=
        .subselect distinct s₁ s₂ s₃ hitems hjoins hselected hclauses hfinal
      apply Typed.subselect (hwell.mono fun _ _ => trivial) hnormal hdeclared
      · exact typed_of_declarations hitems hjoins horder hroots hdeclared
      · intro t ht
        obtain ⟨ss, hcheck⟩ := hchecked t ht
        rcases ht with ht | ht
        · have hclause := hnormal.child (c := .node (.selectClause distinct) cs s₁) (by simp)
          exact hselect t ht (hclause.child ht) (hinside t (Or.inl ht)) hcheck
        · exact hrest t ht (hnormal.child (by simp [ht])) (hinside t (Or.inr ht)) hcheck
  | compound s hcompound _ ih =>
      rw [check_compound _ _ hcompound] at h
      apply Typed.compound s hcompound
      intro t ht
      obtain ⟨ss, hcheck⟩ := ok_of_checkAll h t ht
      refine ih t ht (hnormal.child ht) (anchored_child ?_ ?_ hanchored ht) hcheck <;>
        (rintro rfl; cases hcompound)

namespace Typed

variable {t u : Phrase}

theorem children {l : Label} {ts : List Phrase} {s : Source.Span}
    (h : Typed model scope (.node l ts s)) (hcompound : l.isCompound) :
    ∀ t ∈ ts, Typed model scope t := by
  cases h with
  | reference ht _ => cases ht <;> cases hcompound
  | leaf _ hl => simp
  | subselect => cases hcompound
  | compound _ _ h => exact h

theorem of_exposes (ht : Typed model scope t) (h : Exposes t u) : Typed model scope u := by
  induction h with
  | self => exact ht
  | @inside l cs t u s hl hmem _ ih =>
      have hcompound : l.isCompound := by
        cases l <;> first | rfl | cases hl
      exact ih (ht.children hcompound _ hmem)

/-- A typed phrase with a dotted text is a reference whose type is told. -/
theorem isReference {text : String} (hu : Typed model scope u) (h : u.dotted? = some text) :
    ∃ x ws type?, text = Text.Dotted.join (x :: ws) ∧ (∀ w ∈ x :: ws, IsWord w) ∧
      Tells model scope x ws type? := by
  cases hu with
  | reference href htells =>
      rw [href.dotted?_eq] at h
      exact ⟨_, _, _, (Option.some.inj h).symm, href.parts, htells⟩
  | @leaf _ l s hl =>
      have hnone : (Phrase.node l [] s).dotted? = none := by
        cases l <;> first | rfl | cases hl
      cases hnone.symm.trans h
  | subselect => cases h
  | @compound _ l ts s hcompound _ =>
      have hnone : (Phrase.node l ts s).dotted? = none := by
        cases l <;> first | rfl | cases hcompound
      cases hnone.symm.trans h

end Typed

end RowGuard
