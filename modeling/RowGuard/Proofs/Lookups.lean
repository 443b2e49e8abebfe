import RowGuard.Proofs.Insertions
import RowGuard.Proofs.Rules

/-!
# Where names are looked up

Two parts of the program know which names a subselect declares: checking looks a
name up in the scope around it, and putting a path for a subject leaves alone
every subselect that declares the name.  They agree on a reference unless a join
starts at a name that its own from clause goes on to declare: there checking looks
outside, where the name is not declared yet, while the rewriting takes the subselect
as a whole.
-/

namespace RowGuard

open Query (AliasDefinition Label Phrase TypeModel)
open Query.Phrase
open Query.Scope
open Restriction

/-! ## Positions -/

namespace Query.Phrase

/-- The part of a phrase at a position, which names the child to go to at each step. -/
def at? : List Nat → Phrase → Option Phrase
  | [], t => some t
  | i :: p, t => (t.children[i]?).bind (at? p)

/-- Whether a child of a node is the alias that it declares. -/
def isAliasOf (l : Label) (i : Nat) : Bool :=
  i == 1 && match l with
    | .fromItem | .join _ _ => true
    | _ => false

/-- The name or path at a position, if it refers to something.  What stands in a path is part
of the path, and what a range or a join declares is no reference. -/
def referenceAt? : List Nat → Phrase → Option Phrase
  | [], t =>
      match t.label with
      | .identifier _ | .path => some t
      | _ => none
  | i :: p, t =>
      if t.label = .path || isAliasOf t.label i then none
      else (t.children[i]?).bind (referenceAt? p)

theorem referenceAt?_nil {t u : Phrase} (h : referenceAt? [] t = some u) :
    u = t ∧ (t.label = .path ∨ ∃ x, t.label = .identifier x) := by
  simp only [referenceAt?] at h
  split at h
  · exact ⟨(Option.some.inj h).symm, Or.inr ⟨_, ‹_›⟩⟩
  · exact ⟨(Option.some.inj h).symm, Or.inl ‹_›⟩
  · cases h

theorem referenceAt?_cons {i : Nat} {p : List Nat} {t u : Phrase}
    (h : referenceAt? (i :: p) t = some u) : t.label ≠ .path ∧ isAliasOf t.label i = false ∧
      ∃ c, t.children[i]? = some c ∧ referenceAt? p c = some u := by
  rw [referenceAt?] at h
  split at h
  · cases h
  · rename_i hplain
    simp only [Bool.or_eq_true, decide_eq_true_eq, not_or, Bool.not_eq_true] at hplain
    exact ⟨hplain.1, hplain.2, Option.bind_eq_some_iff.mp h⟩

theorem at?_of_referenceAt? {p : List Nat} {t u : Phrase} (h : referenceAt? p t = some u) :
    at? p t = some u := by
  induction p generalizing t with
  | nil => exact congrArg some (referenceAt?_nil h).1.symm
  | cons i p ih =>
      obtain ⟨-, -, c, hc, hu⟩ := referenceAt?_cons h
      rw [at?, hc]
      exact ih hu

end Query.Phrase

/-! ## Scopes at positions -/

namespace Query.Scope

/-- The joins of some from items that stand in front of the child of an item. -/
def joinsBefore (items : List Phrase) (i k : Nat) : List Phrase :=
  joinsOf (items.take i) ++ (items[i]?.map fun r => (r.children.drop 2).take (k - 2)).getD []

/-- What a subselect has declared where the path of a join is looked up: its ranges and the
joins in front of it. -/
def declaredBefore (model? : Option TypeModel) (scope : List AliasDefinition)
    (items : List Phrase) (i k : Nat) : Checked (List AliasDefinition) := do
  let declared ← items.foldlM (declareRange model? .subselect) []
  (joinsBefore items i k).foldlM (declareJoin model? scope) declared

/-- The scope in which checking a phrase looks up what stands at a position. -/
def scopeAt (model? : Option TypeModel) (scope : List AliasDefinition) :
    List Nat → Phrase → Checked (List AliasDefinition)
  | [], _ => .ok scope
  | i :: p, t =>
      match t.children[i]? with
      | none => .ok scope
      | some c =>
          if t.label = .subselect then
            if c.label = .fromClause then
              match p with
              | j :: k :: _ => do return scope ++ (← declaredBefore model? scope c.children j k)
              | _ => .ok scope
            else do
              let definitions ← declarations model? .subselect scope t
              scopeAt model? (scope ++ definitions) p c
          else scopeAt model? scope p c

section Steps

variable {model? : Option TypeModel} {scope ds : List AliasDefinition} {t c : Phrase} {i : Nat}

theorem scopeAt_child (hlabel : t.label ≠ .subselect) (hc : t.children[i]? = some c)
    (p : List Nat) : scopeAt model? scope (i :: p) t = scopeAt model? scope p c := by
  rw [scopeAt, hc]
  simp only [hlabel, if_false]

/-- Clauses see what their subselect declares. -/
theorem scopeAt_clause (hlabel : t.label = .subselect) (hc : t.children[i]? = some c)
    (hclause : c.label ≠ .fromClause) (hds : declarations model? .subselect scope t = .ok ds)
    (p : List Nat) : scopeAt model? scope (i :: p) t = scopeAt model? (scope ++ ds) p c := by
  rw [scopeAt, hc]
  simp only [hlabel, if_true, hclause, if_false, hds]
  rfl

/-- Joins see what is declared before them. -/
theorem scopeAt_join (hlabel : t.label = .subselect) (hc : t.children[i]? = some c)
    (hclause : c.label = .fromClause) {j k : Nat}
    (hds : declaredBefore model? scope c.children j k = .ok ds) (p : List Nat) :
    scopeAt model? scope (i :: j :: k :: p) t = .ok (scope ++ ds) := by
  rw [scopeAt, hc]
  simp only [hlabel, if_true, hclause, hds]
  rfl

end Steps

end Query.Scope

/-! ## Joins in order -/

/-- Whether every join starts at an alias declared before it or at a name that passes. -/
def joinsStart (p : String → Bool) : List String → List Phrase → Bool
  | _, [] => true
  | before, j :: js =>
      ((j.child? 0).bind rootAlias?).any (fun n => before.contains n || p n) &&
        joinsStart p (j.declaredAlias?.toList ++ before) js

theorem joinsWithin_of_joinsStart {p : String → Bool} {before : List String} {js : List Phrase}
    (hjs : ∀ j ∈ js, j.IsJoin) (h : joinsStart p before js) :
    JoinsWithin (p · = true) before js := by
  induction js generalizing before with
  | nil => exact .nil before
  | cons j js ih =>
      obtain ⟨hj, hjs⟩ := List.forall_mem_cons.mp hjs
      rw [joinsStart, Bool.and_eq_true] at h
      obtain ⟨hroot, hrest⟩ := h
      have hrest := ih hjs hrest
      have hstart : ∀ {q : Phrase} {n : String} {ws : List String}, q.IsReference n ws →
          (q.rootAlias?.any fun n => before.contains n || p n) → n ∈ before ∨ p n := by
        intro q n ws hq h
        simpa [hq.rootAlias?_eq] using h
      cases hj with
      | bare outer fetch s hp => exact .bare outer fetch s hp (hstart hp hroot) hrest
      | named outer fetch s r hp ha => exact .named outer fetch s r hp (hstart hp hroot) ha hrest

theorem joinsStart_of_joinsWithin {p : String → Bool} {before : List String} {js : List Phrase}
    (h : JoinsWithin (p · = true) before js) : joinsStart p before js := by
  induction h with
  | nil => rfl
  | bare outer fetch s hp hn _ ih =>
      rw [joinsStart, Bool.and_eq_true]
      exact ⟨by simpa [child?, Phrase.children, hp.rootAlias?_eq] using hn, ih⟩
  | named outer fetch s r hp hn ha _ ih =>
      rw [joinsStart, Bool.and_eq_true]
      exact ⟨by simpa [child?, Phrase.children, hp.rootAlias?_eq] using hn, ih⟩

/-- Joins that start at names of two kinds. -/
theorem Query.Phrase.JoinsWithin.and {P Q : String → Prop} {before : List String}
    {js : List Phrase} (h : JoinsWithin P before js) (h' : JoinsWithin Q before js) :
    JoinsWithin (fun n => P n ∧ Q n) before js := by
  induction h with
  | nil => exact .nil _
  | bare outer fetch s hp hn _ ih =>
      cases h' with
      | bare _ _ _ hp' hn' h' =>
          obtain ⟨rfl, -⟩ := hp.eq_and_eq hp'
          exact .bare outer fetch s hp (or_and_left.mpr ⟨hn, hn'⟩) (ih h')
  | named outer fetch s r hp hn ha _ ih =>
      cases h' with
      | named _ _ _ _ hp' hn' _ h' =>
          obtain ⟨rfl, -⟩ := hp.eq_and_eq hp'
          exact .named outer fetch s r hp (or_and_left.mpr ⟨hn, hn'⟩) ha (ih h')

theorem isJoin_of_sound {t u : Phrase} (ht : Query.Grammar.Sound t) (hu : u ∈ t.nodes)
    (hlabel : u.label = .subselect) : ∀ j ∈ joinsOf (fromItems u), j.IsJoin := by
  cases ht u hu hlabel with
  | reference hu _ => rcases hu.label_cases with h | h <;> cases h.symm.trans hlabel
  | leaf _ hl => cases hlabel; cases hl
  | compound _ hcompound _ => cases hlabel; cases hcompound
  | subselect distinct s₁ s₂ s₃ _ hjoins _ _ _ =>
      simpa [fromItems, findChild?, Phrase.children, Phrase.label]
        using Query.Grammar.isJoin_of_joinsWithin hjoins

/-! ## References in from clauses -/

namespace Query.Phrase

variable {t u : Phrase} {p : List Nat} {x : String} {ws : List String}

/-- References hold no others. -/
theorem IsReference.referenceAt? (h : t.IsReference x ws) (hu : referenceAt? p t = some u) :
    p = [] ∧ u = t := by
  cases p with
  | nil => exact ⟨rfl, (referenceAt?_nil hu).1⟩
  | cons i p =>
      obtain ⟨hpath, -, c, hc, -⟩ := referenceAt?_cons hu
      cases h with
      | name => cases hc
      | path => exact absurd rfl hpath

/-- The reference of a join is its path. -/
theorem IsJoin.referenceAt? (h : t.IsJoin) (hu : referenceAt? p t = some u) :
    p = [0] ∧ t.child? 0 = some u ∧ ∃ x ws, u.IsReference x ws := by
  cases p with
  | nil => cases h <;> cases hu
  | cons i p =>
      obtain ⟨-, halias, c, hc, hin⟩ := referenceAt?_cons hu
      have hfirst : ∀ {x : String} {ws : List String}, c.IsReference x ws → i = 0 →
          i :: p = [0] ∧ t.child? 0 = some u ∧ ∃ x ws, u.IsReference x ws := by
        rintro x ws hq rfl
        obtain ⟨rfl, rfl⟩ := hq.referenceAt? hin
        exact ⟨rfl, hc, x, ws, hq⟩
      cases h with
      | bare outer fetch s hp =>
          match i with
          | 0 => exact hfirst (Option.some.inj hc ▸ hp) rfl
          | i + 1 => cases hc
      | named outer fetch s r hp ha =>
          match i with
          | 0 => exact hfirst (Option.some.inj hc ▸ hp) rfl
          | 1 => cases halias
          | i + 2 => cases hc

/-- The references of a range are the paths of its joins. -/
theorem IsRange.referenceAt? (h : t.IsRange) (hjoins : ∀ j ∈ t.children.drop 2, j.IsJoin)
    (hu : referenceAt? p t = some u) : ∃ k j, p = [k + 2, 0] ∧ (t.children.drop 2)[k]? = some j ∧
      j.IsJoin ∧ j.child? 0 = some u ∧ ∃ x ws, u.IsReference x ws := by
  obtain ⟨a, entity, js, s₁, s₂, s₃, -⟩ := h
  cases p with
  | nil => cases hu
  | cons i p =>
      obtain ⟨-, halias, c, hc, hin⟩ := referenceAt?_cons hu
      match i with
      | 0 =>
          obtain rfl := Option.some.inj hc
          cases p with
          | nil => cases hin
          | cons =>
              obtain ⟨-, -, d, hd, -⟩ := referenceAt?_cons hin
              cases hd
      | 1 => cases halias
      | k + 2 =>
          have hjoin := hjoins c (List.mem_of_getElem? hc)
          obtain ⟨rfl, hchild, href⟩ := hjoin.referenceAt? hin
          exact ⟨k, c, rfl, hc, hjoin, hchild, href⟩

end Query.Phrase

/-! ## Joins one after the other -/

namespace Query.Scope

variable {model : TypeModel} {scope declared ds : List AliasDefinition}

/-- The joins of some items are those in front of one of them, the join itself, and others. -/
theorem joinsOf_eq_joinsBefore {items : List Phrase} {r j : Phrase} {i k : Nat}
    (hr : items[i]? = some r) (hj : (r.children.drop 2)[k]? = some j) :
    ∃ later, joinsOf items = joinsBefore items i (k + 2) ++ j :: later := by
  obtain ⟨hi, hri⟩ := List.getElem?_eq_some_iff.mp hr
  obtain ⟨hk, hjk⟩ := List.getElem?_eq_some_iff.mp hj
  have hitems : items = items.take i ++ r :: items.drop (i + 1) := by
    rw [← hri, ← List.drop_eq_getElem_cons hi, List.take_append_drop]
  have hown : r.children.drop 2 =
      (r.children.drop 2).take k ++ j :: (r.children.drop 2).drop (k + 1) := by
    rw [← hjk, ← List.drop_eq_getElem_cons hk, List.take_append_drop]
  refine ⟨(r.children.drop 2).drop (k + 1) ++ joinsOf (items.drop (i + 1)), ?_⟩
  calc joinsOf items
      = joinsOf (items.take i) ++ r.children.drop 2 ++ joinsOf (items.drop (i + 1)) := by
        conv_lhs => rw [hitems]
        simp [joinsOf]
    _ = joinsOf (items.take i) ++ ((r.children.drop 2).take k ++
          j :: (r.children.drop 2).drop (k + 1)) ++ joinsOf (items.drop (i + 1)) := by rw [← hown]
    _ = joinsBefore items i (k + 2) ++
          j :: ((r.children.drop 2).drop (k + 1) ++ joinsOf (items.drop (i + 1))) := by
        simp [joinsBefore, hr]

/-- What a fold has come to in front of one of its steps. -/
theorem ok_of_foldlM {ε α β : Type} {f : β → α → Except ε β} {before later : List α} {a : α}
    {b c : β} (h : (before ++ a :: later).foldlM f b = .ok c) :
    ∃ d e, before.foldlM f b = .ok d ∧ f d a = .ok e := by
  rw [List.foldlM_append] at h
  obtain ⟨d, hd, h⟩ := ok_of_bind h
  rw [List.foldlM_cons] at h
  obtain ⟨e, he, -⟩ := ok_of_bind h
  exact ⟨d, e, hd, he⟩

theorem typeOf_of_declareJoin {j u : Phrase} (hj : j.IsJoin) (hu : j.child? 0 = some u)
    (h : declareJoin (some model) scope declared j = .ok ds) :
    ∃ type?, typeOf (some model) (scope ++ declared) u = .ok type? := by
  cases hj with
  | bare outer fetch s hp =>
      obtain rfl := Option.some.inj hu
      obtain ⟨type?, htype, -⟩ := ok_of_bind h
      exact ⟨type?, htype⟩
  | named outer fetch s r hp ha =>
      obtain rfl := Option.some.inj hu
      obtain ⟨type?, htype, -⟩ := ok_of_bind h
      exact ⟨type?, htype⟩

theorem names_declareJoins {js : List Phrase} (hjs : ∀ j ∈ js, j.IsJoin)
    (h : js.foldlM (declareJoin (some model) scope) declared = .ok ds) :
    names ds = names declared ++ js.filterMap declaredAlias? :=
  (within_declareJoins (joinsWithin_of_isJoin hjs (names declared)) (fun _ hn => hn) h).2

/-- A join starts at a name that is declared before it or of the kind. -/
theorem start_of_joinsWithin {Q : String → Prop} {before : List String}
    {js earlier later : List Phrase} {j u : Phrase} {x : String} {ws : List String} (h : JoinsWithin Q before js)
    (hsplit : js = earlier ++ j :: later) (hchild : j.child? 0 = some u) (hu : u.IsReference x ws) :
    x ∈ before ++ earlier.filterMap declaredAlias? ∨ Q x := by
  have hstart : ∀ {q : Phrase} {n : String} {vs : List String}, q.IsReference n vs →
      some q = some u → n = x := by
    rintro q n vs hq heq
    obtain rfl := Option.some.inj heq
    exact (hq.eq_and_eq hu).1
  induction earlier generalizing before js with
  | nil =>
      rw [List.filterMap_nil, List.append_nil]
      subst hsplit
      cases h with
      | bare _ _ _ hp hn _ => exact hstart hp hchild ▸ hn
      | named _ _ _ _ hp hn _ _ => exact hstart hp hchild ▸ hn
  | cons e earlier ih =>
      subst hsplit
      cases h with
      | bare _ _ _ _ _ h => exact ih h rfl
      | named _ _ _ _ _ _ _ h =>
          refine (ih h rfl).imp_left fun hmem => ?_
          simpa [declaredAlias?, child?, Phrase.children, identifier?, Phrase.label,
            or_left_comm] using hmem

/-- What a subselect has declared in the end. -/
theorem names_declarations {cs items rest : List Phrase} {distinct : Bool} {s₁ s₂ s₃ : Source.Span}
    (hitems : ∀ r ∈ items, r.IsRange) (hjoins : ∀ j ∈ joinsOf items, j.IsJoin)
    (h : declarations (some model) .subselect scope (.node .subselect
      (.node (.selectClause distinct) cs s₁ :: .node .fromClause items s₂ :: rest) s₃) = .ok ds) :
    names ds = declaredAliases (.node .subselect
      (.node (.selectClause distinct) cs s₁ :: .node .fromClause items s₂ :: rest) s₃) := by
  rw [declarations_subselect] at h
  obtain ⟨ranges, hranges, h⟩ := ok_of_bind h
  rw [names_declareJoins hjoins h, names_declareRanges hitems hranges, declaredAliases_subselect]
  rfl

end Query.Scope

/-! ## Substitution at positions -/

/-- Whether a phrase is a subselect that declares a name. -/
def declares (a : String) (t : Phrase) : Bool :=
  t.label == .subselect && t.declaredAliases.contains a

theorem declares_iff {a : String} {t : Phrase} :
    declares a t = true ↔ t.label = .subselect ∧ a ∈ t.declaredAliases := by
  rw [declares, Bool.and_eq_true, beq_iff_eq, List.contains_iff_mem]

mutual

theorem mem_nodes_of_visit {enter : Phrase → Bool} : ∀ {t u : Phrase}, u ∈ t.visit enter →
    u ∈ t.nodes
  | .node l cs s, u, hu => by
      rw [visit, List.mem_cons] at hu
      rw [mem_nodes_node]
      refine hu.imp_right fun hu => ?_
      split at hu
      · exact mem_nodes_of_visitAll hu
      · cases hu

theorem mem_nodes_of_visitAll {enter : Phrase → Bool} : ∀ {ts : List Phrase} {u : Phrase},
    u ∈ visitAll enter ts → ∃ t ∈ ts, u ∈ t.nodes
  | [], _, hu => by cases hu
  | t :: ts, u, hu => by
      rw [visitAll, List.mem_append] at hu
      rcases hu with hu | hu
      · exact ⟨t, List.mem_cons_self, mem_nodes_of_visit hu⟩
      · obtain ⟨v, hv, hu⟩ := mem_nodes_of_visitAll hu
        exact ⟨v, List.mem_cons_of_mem t hv, hu⟩

end

/-- The outermost subselects that declare a name use it in their joins for nothing but the
alias. -/
def OpenInOrder (a : String) (t : Phrase) : Prop :=
  ∀ u ∈ t.visit fun v => !declares a v, declares a u →
    JoinsWithin (· ≠ a) (rangeAliases (fromItems u)) (joinsOf (fromItems u))

section Substitution

variable {a : String} {r t c : Phrase} {i : Nat} {p : List Nat}

theorem OpenInOrder.child {l : Label} {ts : List Phrase} {s : Source.Span}
    (h : OpenInOrder a (.node l ts s)) (hopen : ¬ declares a (.node l ts s)) (hc : c ∈ ts) :
    OpenInOrder a c := by
  intro u hu
  refine h u ?_
  rw [visit, if_pos (by simpa using hopen)]
  exact List.mem_cons_of_mem _ (mem_visitAll.mpr ⟨c, hc, hu⟩)

theorem OpenInOrder.joins (h : OpenInOrder a t) (hdeclares : declares a t) :
    JoinsWithin (· ≠ a) (rangeAliases (fromItems t)) (joinsOf (fromItems t)) := by
  refine h t ?_ hdeclares
  obtain ⟨l, ts, s⟩ := t
  exact List.mem_cons_self

theorem not_declares {l : Label} (hl : l ≠ .subselect) (a : String) (ts : List Phrase)
    (s : Source.Span) : ¬ declares a (.node l ts s) := fun h => hl (declares_iff.mp h).1

/-- Where a node is neither a reference nor declares the name, its children are rewritten. -/
theorem at?_substitute {l : Label} {ts : List Phrase} {s : Source.Span} (hpath : l ≠ .path)
    (hname : l ≠ .identifier a) (hopen : ¬ declares a (.node l ts s)) (hc : ts[i]? = some c) :
    at? (i :: p) (substitute a r (.node l ts s)) = at? p (substitute a r c) := by
  have hnode : substitute a r (.node l ts s) = .node l (substituteAll a r ts) s := by
    rw [substitute, if_neg, if_neg hname, if_neg fun h => hpath h.1]
    exact fun h => hopen (declares_iff.mpr ⟨h.1, List.contains_iff_mem.mp h.2⟩)
  rw [hnode, substituteAll_eq_map, at?, Phrase.children, List.getElem?_map, hc]
  rfl

/-- A reference that starts elsewhere stays. -/
theorem substitute_reference_of_ne {x : String} {ws : List String} (ht : t.IsReference x ws)
    (hx : x ≠ a) : substitute a r t = t := by
  cases ht with
  | name s _ => rw [substitute_identifier, if_neg hx]
  | path r' s _ hsegments =>
      rw [substitute, if_neg (by simp), if_neg (by simp), if_neg (by simpa [rootAlias?] using hx),
        substituteAll, substitute_identifier, if_neg hx, hsegments.substituteAll_eq]

end Substitution

/-! ## Both at once -/

/-- A reference of a phrase in a scope, with what the phrase declares around it: checking looks
it up there, and rewriting follows. -/
structure Follows (model : TypeModel) (scope : List AliasDefinition) (t : Phrase) (p : List Nat)
    (u : Phrase) (x : String) (inner : List AliasDefinition) : Prop where
  reference : ∃ ws, u.IsReference x ws
  stands : at? p t = some u
  sees : scopeAt (some model) scope p t = .ok (scope ++ inner)
  found : ∃ type?, typeOf (some model) (scope ++ inner) u = .ok type?
  kept : ∀ {a : String} (r : Phrase), x ≠ a ∨ a ∈ names inner →
    at? p (substitute a r t) = some u
  replaced : ∀ {a : String} (r : Phrase), x = a → a ∉ names inner → OpenInOrder a t →
    at? p (substitute a r t) = some (substitute a r u)

namespace Follows

variable {model : TypeModel} {scope ds inner : List AliasDefinition} {u c : Phrase} {x : String}
  {i : Nat} {p : List Nat}

theorem self {ws : List String} (hu : u.IsReference x ws)
    (hfound : ∃ type?, typeOf (some model) scope u = .ok type?) :
    Follows model scope u [] u x [] where
  reference := ⟨ws, hu⟩
  stands := rfl
  sees := by rw [scopeAt, List.append_nil]
  found := by rwa [List.append_nil]
  kept r h := by
    rw [at?, substitute_reference_of_ne hu (h.resolve_right (by simp [names]))]
  replaced _ _ _ _ := rfl

theorem child {l : Label} {ts : List Phrase} {s : Source.Span}
    (h : Follows model scope c p u x inner) (hcompound : l.isCompound) (hc : ts[i]? = some c) :
    Follows model scope (.node l ts s) (i :: p) u x inner := by
  have hsubselect : l ≠ .subselect := by rintro rfl; cases hcompound
  have hpath : l ≠ .path := by rintro rfl; cases hcompound
  have hname : ∀ a, l ≠ .identifier a := by rintro a rfl; cases hcompound
  have hopen : ∀ a, ¬ declares a (.node l ts s) := fun a => not_declares hsubselect a ts s
  refine ⟨h.reference, ?_, ?_, h.found, fun {a} r hkept => ?_, fun {a} r hx hfree horder => ?_⟩
  · rw [at?, Phrase.children, hc]
    exact h.stands
  · rw [scopeAt_child (t := .node l ts s) hsubselect hc]
    exact h.sees
  · rw [at?_substitute hpath (hname a) (hopen a) hc]
    exact h.kept r hkept
  · rw [at?_substitute hpath (hname a) (hopen a) hc]
    exact h.replaced r hx hfree (horder.child (hopen a) (List.mem_of_getElem? hc))

/-- Through a clause of a subselect, what the subselect declares is around a reference. -/
theorem clause {ts : List Phrase} {s : Source.Span} (h : Follows model (scope ++ ds) c p u x inner)
    (hc : ts[i]? = some c) (hclause : c.label ≠ .fromClause)
    (hds : declarations (some model) .subselect scope (.node .subselect ts s) = .ok ds)
    (hnames : names ds = declaredAliases (.node .subselect ts s)) :
    Follows model scope (.node .subselect ts s) (i :: p) u x (ds ++ inner) := by
  have hstands : at? (i :: p) (.node .subselect ts s) = some u := by
    rw [at?, Phrase.children, hc]
    exact h.stands
  refine ⟨h.reference, hstands, ?_, ?_, fun {a} r hkept => ?_, fun {a} r hx hfree horder => ?_⟩
  · rw [scopeAt_clause rfl hc hclause hds, ← List.append_assoc]
    exact h.sees
  · rw [← List.append_assoc]
    exact h.found
  · by_cases hdeclares : a ∈ declaredAliases (.node .subselect ts s)
    · rw [substitute_of_declares rfl hdeclares, hstands]
    · rw [at?_substitute (by simp) (by simp) (fun h => hdeclares (declares_iff.mp h).2) hc]
      refine h.kept r (hkept.imp_right fun hmem => ?_)
      rw [names_append, List.mem_append, hnames] at hmem
      exact hmem.resolve_left hdeclares
  · rw [names_append, List.mem_append, not_or, hnames] at hfree
    have hopen : ¬ declares a (.node .subselect ts s) := fun h => hfree.1 (declares_iff.mp h).2
    rw [at?_substitute (by simp) (by simp) hopen hc]
    exact h.replaced r hx hfree.2 (horder.child hopen (List.mem_of_getElem? hc))

/-- The path of a join sees what is declared before it. -/
theorem join {distinct : Bool} {cs items rest : List Phrase} {s₁ s₂ s₃ : Source.Span}
    (hitems : ∀ r ∈ items, r.IsRange) (hjoins : ∀ j ∈ joinsOf items, j.IsJoin)
    (hds : declarations (some model) .subselect scope (.node .subselect
      (.node (.selectClause distinct) cs s₁ :: .node .fromClause items s₂ :: rest) s₃) = .ok ds)
    (hu : referenceAt? p (.node .fromClause items s₂) = some u) :
    ∃ x declared, Follows model scope (.node .subselect
      (.node (.selectClause distinct) cs s₁ :: .node .fromClause items s₂ :: rest) s₃) (1 :: p) u x
        declared := by
  cases p with
  | nil => cases hu
  | cons i p =>
      obtain ⟨-, -, range, hr, hin⟩ := referenceAt?_cons hu
      have hr : items[i]? = some range := hr
      have hmem : range ∈ items := List.mem_of_getElem? hr
      obtain ⟨k, j, rfl, hj, hjoin, hchild, x, ws, href⟩ := (hitems range hmem).referenceAt?
        (fun j hj => hjoins j (List.mem_flatMap.mpr ⟨range, hmem, hj⟩)) hin
      obtain ⟨later, hsplit⟩ := joinsOf_eq_joinsBefore hr hj
      rw [declarations_subselect] at hds
      obtain ⟨ranges, hranges, hds⟩ := ok_of_bind hds
      rw [hsplit] at hds
      obtain ⟨declared, more, hbefore, hmore⟩ := ok_of_foldlM hds
      have hdeclared : declaredBefore (some model) scope items i (k + 2) = .ok declared := by
        rw [declaredBefore, hranges]
        exact hbefore
      have hearlier : ∀ j ∈ joinsBefore items i (k + 2), j.IsJoin := fun j hj =>
        hjoins j (hsplit ▸ List.mem_append_left _ hj)
      have hnames : names declared = rangeAliases items ++
          (joinsBefore items i (k + 2)).filterMap declaredAlias? := by
        rw [names_declareJoins hearlier hbefore, names_declareRanges hitems hranges]
        rfl
      obtain ⟨t, ht⟩ : ∃ t, t = Phrase.node .subselect (.node (.selectClause distinct) cs s₁
        :: .node .fromClause items s₂ :: rest) s₃ := ⟨_, rfl⟩
      have hsubset : names declared ⊆ t.declaredAliases := by
        rw [ht, declaredAliases_subselect, hnames, hsplit, List.filterMap_append]
        exact List.append_subset.mpr ⟨List.subset_append_left _ _, fun n hn =>
          List.mem_append_right _ (List.mem_append_left _ hn)⟩
      have hfromItems : fromItems t = items := by
        rw [ht]
        simp [fromItems, findChild?, Phrase.children, Phrase.label]
      have hstands : at? [1, i, k + 2, 0] t = some u := by
        rw [ht]
        exact at?_of_referenceAt? hu
      have hput : ∀ {a : String} (r : Phrase), a ∉ t.declaredAliases →
          at? [1, i, k + 2, 0] (substitute a r t) = some (substitute a r u) := by
        intro a r hopen
        have hsubselect : ¬ declares a t := fun h => hopen (declares_iff.mp h).2
        have hpath : at? [0] (substitute a r j) = some (substitute a r u) := by
          cases hjoin with
          | bare outer fetch s hp =>
              exact at?_substitute (by simp) (by simp) (not_declares (by simp) a _ s) hchild
          | named outer fetch s r' hp ha =>
              exact at?_substitute (by simp) (by simp) (not_declares (by simp) a _ s) hchild
        have hitem : at? [k + 2, 0] (substitute a r range) = some (substitute a r u) := by
          obtain ⟨b, entity, js, r₁, r₂, r₃, -⟩ := hitems range hmem
          exact (at?_substitute (l := .fromItem) (by simp) (by simp) (not_declares (by simp) a _ r₃)
            hj).trans hpath
        rw [ht] at hsubselect ⊢
        rw [at?_substitute (by simp) (by simp) hsubselect rfl,
          at?_substitute (by simp) (by simp) (not_declares (by simp) a _ s₂) hr, hitem]
      rw [← ht]
      refine ⟨x, declared, ⟨ws, href⟩, hstands, ?_, typeOf_of_declareJoin hjoin hchild hmore,
        fun {a} r hkept => ?_, fun {a} r hx hfree horder => ?_⟩
      · rw [ht]
        exact scopeAt_join rfl rfl rfl hdeclared _
      · by_cases hdeclares : a ∈ t.declaredAliases
        · rw [substitute_of_declares (ht ▸ rfl) hdeclares, hstands]
        · have hx := hkept.resolve_right fun hmem => hdeclares (hsubset hmem)
          rw [hput r hdeclares, substitute_reference_of_ne href hx]
      · refine hput r fun hdeclares => ?_
        have hjoins := horder.joins (declares_iff.mpr ⟨ht ▸ rfl, hdeclares⟩)
        rw [hfromItems] at hjoins
        rcases start_of_joinsWithin hjoins hsplit hchild href with hmem | hne
        · exact hfree (hx ▸ hnames ▸ hmem)
        · exact hne hx

end Follows

/-- In a phrase that is accepted, every reference is followed. -/
theorem Query.Phrase.Within.follows {model : TypeModel} {P : String → Prop} {t : Phrase}
    (ht : Within P t) {scope : List AliasDefinition} {ss : List Query.Statement}
    (h : check (some model) scope t = .ok ss) {p : List Nat} {u : Phrase}
    (hu : referenceAt? p t = some u) : ∃ x inner, Follows model scope t p u x inner := by
  induction ht generalizing scope ss p with
  | @reference _ t n ws ht _ =>
      obtain ⟨rfl, rfl⟩ := ht.referenceAt? hu
      rw [check_reference model scope ht] at h
      cases htype : typeOf (some model) scope u with
      | error e =>
          rw [htype] at h
          cases h
      | ok type? => exact ⟨n, [], .self ht ⟨type?, htype⟩⟩
  | @leaf _ l s hl =>
      cases p with
      | nil =>
          obtain ⟨-, rfl | ⟨x, rfl⟩⟩ := referenceAt?_nil hu <;> cases hl
      | cons i p =>
          obtain ⟨-, -, c, hc, -⟩ := referenceAt?_cons hu
          cases hc
  | @subselect P cs items rest distinct s₁ s₂ s₃ hitems hjoins _ _ hfinal hselect hrest =>
      obtain ⟨ds, hdeclared, h⟩ := ok_of_bind h
      obtain ⟨subselects, hclauses, -⟩ := ok_of_bind h
      have hclauses := (within_clauses hitems hjoins hfinal hdeclared hclauses).2.2
      have hisJoin := Query.Grammar.isJoin_of_joinsWithin hjoins
      have hnames := names_declarations hitems hisJoin hdeclared
      cases p with
      | nil => cases hu
      | cons i p =>
          obtain ⟨-, -, c, hc, hin⟩ := referenceAt?_cons hu
          match i with
          | 0 =>
              obtain rfl := Option.some.inj hc
              cases p with
              | nil => cases hin
              | cons k p =>
                  obtain ⟨-, -, c, hc, hin⟩ := referenceAt?_cons hin
                  have hmem : c ∈ cs := List.mem_of_getElem? hc
                  obtain ⟨ss, hcheck⟩ := hclauses c (Or.inl hmem)
                  obtain ⟨x, inner, hfollows⟩ := hselect c hmem hcheck hin
                  exact ⟨x, ds ++ inner, (hfollows.child (l := .selectClause distinct) rfl hc).clause
                    rfl (by simp [Phrase.label]) hdeclared hnames⟩
          | 1 =>
              obtain rfl := Option.some.inj hc
              exact Follows.join hitems hisJoin hdeclared hin
          | i + 2 =>
              have hmem : c ∈ rest := List.mem_of_getElem? hc
              obtain ⟨ss, hcheck⟩ := hclauses c (Or.inr hmem)
              obtain ⟨x, inner, hfollows⟩ := hrest c hmem hcheck hin
              have hlabel : c.label ≠ .fromClause := by
                intro heq
                have hkind := hfinal c hmem
                rw [heq] at hkind
                cases hkind
              exact ⟨x, ds ++ inner, hfollows.clause hc hlabel hdeclared hnames⟩
  | @compound _ l ts s hcompound _ ih =>
      rw [check_compound _ _ hcompound] at h
      cases p with
      | nil =>
          obtain ⟨-, rfl | ⟨x, rfl⟩⟩ := referenceAt?_nil hu <;> cases hcompound
      | cons i p =>
          obtain ⟨-, -, c, hc, hin⟩ := referenceAt?_cons hu
          have hmem := List.mem_of_getElem? hc
          obtain ⟨ss, hcheck⟩ := ok_of_checkAll h c hmem
          obtain ⟨x, inner, hfollows⟩ := ih c hmem hcheck hin
          exact ⟨x, inner, hfollows.child hcompound hc⟩

/-- Whether the outermost subselects that declare a name are in order. -/
def isOpenInOrder (a : String) (t : Phrase) : Bool :=
  (t.visit fun v => !declares a v).all fun u => !declares a u ||
    joinsStart (fun n => n != a) (rangeAliases (fromItems u)) (joinsOf (fromItems u))

theorem openInOrder_of_isOpenInOrder {a : String} {t : Phrase} (ht : Query.Grammar.Sound t)
    (h : isOpenInOrder a t) : OpenInOrder a t := by
  intro u hu hdeclares
  have hcheck := List.all_eq_true.mp h u hu
  rw [hdeclares, Bool.not_true, Bool.false_or] at hcheck
  have hjoins := isJoin_of_sound ht (mem_nodes_of_visit hu) (declares_iff.mp hdeclares).1
  exact (joinsWithin_of_joinsStart hjoins hcheck).mono fun n hn => by simpa using hn

/-! ## Rules -/

namespace Query.Scope

/-- Behind a first definition, a name refers to what the others declare, and to the first one
only if they do not declare it. -/
theorem find?_cons (d : AliasDefinition) (inner : List AliasDefinition) (n : String) :
    find? (d :: inner) n = (find? inner n).or (if d.name = n then some d else none) := by
  by_cases hn : d.name = n <;> simp [find?, List.find?_append, hn]

theorem find?_eq_none_iff {scope : List AliasDefinition} {n : String} :
    find? scope n = none ↔ n ∉ names scope := by
  simp [find?, names]

end Query.Scope

/-- What the condition of a rule is checked under. -/
def AccessRule.subjectDefinition (r : AccessRule) : AliasDefinition :=
  .range r.subject r.entityName

/-- Rewriting and checking agree on scoping.  Each reference of the condition of a rule is looked
up behind the subject of the rule.  Either a subselect declares the name that it starts at; then
it is found there, and it stays whatever path is put for the subject.  Or it means the subject,
and the path takes the place of its root if the joins of the condition are in order. -/
theorem AccessRule.substitution_follows_scoping {m : Mapping} {position : Nat} {source : String}
    {rules : List AccessRule} (h : AccessRule.ofText m position source = .ok rules)
    {r : AccessRule} (hr : r ∈ rules) {condition : Phrase} (hcondition : r.condition? = some condition)
    {p : List Nat} {u : Phrase} (hu : referenceAt? p condition = some u) :
    ∃ x ws inner, u.IsReference x ws ∧ at? p condition = some u ∧
      scopeAt (some m.model) [r.subjectDefinition] p condition =
        .ok (r.subjectDefinition :: inner) ∧
      ((∃ d, find? inner x = some d ∧ find? (r.subjectDefinition :: inner) x = some d ∧
          ∀ path, at? p (substitute r.subject path condition) = some u) ∨
        (find? inner x = none ∧ x = r.subject ∧
          find? (r.subjectDefinition :: inner) x = some r.subjectDefinition ∧
          (OpenInOrder r.subject condition → ∀ path,
            at? p (substitute r.subject path condition) = some (substitute r.subject path u)))) := by
  obtain ⟨hwithin, ss, hcheck⟩ := AccessRule.checked_condition h hr hcondition
  obtain ⟨x, inner, hfollows⟩ := hwithin.follows hcheck hu
  obtain ⟨ws, href⟩ := hfollows.reference
  obtain ⟨type?, htype⟩ := hfollows.found
  refine ⟨x, ws, inner, href, hfollows.stands, hfollows.sees, ?_⟩
  have hfind := find?_cons r.subjectDefinition inner x
  cases hinner : find? inner x with
  | some d =>
      refine Or.inl ⟨d, rfl, by rw [hfind, hinner, Option.some_or], fun path => ?_⟩
      refine hfollows.kept path (or_iff_not_imp_left.mpr fun hx => ?_)
      exact not_not.mp hx ▸ mem_names_of_find? hinner
  | none =>
      have hfree := find?_eq_none_iff.mp hinner
      have hsubject : x = r.subject :=
        (List.mem_cons.mp (mem_names_of_typeOf href htype)).resolve_right hfree
      refine Or.inr ⟨rfl, hsubject, ?_, fun horder path => ?_⟩
      · rw [hfind, hinner, Option.none_or]
        exact if_pos hsubject.symm
      · exact hfollows.replaced path hsubject (hsubject ▸ hfree) horder

/-! ## Documents of one owner -/

namespace Restriction

def reviewMapping : Mapping where
  classes := [{ name := "Document", properties := [⟨"owner", .basic⟩, ⟨"reviewer", .basic⟩] }]

/-- A join starts at the subject, and a subselect further in declares its name. -/
def reviewRule : String :=
  "GRANT READ ACCESS TO Document x WHERE x.owner = 'a' AND EXISTS (SELECT y FROM Document y " ++
    "JOIN x.owner z WHERE z = y.owner AND EXISTS (SELECT x FROM Document x WHERE x.owner = z))"

/-- Its condition for the reviewer of a document. -/
def reviewCondition : String :=
  "d.reviewer.owner = 'a' AND EXISTS (SELECT y FROM Document y INNER JOIN d.reviewer.owner z " ++
    "WHERE z = y.owner AND EXISTS (SELECT x FROM Document x WHERE x.owner = z))"

/-- The path stands for the subject in the join, and the subselect further in is left alone. -/
theorem substitution_follows_scoping_review :
    ∃ rules r condition u, AccessRule.ofText reviewMapping 0 reviewRule = .ok rules ∧
      r ∈ rules ∧ r.condition? = some condition ∧
      referenceAt? [1, 0, 1, 0, 2, 0] condition = some u ∧ u.render = "x.owner" ∧
      OpenInOrder r.subject condition ∧
      (substitute r.subject (ofDotted "d.reviewer") condition).render = reviewCondition ∧
      ∃ x ws inner, u.IsReference x ws ∧ at? [1, 0, 1, 0, 2, 0] condition = some u ∧
        scopeAt (some reviewMapping.model) [r.subjectDefinition] [1, 0, 1, 0, 2, 0] condition =
          .ok (r.subjectDefinition :: inner) ∧
        ((∃ d, find? inner x = some d ∧ find? (r.subjectDefinition :: inner) x = some d ∧
            ∀ path, at? [1, 0, 1, 0, 2, 0] (substitute r.subject path condition) = some u) ∨
          (find? inner x = none ∧ x = r.subject ∧
            find? (r.subjectDefinition :: inner) x = some r.subjectDefinition ∧
            (OpenInOrder r.subject condition → ∀ path, at? [1, 0, 1, 0, 2, 0]
              (substitute r.subject path condition) = some (substitute r.subject path u)))) := by
  have hfound : (AccessRule.ofText reviewMapping 0 reviewRule).toOption.any fun rules =>
      rules.head?.any fun r => r.condition?.any fun condition =>
        isOpenInOrder r.subject condition &&
        ((substitute r.subject (ofDotted "d.reviewer") condition).render == reviewCondition) &&
        (referenceAt? [1, 0, 1, 0, 2, 0] condition).any fun u => u.render == "x.owner" := by
    decide +kernel
  obtain ⟨rules, hrules, hfound⟩ := ok_of_any hfound
  obtain ⟨r, hr, hfound⟩ := (Option.any_eq_true _ _).mp hfound
  obtain ⟨condition, hcondition, hfound⟩ := (Option.any_eq_true _ _).mp hfound
  simp only [Bool.and_eq_true] at hfound
  obtain ⟨⟨horder, htext⟩, hfound⟩ := hfound
  obtain ⟨u, hu, hrender⟩ := (Option.any_eq_true _ _).mp hfound
  have hr := List.mem_of_head? hr
  have hwithin := (AccessRule.checked_condition hrules hr hcondition).1
  exact ⟨rules, r, condition, u, hrules, hr, hcondition, hu, beq_iff_eq.mp hrender,
    openInOrder_of_isOpenInOrder (Query.Grammar.sound_of_within hwithin) horder,
    beq_iff_eq.mp htext,
    AccessRule.substitution_follows_scoping hrules hr hcondition hu⟩

/-- A join starts at the subject and declares its name. -/
def joinRule : String :=
  "GRANT READ ACCESS TO Document x WHERE EXISTS (SELECT f FROM Document f JOIN x.owner x " ++
    "WHERE f.owner = x)"

/-- A join that declares the name of the subject starts at the subject, as checking sees it; the
path is not put for it. -/
theorem subject_of_join_stays :
    ∃ rules r condition u inner, AccessRule.ofText reviewMapping 0 joinRule = .ok rules ∧
      r ∈ rules ∧ r.condition? = some condition ∧
      referenceAt? [0, 1, 0, 2, 0] condition = some u ∧ u.rootAlias? = some r.subject ∧
      scopeAt (some reviewMapping.model) [r.subjectDefinition] [0, 1, 0, 2, 0] condition =
        .ok (r.subjectDefinition :: inner) ∧
      find? inner r.subject = none ∧
      (at? [0, 1, 0, 2, 0] (substitute r.subject (ofDotted "d") condition)).map Phrase.render =
        some "x.owner" ∧
      at? [0, 1, 0, 2, 0] (substitute r.subject (ofDotted "d") condition) ≠
        some (substitute r.subject (ofDotted "d") u) := by
  have hfound : (AccessRule.ofText reviewMapping 0 joinRule).toOption.any fun rules =>
      rules.head?.any fun r => r.condition?.any fun condition =>
        (referenceAt? [0, 1, 0, 2, 0] condition).any fun u =>
          (scopeAt (some reviewMapping.model) [r.subjectDefinition] [0, 1, 0, 2, 0]
            condition).toOption.any fun scope => scope.head?.any fun d =>
              decide (d = r.subjectDefinition ∧ find? scope.tail r.subject = none ∧
                u.rootAlias? = some r.subject ∧
                (at? [0, 1, 0, 2, 0] (substitute r.subject (ofDotted "d") condition)).map
                  Phrase.render = some "x.owner" ∧
                (substitute r.subject (ofDotted "d") u).render = "d.owner") := by
    decide +kernel
  obtain ⟨rules, hrules, hfound⟩ := ok_of_any hfound
  obtain ⟨r, hr, hfound⟩ := (Option.any_eq_true _ _).mp hfound
  obtain ⟨condition, hcondition, hfound⟩ := (Option.any_eq_true _ _).mp hfound
  obtain ⟨u, hu, hfound⟩ := (Option.any_eq_true _ _).mp hfound
  obtain ⟨scope, hscope, hfound⟩ := ok_of_any hfound
  obtain ⟨d, hd, hfound⟩ := (Option.any_eq_true _ _).mp hfound
  obtain ⟨rfl, hfree, hroot, hstays, hmoves⟩ := of_decide_eq_true hfound
  obtain ⟨inner, rfl⟩ : ∃ inner, scope = r.subjectDefinition :: inner :=
    ⟨scope.tail, (List.cons_head?_tail hd).symm⟩
  refine ⟨rules, r, condition, u, inner, hrules, List.mem_of_head? hr, hcondition, hu, hroot,
    hscope, hfree, hstays, fun hput => ?_⟩
  rw [hput, Option.map_some, hmoves] at hstays
  exact absurd hstays (by decide)

end Restriction

end RowGuard
