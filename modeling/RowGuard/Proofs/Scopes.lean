import Mathlib.Data.List.Induction
import RowGuard.Mapping.Basic
import RowGuard.Proofs.Agreement
import RowGuard.Proofs.Correspondence
import RowGuard.Query.Scope

/-!
# Checking corresponding phrases

Corresponding phrases are checked with the same success as long as their scopes
agree: names that refer to the same declaration resolve on both sides, and the
types behind them allow the same paths.  A type may be sharper on the first
side than on the second, if every property of the second is one of the first
with the same type, and on the first side it may be missing, where every path
goes on trust.  Then the check of the second phrase can only be the stricter one.
-/

namespace RowGuard

open Query (AliasDefinition Label Phrase ScopeError TypeModel)
open Query.Phrase
open Query.Scope

/-! ## Types -/

/-- Objects of the first type are objects of the second and have all its
properties, each with the type it has there. -/
def Sharpens (m : Mapping) (sub sup : String) : Prop :=
  m.isAssignable sub sup ∧ ∀ property type,
    m.propertyType? sup property = some type → m.propertyType? sub property = some type

/-- The types behind a name on the two sides.  Leniently, the first may be missing or
sharper. -/
def TypesAgree (lenient : Prop) (m : Mapping) (type? type'? : Option String) : Prop :=
  type? = type'? ∨ (lenient ∧ (type? = none ∨
    ∃ sub sup, type? = some sub ∧ type'? = some sup ∧ Sharpens m sub sup))

namespace Query.Scope

/-- The type behind some words, none where there is no such property. -/
def typeAlong (model : TypeModel) : Option String → List String → Option (Option String)
  | owner?, [] => some owner?
  | none, _ :: _ => none
  | some owner, w :: ws =>
      match model.propertyType? owner w with
      | none => none
      | some type => typeAlong model type.target? ws

/-- The type behind some words, on trust where the root has none. -/
def typeFrom (model : TypeModel) (type? : Option String) (ws : List String) :
    Option (Option String) :=
  match type? with
  | none => some none
  | some type => typeAlong model (some type) ws

/-- An outcome that is the error of a missing property or a type. -/
def IsLookUp (x : Checked (Option String)) (found? : Option (Option String)) : Prop :=
  match found? with
  | some type? => x = .ok type?
  | none => ∃ e : ScopeError, x = .error e ∧ e.isUnresolved = false

theorem isLookUp_typeBehind (model : TypeModel) (owner? : Option String) (before : String)
    {segments : List Phrase} {ws : List String} (h : AreSegments segments ws) :
    IsLookUp (typeBehind model owner? before segments) (typeAlong model owner? ws) := by
  induction h generalizing owner? before with
  | nil => cases owner? <;> rfl
  | @cons w segments ws span hword hsegments ih =>
      cases owner? with
      | none => exact ⟨_, rfl, rfl⟩
      | some owner =>
          simp only [typeBehind, Phrase.text?, Phrase.label, Label.text?, typeAlong]
          cases model.propertyType? owner w with
          | none => exact ⟨_, rfl, rfl⟩
          | some type => exact ih type.target? w

theorem typeFrom_nil (model : TypeModel) (type? : Option String) :
    typeFrom model type? [] = some type? := by
  cases type? <;> rfl

theorem typeAlong_append (model : TypeModel) (owner? : Option String)
    (vs ws : List String) : typeAlong model owner? (vs ++ ws) =
      (typeAlong model owner? vs).bind fun type? => typeAlong model type? ws := by
  induction vs generalizing owner? with
  | nil => cases owner? <;> rfl
  | cons v vs ih =>
      cases owner? with
      | none => rfl
      | some owner =>
          simp only [List.cons_append, typeAlong]
          cases model.propertyType? owner v with
          | none => rfl
          | some type => exact ih type.target?

/-- The type of a reference is that behind its words, if its root resolves. -/
theorem typeOf_reference (model : TypeModel) (scope : List AliasDefinition) {t : Phrase}
    {x : String} {ws : List String} (h : t.IsReference x ws) :
    match find? scope x with
    | some d => IsLookUp (typeOf (some model) scope t) (typeFrom model d.type? ws)
    | none => ∃ e : ScopeError, typeOf (some model) scope t = .error e ∧
        e.isUnresolved = true := by
  cases h with
  | name span hword =>
      simp only [typeOf, rootAndSegments, Phrase.label, Phrase.span, resolve]
      cases find? scope x with
      | none => exact ⟨_, rfl, rfl⟩
      | some d =>
          cases hd : d.type? with
          | none => simp [IsLookUp, typeFrom, hd, bind, Except.bind, pure, Except.pure]
          | some type =>
              simp [IsLookUp, typeFrom, typeAlong, typeBehind, hd, bind, Except.bind]
  | @path _ w segments ws rootSpan span hword hsegments =>
      simp only [typeOf, rootAndSegments, Phrase.label, Phrase.span, resolve]
      cases find? scope x with
      | none => exact ⟨_, rfl, rfl⟩
      | some d =>
          cases hd : d.type? with
          | none => simp [IsLookUp, typeFrom, hd, bind, Except.bind, pure, Except.pure]
          | some type =>
              simpa [typeFrom, hd, bind, Except.bind] using
                isLookUp_typeBehind model (some type) x hsegments

theorem checkParts_segments (model? : Option TypeModel) (scope : List AliasDefinition)
    {segments : List Phrase} {ws : List String} (h : AreSegments segments ws) :
    checkParts model? scope segments = .ok [] := by
  induction h with
  | nil => rfl
  | cons span hword _ ih =>
      simp [checkParts, ih, Phrase.label, pure, Except.pure, bind, Except.bind]

/-- Checking a reference is looking up its type. -/
theorem check_reference (model : TypeModel) (scope : List AliasDefinition) {t : Phrase}
    {x : String} {ws : List String} (h : t.IsReference x ws) :
    check (some model) scope t = (typeOf (some model) scope t).map fun _ => [] := by
  cases h with
  | name span hword =>
      simp only [check, typeOf, rootAndSegments, Phrase.label, Phrase.span, resolve]
      cases find? scope x with
      | none => rfl
      | some d =>
          cases hd : d.type? <;>
            simp [hd, typeBehind, bind, Except.bind, pure, Except.pure, Except.map]
  | path rootSpan span hword hsegments =>
      simp only [check, checkParts, Phrase.label, checkParts_segments _ _ hsegments]
      cases typeOf (some model) scope _ <;> rfl

theorem check_leaf (model? : Option TypeModel) (scope : List AliasDefinition) {l : Label}
    (hleaf : l.isLeaf) (s : Source.Span) : check model? scope (.node l [] s) = .ok [] := by
  cases l <;> first | rfl | cases hleaf

theorem check_compound (model? : Option TypeModel) (scope : List AliasDefinition) {l : Label}
    (hcompound : l.isCompound) (ts : List Phrase) (s : Source.Span) :
    check model? scope (.node l ts s) = checkAll model? scope ts := by
  cases l <;> first | rfl | cases hcompound

theorem checkAll_names (model? : Option TypeModel) (scope : List AliasDefinition)
    (names : List String) :
    checkAll model? scope (names.map namedParameter) = .ok [] := by
  induction names with
  | nil => rfl
  | cons name names ih =>
      rw [List.map_cons, checkAll, ih]
      rfl

end Query.Scope

/-! ## Scopes -/

/-- Names that refer to the same declaration resolve on both sides or on none,
and their types agree. -/
def ScopesAgree (lenient : Prop) (m : Mapping) (k : Link) (ρ : Pairs)
    (scope scope' : List AliasDefinition) : Prop :=
  ∀ n x ws, Refers k ρ n x ws →
    (ws = [] ∧ find? scope n = none ∧ find? scope' x = none) ∨
    ∃ d d', find? scope n = some d ∧ find? scope' x = some d' ∧
      (ws = [] ∨ lenient ∨ d.type?.isSome) ∧
      ((typeFrom m.model d'.type? ws = none ∧ lenient) ∨
        ∃ type'?, typeFrom m.model d'.type? ws = some type'? ∧
          TypesAgree lenient m d.type? type'?)

section Types

variable {lenient : Prop} {m : Mapping} {k : Link} {ρ : Pairs}
variable {scope scope' : List AliasDefinition}

/-- Two look-ups of a type agree; leniently one of them may miss. -/
def LookUpsAgree (lenient : Prop) (R : Option String → Option String → Prop) :
    Option (Option String) → Option (Option String) → Prop
  | some type?, some type'? => R type? type'?
  | none, none => True
  | _, _ => lenient

variable {R : Option String → Option String → Prop}

theorem LookUpsAgree.refl (hR : ∀ type?, R type? type?) (found? : Option (Option String)) :
    LookUpsAgree lenient R found? found? := by
  cases found? with
  | none => trivial
  | some type? => exact hR type?

theorem LookUpsAgree.of_none (hlenient : lenient) (found? : Option (Option String)) :
    LookUpsAgree lenient R found? none := by
  cases found? with
  | none => trivial
  | some type? => exact hlenient

theorem LookUpsAgree.agree {x y : Checked (Option String)}
    {found? found'? : Option (Option String)} (h : LookUpsAgree lenient R found? found'?)
    (hx : IsLookUp x found?) (hy : IsLookUp y found'?) :
    Outcome.Agree lenient ScopeError.isUnresolved R x y := by
  cases found? with
  | none =>
      obtain ⟨e, rfl, he⟩ := hx
      cases found'? with
      | none =>
          obtain ⟨f, rfl, hf⟩ := hy
          exact Or.inr (he.trans hf.symm)
      | some type'? =>
          cases hy
          exact ⟨h, he⟩
  | some type? =>
      cases hx
      cases found'? with
      | none =>
          obtain ⟨f, rfl, hf⟩ := hy
          exact ⟨h, hf⟩
      | some type'? =>
          cases hy
          exact h

theorem typeFrom_append (model : TypeModel) (type? : Option String) (vs ws : List String) :
    typeFrom model type? (vs ++ ws) =
      match type? with
      | none => some none
      | some _ => (typeFrom model type? vs).bind fun found? => typeAlong model found? ws := by
  cases type? with
  | none => rfl
  | some type => exact typeAlong_append model (some type) vs ws

theorem TypesAgree.refl (type? : Option String) : TypesAgree lenient m type? type? :=
  Or.inl rfl

/-- Along the same words a sharper type leads to the same types; only where there
are no words does it stay the sharper one. -/
theorem Sharpens.along {sub sup : String} (hlenient : lenient) (h : Sharpens m sub sup)
    (ws : List String) :
    LookUpsAgree lenient (TypesAgree lenient m)
      (typeAlong m.model (some sub) ws) (typeAlong m.model (some sup) ws) := by
  cases ws with
  | nil => exact Or.inr ⟨hlenient, Or.inr ⟨sub, sup, rfl, rfl, h⟩⟩
  | cons w ws =>
      simp only [typeAlong]
      cases hsup : m.model.propertyType? sup w with
      | none => exact LookUpsAgree.of_none hlenient _
      | some type =>
          rw [show m.model.propertyType? sub w = some type from h.2 w type hsup]
          exact LookUpsAgree.refl TypesAgree.refl _

/-- Where there is no type, every path is on trust. -/
theorem LookUpsAgree.of_trust (hlenient : lenient) (found? : Option (Option String)) :
    LookUpsAgree lenient (TypesAgree lenient m) (some none) found? := by
  cases found? with
  | none => exact hlenient
  | some type'? => exact Or.inr ⟨hlenient, Or.inl rfl⟩

theorem LookUpsAgree.extend {type? type'? : Option String} {vs : List String}
    (hvs : vs = [] ∨ lenient ∨ type?.isSome)
    (h : (typeFrom m.model type'? vs = none ∧ lenient) ∨
      ∃ found?, typeFrom m.model type'? vs = some found? ∧ TypesAgree lenient m type? found?)
    (ws : List String) :
    LookUpsAgree lenient (TypesAgree lenient m) (typeFrom m.model type? ws)
      (typeFrom m.model type'? (vs ++ ws)) := by
  rw [typeFrom_append]
  cases type'? with
  | none =>
      rcases h with ⟨h, -⟩ | ⟨found?, h, htypes⟩
      · cases h
      · cases h
        rcases htypes with rfl | ⟨hlenient, rfl | ⟨_, _, -, hsup, -⟩⟩
        · exact TypesAgree.refl none
        · exact LookUpsAgree.of_trust hlenient _
        · cases hsup
  | some root =>
      rcases h with ⟨h, hlenient⟩ | ⟨found?, h, htypes⟩
      · simp only [h, Option.bind_none]
        exact LookUpsAgree.of_none hlenient _
      · simp only [h, Option.bind_some]
        rcases htypes with rfl | ⟨hlenient, rfl | ⟨sub, sup, rfl, rfl, hsharp⟩⟩
        · cases type? with
          | some type => exact LookUpsAgree.refl TypesAgree.refl _
          | none =>
              have hlenient : lenient := by
                rcases hvs with rfl | hlenient | hsome
                · cases h
                · exact hlenient
                · cases hsome
              cases ws with
              | nil => exact TypesAgree.refl none
              | cons w ws => exact hlenient
        · exact LookUpsAgree.of_trust hlenient _
        · exact hsharp.along hlenient ws

/-- References that mean the same have agreeing types. -/
theorem typeOf_agree (hscopes : ScopesAgree lenient m k ρ scope scope') {t u : Phrase}
    {n x : String} {ws vs : List String} (ht : t.IsReference n ws)
    (hu : u.IsReference x (vs ++ ws)) (href : Refers k ρ n x vs) :
    Outcome.Agree lenient ScopeError.isUnresolved (TypesAgree lenient m)
      (typeOf (some m.model) scope t) (typeOf (some m.model) scope' u) := by
  have hleft := typeOf_reference m.model scope ht
  have hright := typeOf_reference m.model scope' hu
  rcases hscopes n x vs href with ⟨-, hn, hx⟩ | ⟨d, d', hd, hd', hvs, htypes⟩
  · rw [hn] at hleft
    rw [hx] at hright
    obtain ⟨e, he, hunresolved⟩ := hleft
    obtain ⟨f, hf, hunresolved'⟩ := hright
    rw [he, hf]
    exact Or.inr (hunresolved.trans hunresolved'.symm)
  · rw [hd] at hleft
    rw [hd'] at hright
    exact (LookUpsAgree.extend hvs htypes ws).agree hleft hright

end Types

/-! ## Declarations -/

/-- Declarations of the two sides next to one another, the first one first. -/
abbrev Definitions := List (AliasDefinition × AliasDefinition)

namespace Definitions

def left (qs : Definitions) : List AliasDefinition := qs.map Prod.fst

def right (qs : Definitions) : List AliasDefinition := qs.map Prod.snd

/-- The declared aliases as pairs, the nearest first. -/
def pairs (qs : Definitions) : Pairs := (qs.map fun q => (q.1.name, q.2.name)).reverse

theorem left_concat (qs : Definitions) (q : AliasDefinition × AliasDefinition) :
    left (qs ++ [q]) = qs.left ++ [q.1] := by
  simp [left]

theorem right_concat (qs : Definitions) (q : AliasDefinition × AliasDefinition) :
    right (qs ++ [q]) = qs.right ++ [q.2] := by
  simp [right]

theorem pairs_concat (qs : Definitions) (q : AliasDefinition × AliasDefinition) :
    pairs (qs ++ [q]) = (q.1.name, q.2.name) :: qs.pairs := by
  simp [pairs]

theorem map_fst_pairs (qs : Definitions) :
    qs.pairs.map Prod.fst = (qs.left.map AliasDefinition.name).reverse := by
  simp [pairs, left]

theorem map_snd_pairs (qs : Definitions) :
    qs.pairs.map Prod.snd = (qs.right.map AliasDefinition.name).reverse := by
  simp [pairs, right]

theorem mem_pairs {qs : Definitions} {q : AliasDefinition × AliasDefinition} (h : q ∈ qs) :
    (q.1.name, q.2.name) ∈ qs.pairs := by
  simp only [pairs, List.mem_reverse, List.mem_map]
  exact ⟨q, h, rfl⟩

end Definitions

theorem Query.Scope.find?_concat (scope : List AliasDefinition) (d : AliasDefinition)
    (name : String) :
    find? (scope ++ [d]) name = if d.name = name then some d else find? scope name := by
  simp only [find?, List.reverse_append, List.reverse_cons, List.reverse_nil, List.nil_append,
    List.singleton_append]
  by_cases hname : d.name = name
  · simp [hname]
  · simp [hname, List.find?_cons_of_neg]

section Declarations

variable {lenient : Prop} {m : Mapping} {k : Link} {ρ P : Pairs}
variable {scope scope' : List AliasDefinition}

/-- Where the types of a reference without words come from. -/
inductive Origin (m : Mapping) (k : Link) (ρ : Pairs) (scope scope' : List AliasDefinition)
    (qs : Definitions) (n x : String) :
    List String → Option String → Option String → Prop
  | declared {q : AliasDefinition × AliasDefinition} : q ∈ qs → q.1.name = n →
      q.2.name = x → Origin m k ρ scope scope' qs n x [] q.1.type? q.2.type?
  | around {vs : List String} {d d' : AliasDefinition} {type'? : Option String} :
      Refers k ρ n x vs → find? scope n = some d → find? scope' x = some d' →
      typeFrom m.model d'.type? vs = some type'? →
        Origin m k ρ scope scope' qs n x vs d.type? type'?

/-- The types of a join are those behind the words of its path, from the types of its root. -/
def Originates (lenient : Prop) (m : Mapping) (k : Link) (ρ : Pairs)
    (scope scope' : List AliasDefinition) (qs : Definitions) (n x : String) (ws vs : List String)
    (type? type'? : Option String) : Prop :=
  ∃ root? root'?, Origin m k ρ scope scope' qs n x vs root? root'? ∧
    TypesAgree lenient m root? root'? ∧ typeFrom m.model root? ws = some type? ∧
    typeFrom m.model root'? ws = some type'?

/-- A join over paths that mean the same. -/
structure JoinAgrees (lenient : Prop) (m : Mapping) (k : Link) (ρ P : Pairs)
    (scope scope' : List AliasDefinition) (qs : Definitions) (d d' : AliasDefinition)
    (n x : String) (ws vs : List String) : Prop where
  path : d.joinPath? = some (Text.Dotted.join (n :: ws))
  path' : d'.joinPath? = some (Text.Dotted.join (x :: (vs ++ ws)))
  words : ∀ w ∈ n :: ws, IsWord w
  words' : ∀ w ∈ x :: (vs ++ ws), IsWord w
  refers : Refers k (P ++ ρ) n x vs
  inner : d.inner = d'.inner
  types : TypesAgree lenient m d.type? d'.type?
  origin : Originates lenient m k ρ scope scope' qs n x ws vs d.type? d'.type?

/-- What is declared on the two sides under one pair of aliases. -/
inductive DefinitionAgrees (lenient : Prop) (m : Mapping) (k : Link) (ρ P : Pairs)
    (scope scope' : List AliasDefinition) (qs : Definitions) :
    AliasDefinition × AliasDefinition → Prop
  | range (a b type : String) :
      DefinitionAgrees lenient m k ρ P scope scope' qs (.range a type, .range b type)
  | join {d d' : AliasDefinition} {n x : String} {ws vs : List String} :
      JoinAgrees lenient m k ρ P scope scope' qs d d' n x ws vs →
        DefinitionAgrees lenient m k ρ P scope scope' qs (d, d')

/-- The aliases declared so far: each once, and on both sides with the same meaning. -/
structure Declared (lenient : Prop) (m : Mapping) (k : Link) (ρ P : Pairs)
    (scope scope' : List AliasDefinition) (qs : Definitions) : Prop where
  nodup : (qs.left.map AliasDefinition.name).Nodup
  nodup' : (qs.right.map AliasDefinition.name).Nodup
  agree : ∀ q ∈ qs, DefinitionAgrees lenient m k ρ P scope scope' qs q

theorem Origin.mono {qs qs' : Definitions} {n x : String} {vs : List String}
    {type? type'? : Option String} (hmem : ∀ q ∈ qs, q ∈ qs')
    (h : Origin m k ρ scope scope' qs n x vs type? type'?) :
    Origin m k ρ scope scope' qs' n x vs type? type'? := by
  cases h with
  | declared hq hn hx => exact Origin.declared (hmem _ hq) hn hx
  | around href hd hd' htype => exact Origin.around href hd hd' htype

theorem DefinitionAgrees.mono {qs qs' : Definitions} {q : AliasDefinition × AliasDefinition}
    (hmem : ∀ q ∈ qs, q ∈ qs') (h : DefinitionAgrees lenient m k ρ P scope scope' qs q) :
    DefinitionAgrees lenient m k ρ P scope scope' qs' q := by
  cases h with
  | range a b type => exact DefinitionAgrees.range a b type
  | join h =>
      obtain ⟨root?, root'?, horigin, hroots⟩ := h.origin
      exact DefinitionAgrees.join
        { h with origin := ⟨root?, root'?, horigin.mono hmem, hroots⟩ }

/-- A definition is that of a range, which has its type on both sides, or of a join. -/
theorem DefinitionAgrees.range_or_join {qs : Definitions} {d d' : AliasDefinition}
    (h : DefinitionAgrees lenient m k ρ P scope scope' qs (d, d')) :
    (d.type? = d'.type? ∧ d.inner = d'.inner) ∨
      ∃ n x ws vs, JoinAgrees lenient m k ρ P scope scope' qs d d' n x ws vs := by
  cases h with
  | range a b type => exact Or.inl ⟨rfl, rfl⟩
  | join h => exact Or.inr ⟨_, _, _, _, h⟩

theorem DefinitionAgrees.inner {qs : Definitions} {d d' : AliasDefinition}
    (h : DefinitionAgrees lenient m k ρ P scope scope' qs (d, d')) : d.inner = d'.inner := by
  rcases h.range_or_join with ⟨-, hinner⟩ | ⟨_, _, _, _, h⟩
  · exact hinner
  · exact h.inner

theorem DefinitionAgrees.types {qs : Definitions} {q : AliasDefinition × AliasDefinition}
    (h : DefinitionAgrees lenient m k ρ P scope scope' qs q) :
    TypesAgree lenient m q.1.type? q.2.type? := by
  cases h with
  | range => exact TypesAgree.refl _
  | join h => exact h.types

/-- Behind declared aliases, a name resolves to its definition or around them. -/
theorem Refers.find?_declared {qs : Definitions} {n x : String} {vs : List String}
    (h : Refers k (qs.pairs ++ ρ) n x vs) :
    (vs = [] ∧ ∃ q ∈ qs, q.1.name = n ∧ q.2.name = x ∧
        find? (scope ++ qs.left) n = some q.1 ∧ find? (scope' ++ qs.right) x = some q.2) ∨
      (Refers k ρ n x vs ∧ find? (scope ++ qs.left) n = find? scope n ∧
        find? (scope' ++ qs.right) x = find? scope' x) := by
  induction qs using List.reverseRecOn with
  | nil => exact Or.inr ⟨h, by simp [Definitions.left], by simp [Definitions.right]⟩
  | append_singleton qs q ih =>
      rw [Definitions.pairs_concat, List.cons_append] at h
      rw [Definitions.left_concat, Definitions.right_concat, ← List.append_assoc,
        ← List.append_assoc, find?_concat, find?_concat]
      rcases Refers.cons_iff.mp h with ⟨hn, hx, rfl⟩ | ⟨hn, hx, h⟩
      · exact Or.inl ⟨rfl, q, by simp, hn, hx, if_pos hn, if_pos hx⟩
      · rw [if_neg hn, if_neg hx]
        rcases ih h with ⟨hvs, o, ho, hrest⟩ | hrest
        · exact Or.inl ⟨hvs, o, by simp [ho], hrest⟩
        · exact Or.inr hrest

theorem Declared.scopesAgree {qs : Definitions}
    (hscopes : ScopesAgree lenient m k ρ scope scope')
    (h : ∀ q ∈ qs, DefinitionAgrees lenient m k ρ P scope scope' qs q) :
    ScopesAgree lenient m k (qs.pairs ++ ρ) (scope ++ qs.left) (scope' ++ qs.right) := by
  intro n x vs href
  rcases href.find?_declared with
    ⟨rfl, q, hq, -, -, hleft, hright⟩ | ⟨href, hleft, hright⟩
  · exact Or.inr ⟨q.1, q.2, hleft, hright, Or.inl rfl,
      Or.inr ⟨q.2.type?, typeFrom_nil _ _, (h q hq).types⟩⟩
  · rw [hleft, hright]
    exact hscopes n x vs href

/-- What declaring came to on the two sides, `E` being the pairs. -/
def AreDeclared (lenient : Prop) (m : Mapping) (k : Link) (ρ P : Pairs)
    (scope scope' : List AliasDefinition) (E : Pairs) (ds ds' : List AliasDefinition) : Prop :=
  ∃ qs : Definitions, ds = qs.left ∧ ds' = qs.right ∧ qs.pairs = E ∧
    Declared lenient m k ρ P scope scope' qs

theorem any_name_eq (ds : List AliasDefinition) (name : String) :
    (ds.any fun e => e.name == name) = decide (name ∈ ds.map AliasDefinition.name) := by
  rw [Bool.eq_iff_iff]
  simp only [List.any_eq_true, beq_iff_eq, decide_eq_true_eq, List.mem_map]

theorem declare_agree {qs : Definitions} {d d' : AliasDefinition}
    (h : Declared lenient m k ρ P scope scope' qs)
    (hrepeats : RepeatsAlike qs.pairs d.name d'.name)
    (hnew : DefinitionAgrees lenient m k ρ P scope scope' qs (d, d')) (s s' : Source.Span) :
    Outcome.Agree lenient ScopeError.isUnresolved
      (AreDeclared lenient m k ρ P scope scope' ((d.name, d'.name) :: qs.pairs))
      (declare qs.left d s) (declare qs.right d' s') := by
  unfold RepeatsAlike at hrepeats
  rw [Definitions.map_fst_pairs, Definitions.map_snd_pairs, List.mem_reverse,
    List.mem_reverse] at hrepeats
  unfold declare
  rw [any_name_eq, any_name_eq]
  by_cases hmem : d.name ∈ qs.left.map AliasDefinition.name
  · simp only [hmem, hrepeats.mp hmem, decide_true, if_true]
    exact Or.inr rfl
  · have hmem' : d'.name ∉ qs.right.map AliasDefinition.name := fun h => hmem (hrepeats.mpr h)
    simp only [hmem, hmem', decide_false, Bool.false_eq_true, if_false]
    refine ⟨qs ++ [(d, d')], ?_, ?_, ?_, ?_, ?_, ?_⟩
    · rw [Definitions.left_concat]
    · rw [Definitions.right_concat]
    · rw [Definitions.pairs_concat]
    · rw [Definitions.left_concat, List.map_append]
      refine List.nodup_append.mpr ⟨h.nodup, by simp, fun a ha b hb heq => ?_⟩
      rw [heq, List.mem_singleton.mp hb] at ha
      exact hmem ha
    · rw [Definitions.right_concat, List.map_append]
      refine List.nodup_append.mpr ⟨h.nodup', by simp, fun a ha b hb heq => ?_⟩
      rw [heq, List.mem_singleton.mp hb] at ha
      exact hmem' ha
    · intro q hq
      have hsub : ∀ q ∈ qs, q ∈ qs ++ [(d, d')] := fun q hq => List.mem_append_left _ hq
      rcases List.mem_append.mp hq with hq | hq
      · exact (h.agree q hq).mono hsub
      · rw [List.mem_singleton.mp hq]
        exact hnew.mono hsub

theorem declareRanges_agree {D E : Pairs} {items items' : List Phrase}
    (h : RangesCorrespond D items items' E) (qs : Definitions) (hpairs : qs.pairs = D)
    (hdeclared : Declared lenient m k ρ P scope scope' qs) :
    Outcome.Agree lenient ScopeError.isUnresolved
      (AreDeclared lenient m k ρ P scope scope' E)
      (items.foldlM (declareRange (some m.model) .subselect) qs.left)
      (items'.foldlM (declareRange (some m.model) .subselect) qs.right) := by
  induction h generalizing qs with
  | nil D => exact ⟨qs, rfl, rfl, hpairs, hdeclared⟩
  | @cons D E items items' js ks a b entity s₁ s₂ s₃ s₁' s₂' s₃' _ _ hrepeats _ ih =>
      rw [List.foldlM_cons, List.foldlM_cons]
      refine Outcome.Agree.bind
        (R := AreDeclared lenient m k ρ P scope scope' ((a, b) :: D)) ?_ ?_
      · simp only [declareRange, rangeParts?, Phrase.child?, Phrase.children, Phrase.label,
          List.getElem?_cons_zero, List.getElem?_cons_succ, Option.bind_eq_bind,
          Option.bind_some, Option.any_some]
        by_cases hentity : m.model.hasEntity entity
        · simp only [hentity, Bool.not_true, Bool.false_eq_true, if_false]
          subst hpairs
          exact declare_agree hdeclared hrepeats (DefinitionAgrees.range a b entity) _ _
        · simp only [hentity, Bool.not_false, if_true]
          exact Or.inr rfl
      · rintro ds ds' - - ⟨qs', rfl, rfl, hpairs', hdeclared'⟩
        exact ih qs' hpairs' hdeclared'

/-- The type of a reference is that behind its words, from the type of its definition. -/
theorem typeOf_name (model : TypeModel) (scope : List AliasDefinition) {t : Phrase}
    {x : String} {ws : List String} {d : AliasDefinition} {type? : Option String}
    (h : t.IsReference x ws) (hfind : find? scope x = some d)
    (htype : typeOf (some model) scope t = .ok type?) :
    typeFrom model d.type? ws = some type? := by
  have hlook := typeOf_reference model scope h
  rw [hfind, htype] at hlook
  simp only at hlook
  cases hfrom : typeFrom model d.type? ws with
  | none =>
      rw [hfrom] at hlook
      obtain ⟨e, he, -⟩ := hlook
      cases he
  | some found? =>
      rw [hfrom] at hlook
      cases hlook
      rfl

/-- Words can be followed in two parts. -/
theorem exists_typeFrom_append {model : TypeModel} {type? type'? : Option String}
    {vs ws : List String} (h : typeFrom model type? (vs ++ ws) = some type'?) :
    ∃ between?, typeFrom model type? vs = some between? ∧
      typeFrom model between? ws = some type'? := by
  rw [typeFrom_append] at h
  cases type? with
  | none => exact ⟨none, rfl, h⟩
  | some type =>
      obtain ⟨between?, hbetween, hrest⟩ := Option.bind_eq_some_iff.mp h
      refine ⟨between?, hbetween, ?_⟩
      cases between? with
      | none =>
          cases ws with
          | nil => exact hrest
          | cons => cases hrest
      | some between => exact hrest

theorem originates_of_typeOf {qs : Definitions} {p q : Phrase} {n x : String}
    {ws vs : List String} (hscopes : ScopesAgree lenient m k ρ scope scope')
    (hagree : ∀ o ∈ qs, TypesAgree lenient m o.1.type? o.2.type?) (hp : p.IsReference n ws)
    (hq : q.IsReference x (vs ++ ws)) (href : Refers k (qs.pairs ++ ρ) n x vs)
    {type? type'? : Option String}
    (htype : typeOf (some m.model) (scope ++ qs.left) p = .ok type?)
    (htype' : typeOf (some m.model) (scope' ++ qs.right) q = .ok type'?) :
    Originates lenient m k ρ scope scope' qs n x ws vs type? type'? := by
  rcases href.find?_declared with
    ⟨rfl, o, ho, hn, hx, hleft, hright⟩ | ⟨href, hleft, hright⟩
  · exact ⟨o.1.type?, o.2.type?, Origin.declared ho hn hx, hagree o ho,
      typeOf_name m.model _ hp hleft htype, typeOf_name m.model _ hq hright htype'⟩
  · rcases hscopes n x vs href with ⟨-, hn, -⟩ | ⟨d, d', hd, hd', -, hroots⟩
    · have hlook := typeOf_reference m.model (scope ++ qs.left) hp
      rw [hleft, hn, htype] at hlook
      obtain ⟨e, he, -⟩ := hlook
      cases he
    · have h := typeOf_name m.model _ hp (hleft.trans hd) htype
      have h' := typeOf_name m.model _ hq (hright.trans hd') htype'
      obtain ⟨between?, hbetween, hrest⟩ := exists_typeFrom_append h'
      rcases hroots with ⟨hnone, -⟩ | ⟨found?, hfound, htypes⟩
      · cases hnone.symm.trans hbetween
      · obtain rfl := Option.some.inj (hfound.symm.trans hbetween)
        exact ⟨d.type?, found?, Origin.around href hd hd' hfound, htypes, h, hrest⟩

theorem declareJoins_agree {D E : Pairs} {js ks : List Phrase}
    (hscopes : ScopesAgree lenient m k ρ scope scope')
    (h : JoinsCorrespond k ρ P D js ks E) (qs : Definitions) (hpairs : qs.pairs = D)
    (hdeclared : Declared lenient m k ρ P scope scope' qs) :
    Outcome.Agree lenient ScopeError.isUnresolved
      (AreDeclared lenient m k ρ P scope scope' E)
      (js.foldlM (declareJoin (some m.model) scope) qs.left)
      (ks.foldlM (declareJoin (some m.model) scope') qs.right) := by
  induction h generalizing qs with
  | nil D => exact ⟨qs, rfl, rfl, hpairs, hdeclared⟩
  | @bare D E p q js ks n x ws vs outer fetch s s' hp hq href _ ih =>
      subst hpairs
      have hinner := Declared.scopesAgree hscopes hdeclared.agree
      rw [List.foldlM_cons, List.foldlM_cons]
      refine Outcome.Agree.bind
        (R := AreDeclared lenient m k ρ P scope scope' qs.pairs) ?_ ?_
      · simp only [declareJoin, Phrase.label, Phrase.child?, Phrase.children,
          List.getElem?_cons_zero, List.getElem?_cons_succ, List.getElem?_nil]
        refine Outcome.Agree.bind (typeOf_agree hinner hp hq href) fun _ _ _ _ _ => ?_
        exact ⟨qs, rfl, rfl, rfl, hdeclared⟩
      · rintro ds ds' - - ⟨qs', rfl, rfl, hpairs', hdeclared'⟩
        exact ih qs' hpairs' hdeclared'
  | @named D E p q js ks n x a b ws vs outer fetch s s' r r' hp hq href href' _ _ hrepeats _ ih =>
      subst hpairs
      have hinner := Declared.scopesAgree hscopes hdeclared.agree
      rw [List.foldlM_cons, List.foldlM_cons]
      refine Outcome.Agree.bind
        (R := AreDeclared lenient m k ρ P scope scope' ((a, b) :: qs.pairs)) ?_ ?_
      · simp only [declareJoin, Phrase.label, Phrase.child?, Phrase.children,
          List.getElem?_cons_zero, List.getElem?_cons_succ, Phrase.identifier?]
        refine Outcome.Agree.bind (typeOf_agree hinner hp hq href)
          fun type? type'? htype htype' htypes => ?_
        have horigin := originates_of_typeOf hscopes (fun o ho => (hdeclared.agree o ho).types)
          hp hq href htype htype'
        have hjoin : JoinAgrees lenient m k ρ P scope scope' qs
            ⟨a, type?, p.dotted?, !outer, fetch⟩ ⟨b, type'?, q.dotted?, !outer, fetch⟩
            n x ws vs :=
          ⟨hp.dotted?_eq, hq.dotted?_eq, hp.parts, hq.parts, href', rfl, htypes, horigin⟩
        exact declare_agree hdeclared hrepeats (DefinitionAgrees.join hjoin) _ _
      · rintro ds ds' - - ⟨qs', rfl, rfl, hpairs', hdeclared'⟩
        exact ih qs' hpairs' hdeclared'

end Declarations

/-! ## Phrases -/

namespace Query.Scope

/-- The declarations of a subselect are those of its from clause. -/
theorem declarations_subselect (model? : Option TypeModel) (outer : List AliasDefinition)
    (distinct : Bool) (cs items rest : List Phrase) (s₁ s₂ s₃ : Source.Span) :
    declarations model? .subselect outer (.node .subselect
      (.node (.selectClause distinct) cs s₁ :: .node .fromClause items s₂ :: rest) s₃) =
    items.foldlM (declareRange model? .subselect) [] >>= fun declared =>
      (joinsOf items).foldlM (declareJoin model? outer) declared := rfl

theorem declaresOnly_of_isFinalClause {l : Label} (h : l.isFinalClause) :
    declaresOnly l = false := by
  cases l <;> first | rfl | cases h

theorem checkClauses_final (model? : Option TypeModel) (scope : List AliasDefinition)
    {rest : List Phrase} (hfinal : ∀ t ∈ rest, t.label.isFinalClause) :
    checkClauses model? scope rest = checkAll model? scope rest := by
  induction rest with
  | nil => rfl
  | cons t rest ih =>
      have hdeclares := declaresOnly_of_isFinalClause (hfinal t (by simp))
      rw [checkClauses, checkAll, ih fun u hu => hfinal u (List.mem_cons_of_mem t hu)]
      simp [hdeclares]

/-- The clauses of a subselect are checked but for the from clause. -/
theorem checkClauses_subselect (model? : Option TypeModel) (scope : List AliasDefinition)
    (distinct : Bool) (cs items : List Phrase) {rest : List Phrase} (s₁ s₂ : Source.Span)
    (hfinal : ∀ t ∈ rest, t.label.isFinalClause) :
    checkClauses model? scope
      (.node (.selectClause distinct) cs s₁ :: .node .fromClause items s₂ :: rest) =
    checkAll model? scope cs >>= fun first =>
      checkAll model? scope rest >>= fun others => pure (first ++ others) := by
  rw [checkClauses, checkClauses, checkClauses_final model? scope hfinal]
  simp only [Phrase.label, declaresOnly, Bool.false_eq_true, if_false, if_true, check]
  cases checkAll model? scope cs with
  | error e => rfl
  | ok first => cases checkAll model? scope rest <;> rfl

end Query.Scope

theorem AllCorrespond.isFinalClause {k : Link} {i j : Nat} {ρ : Pairs} {ts us : List Phrase}
    (h : AllCorrespond k i j ρ ts us) (hfinal : ∀ t ∈ ts, t.label.isFinalClause) :
    ∀ u ∈ us, u.label.isFinalClause := by
  induction ts generalizing us with
  | nil => cases h; simp
  | cons t ts ih =>
      cases h with
      | @cons _ _ _ _ u _ us hfirst hrest =>
          have ht : t.label.isFinalClause := hfinal t (by simp)
          have hcompound : t.label.isCompound ∧ t.label ≠ .isIn := by
            generalize t.label = l at ht
            cases l <;> first | decide | cases ht
          intro v hv
          rcases List.mem_cons.mp hv with rfl | hv
          · rw [← (hfirst.children hcompound.1 hcompound.2).1]
            exact ht
          · exact ih hrest (fun w hw => hfinal w (List.mem_cons_of_mem t hw)) v hv

section Checking

variable {lenient : Prop} {m : Mapping} {k : Link}

/-- Both sides declare the same, the second under the paired names. -/
theorem declarations_agree {ρ D P : Pairs} {scope scope' : List AliasDefinition}
    {items items' : List Phrase} (hscopes : ScopesAgree lenient m k ρ scope scope')
    (hranges : RangesCorrespond [] items items' D)
    (hjoins : JoinsCorrespond k ρ P D (joinsOf items) (joinsOf items') P) :
    Outcome.Agree lenient ScopeError.isUnresolved
      (AreDeclared lenient m k ρ P scope scope' P)
      (items.foldlM (declareRange (some m.model) .subselect) [] >>= fun declared =>
        (joinsOf items).foldlM (declareJoin (some m.model) scope) declared)
      (items'.foldlM (declareRange (some m.model) .subselect) [] >>= fun declared =>
        (joinsOf items').foldlM (declareJoin (some m.model) scope') declared) := by
  have hnone : Declared lenient m k ρ P scope scope' [] := by
    refine ⟨?_, ?_, ?_⟩ <;> simp [Definitions.left, Definitions.right]
  refine Outcome.Agree.bind (declareRanges_agree hranges [] rfl hnone) ?_
  rintro ds ds' - - ⟨qs, rfl, rfl, hpairs, hdeclared⟩
  exact declareJoins_agree hscopes hjoins qs hpairs hdeclared

mutual

/-- Corresponding phrases are checked alike in agreeing scopes. -/
theorem Corresponds.check_agree {i j : Nat} {ρ : Pairs} {t u : Phrase} {scope scope' : List AliasDefinition}
    (hscopes : ScopesAgree lenient m k ρ scope scope') : Corresponds k i j ρ t u →
    Outcome.Agree lenient ScopeError.isUnresolved (fun _ _ => True)
      (check (some m.model) scope t) (check (some m.model) scope' u)
  | .reference ht hu href => by
      rw [check_reference _ _ ht, check_reference _ _ hu]
      have h := typeOf_agree hscopes ht hu href
      revert h
      cases typeOf (some m.model) scope t <;> cases typeOf (some m.model) scope' u
      · exact id
      · exact id
      · exact id
      · exact fun _ => trivial
  | .leaf s s' hl hm _ => by
      rw [check_leaf _ _ hl, check_leaf _ _ hm]
      trivial
  | .roles s s' r h _ _ => by
      rw [check_compound _ _ rfl, check_compound _ _ rfl]
      simp only [checkAll, checkAll_names]
      exact Outcome.Agree.bind (h.check_agree hscopes) fun _ _ _ _ _ => trivial
  | .subselect distinct s₁ s₂ s₃ s₁' s₂' s₃' hranges hjoins hselect hrest hfinal _ => by
      simp only [check]
      rw [declarations_subselect, declarations_subselect]
      refine Outcome.Agree.bind (declarations_agree hscopes hranges hjoins) ?_
      rintro ds ds' - - ⟨qs, rfl, rfl, hpairs, hdeclared⟩
      have hinner := Declared.scopesAgree hscopes hdeclared.agree
      rw [hpairs] at hinner
      rw [checkClauses_subselect _ _ _ _ _ _ _ hfinal,
        checkClauses_subselect _ _ _ _ _ _ _ (hrest.isFinalClause hfinal)]
      have hclauses := hselect.checkAll_agree hinner
      have hfinals := hrest.checkAll_agree hinner
      refine Outcome.Agree.bind (R := fun _ _ => True) ?_ fun _ _ _ _ _ => trivial
      refine Outcome.Agree.bind hclauses fun _ _ _ _ _ => ?_
      exact Outcome.Agree.bind hfinals fun _ _ _ _ _ => trivial
  | .compound s s' hcompound h => by
      rw [check_compound _ _ hcompound, check_compound _ _ hcompound]
      exact h.checkAll_agree hscopes

theorem AllCorrespond.checkAll_agree {i j : Nat} {ρ : Pairs} {ts us : List Phrase}
    {scope scope' : List AliasDefinition} (hscopes : ScopesAgree lenient m k ρ scope scope') :
    AllCorrespond k i j ρ ts us →
    Outcome.Agree lenient ScopeError.isUnresolved (fun _ _ => True)
      (checkAll (some m.model) scope ts) (checkAll (some m.model) scope' us)
  | .nil => trivial
  | .cons h hs => by
      rw [checkAll, checkAll]
      refine Outcome.Agree.bind (h.check_agree hscopes) fun _ _ _ _ _ => ?_
      exact Outcome.Agree.bind (hs.checkAll_agree hscopes) fun _ _ _ _ _ => trivial

end

end Checking

end RowGuard
