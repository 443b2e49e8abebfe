import RowGuard.Proofs.Derivations
import RowGuard.Proofs.Parsing

/-!
# Phrases recast

Normal forms, renamed aliases, paths put for a subject and parameters put for
the context all leave the build of a phrase as it is: only names, parameters and
from clauses are exchanged, besides brackets that nothing needs and memberships
in the roles.  What the grammar derives it therefore still derives when it has
been recast.  One thing changes: a test may turn into something that a `NOT`
must stand in front of.
-/

namespace RowGuard

open Query (Label Phrase isParameterName)
open Query.Phrase
open Query.Grammar (Category Derives)

/-- What atoms and the items of from clauses are exchanged for. -/
structure Exchange where
  atom : Phrase → Phrase → Prop
  items : List Phrase → List Phrase → Prop

/-- A reference or a phrase without operands. -/
inductive IsAtom : Phrase → Prop
  | reference {t : Phrase} {x : String} {ws : List String} : t.IsReference x ws → IsAtom t
  | leaf {l : Label} (s : Source.Span) : l.isLeaf → IsAtom (.node l [] s)

mutual

/-- The second phrase is the first one with its atoms and from clauses exchanged. -/
inductive Recast (k : Exchange) : Phrase → Phrase → Prop
  | atom {t u : Phrase} : IsAtom t → k.atom t u → Recast k t u
  | compound {l : Label} {ts us : List Phrase} (s : Source.Span) : l.isCompound →
      RecastAll k ts us → Recast k (.node l ts s) (.node l us s)
  | closed {l : Label} {ts us : List Phrase} (s : Source.Span) : l.isCompound →
      RecastAll k ts us → Recast k (.node l ts s) (Query.NormalForm.close l us s)
  | roles {t u : Phrase} {names : List String} (ds : List Phrase) (r s : Source.Span) :
      Recast k t u → names ≠ [] → (∀ name ∈ names, isParameterName name) →
        Recast k (.node .isIn [t, .node (.context .roles) ds r] s)
          (.node .isIn (u :: names.map namedParameter) s)
  | never (t : Phrase) (ds : List Phrase) (r s : Source.Span) :
      Recast k (.node .isIn [t, .node (.context .roles) ds r] s) alwaysFalse
  | subselect {cs ds items items' rest rest' : List Phrase} (distinct : Bool)
      (s₁ s₂ s₃ : Source.Span) : k.items items items' → RecastAll k cs ds →
      RecastAll k rest rest' → (∀ t ∈ rest, t.label.isFinalClause) →
        Recast k (.node .subselect (.node (.selectClause distinct) cs s₁
            :: .node .fromClause items s₂ :: rest) s₃)
          (.node .subselect (.node (.selectClause distinct) ds s₁
            :: .node .fromClause items' s₂ :: rest') s₃)

inductive RecastAll (k : Exchange) : List Phrase → List Phrase → Prop
  | nil : RecastAll k [] []
  | cons {t u : Phrase} {ts us : List Phrase} : Recast k t u → RecastAll k ts us →
      RecastAll k (t :: ts) (u :: us)

end

/-! ## Parts -/

namespace RecastAll

variable {k : Exchange} {t u v w : Phrase} {ts us vs : List Phrase}

theorem one (h : RecastAll k [t] us) : ∃ u, us = [u] ∧ Recast k t u := by
  cases h with
  | cons h hs =>
      cases hs
      exact ⟨_, rfl, h⟩

theorem two (h : RecastAll k [t, v] us) : ∃ u w, us = [u, w] ∧ Recast k t u ∧ Recast k v w := by
  cases h with
  | cons h hs =>
      obtain ⟨w, rfl, hw⟩ := hs.one
      exact ⟨_, w, rfl, h, hw⟩

theorem exists_of_mem (h : RecastAll k ts us) (hu : u ∈ us) : ∃ t ∈ ts, Recast k t u := by
  induction ts generalizing us with
  | nil =>
      cases h
      cases hu
  | cons t ts ih =>
      cases h with
      | cons h hs =>
          rcases List.mem_cons.mp hu with rfl | hu
          · exact ⟨t, by simp, h⟩
          · obtain ⟨v, hv, hrecast⟩ := ih hs hu
            exact ⟨v, List.mem_cons_of_mem t hv, hrecast⟩

theorem length_eq (h : RecastAll k ts us) : ts.length = us.length := by
  induction ts generalizing us with
  | nil =>
      cases h
      rfl
  | cons t ts ih =>
      cases h with
      | cons _ hs => simp [ih hs]

theorem append (h : RecastAll k (ts ++ vs) us) :
    ∃ us₁ us₂, us = us₁ ++ us₂ ∧ RecastAll k ts us₁ ∧ RecastAll k vs us₂ := by
  induction ts generalizing us with
  | nil => exact ⟨[], us, rfl, .nil, h⟩
  | cons t ts ih =>
      cases h with
      | cons h hs =>
          obtain ⟨us₁, us₂, rfl, hfirst, hsecond⟩ := ih hs
          exact ⟨_ :: us₁, us₂, rfl, .cons h hfirst, hsecond⟩

theorem toList {o : Option Phrase} (h : RecastAll k o.toList us) :
    ∃ p : Option Phrase, us = p.toList ∧ ∀ u ∈ p, ∃ t ∈ o, Recast k t u := by
  cases o with
  | none =>
      cases h
      exact ⟨none, rfl, by simp⟩
  | some t =>
      obtain ⟨u, rfl, hu⟩ := h.one
      refine ⟨some u, rfl, ?_⟩
      rintro v ⟨⟩
      exact ⟨t, rfl, hu⟩

end RecastAll

/-- Labels whose phrases are recast child by child and in no other way. -/
def Query.Label.isRigid (l : Label) : Bool :=
  l.isCompound && match l with
    | .and | .or | .brackets | .isIn => false
    | _ => true

theorem isLeaf_of_isCompound {l : Label} (h : l.isCompound) : l.isLeaf = false := by
  cases l <;> first | rfl | cases h

namespace Recast

variable {k : Exchange} {l : Label} {t u : Phrase} {ts : List Phrase} {s : Source.Span}

theorem not_isAtom_of_isCompound (hl : l.isCompound) : ¬IsAtom (.node l ts s) := by
  rintro (h | ⟨_, hleaf⟩)
  · cases h <;> cases hl
  · rw [isLeaf_of_isCompound hl] at hleaf
    cases hleaf

theorem atom_of_isAtom (ht : IsAtom t) (h : Recast k t u) : k.atom t u := by
  cases h with
  | atom _ h => exact h
  | compound _ hl | closed _ hl => exact absurd ht (not_isAtom_of_isCompound hl)
  | roles | never => exact absurd ht (not_isAtom_of_isCompound rfl)
  | subselect =>
      cases ht with
      | reference h => cases h

/-- A compound phrase keeps its label, or else was a membership in the roles. -/
theorem compound_cases (hl : l.isCompound) (hroles : l ≠ .isIn) (h : Recast k (.node l ts s) u) :
    ∃ us, RecastAll k ts us ∧ (u = .node l us s ∨ u = Query.NormalForm.close l us s) := by
  cases h with
  | atom hatom _ => exact absurd hatom (not_isAtom_of_isCompound hl)
  | compound _ _ hall => exact ⟨_, hall, Or.inl rfl⟩
  | closed _ _ hall => exact ⟨_, hall, Or.inr rfl⟩
  | roles | never => exact absurd rfl hroles
  | subselect => cases hl

theorem rigid (hl : l.isRigid) (h : Recast k (.node l ts s) u) :
    ∃ us, u = .node l us s ∧ RecastAll k ts us := by
  obtain ⟨us, hall, hu⟩ :=
    h.compound_cases ((Bool.and_eq_true _ _).mp hl).1 (by rintro rfl; cases hl)
  refine ⟨us, hu.elim id fun hclosed => hclosed.trans ?_, hall⟩
  cases l <;> first | rfl | cases hl

theorem rigid_one (hl : l.isRigid) (h : Recast k (.node l [t] s) u) :
    ∃ t', u = .node l [t'] s ∧ Recast k t t' := by
  obtain ⟨us, rfl, hall⟩ := h.rigid hl
  obtain ⟨t', rfl, ht⟩ := hall.one
  exact ⟨t', rfl, ht⟩

theorem rigid_two {v : Phrase} (hl : l.isRigid) (h : Recast k (.node l [t, v] s) u) :
    ∃ t' v', u = .node l [t', v'] s ∧ Recast k t t' ∧ Recast k v v' := by
  obtain ⟨us, rfl, hall⟩ := h.rigid hl
  obtain ⟨t', v', rfl, ht, hv⟩ := hall.two
  exact ⟨t', v', rfl, ht, hv⟩

theorem rigid_three {v w : Phrase} (hl : l.isRigid) (h : Recast k (.node l [t, v, w] s) u) :
    ∃ t' v' w', u = .node l [t', v', w'] s ∧ Recast k t t' ∧ Recast k v v' ∧ Recast k w w' := by
  obtain ⟨us, rfl, hall⟩ := h.rigid hl
  cases hall with
  | cons ht hall =>
      obtain ⟨v', w', rfl, hv, hw⟩ := hall.two
      exact ⟨_, v', w', rfl, ht, hv, hw⟩

/-- At least one child, each recast as something with a property. -/
theorem rigid_cons {Q : Phrase → Prop} (hl : l.isRigid) (h : Recast k (.node l (t :: ts) s) u)
    (hQ : ∀ v ∈ t :: ts, ∀ {w}, Recast k v w → Q w) :
    ∃ t' ts', u = .node l (t' :: ts') s ∧ ∀ w ∈ t' :: ts', Q w := by
  obtain ⟨us, rfl, hall⟩ := h.rigid hl
  cases hall with
  | cons ht hts =>
      refine ⟨_, _, rfl, fun w hw => ?_⟩
      obtain ⟨v, hv, hrecast⟩ := (RecastAll.cons ht hts).exists_of_mem hw
      exact hQ v hv hrecast

/-- At least two operands of a conjunction or a disjunction, none of them one itself. -/
theorem chain {Q : Phrase → Prop} {v : Phrase} (hl : l = .and ∨ l = .or)
    (h : Recast k (.node l (t :: v :: ts) s) u)
    (hQ : ∀ w ∈ t :: v :: ts, ∀ {w'}, Recast k w w' → Q w') (hlabel : ∀ w, Q w → w.label ≠ l) :
    ∃ t' v' ts', u = .node l (t' :: v' :: ts') s ∧ ∀ w ∈ t' :: v' :: ts', Q w := by
  obtain ⟨us, hall, hu⟩ := h.compound_cases (by rcases hl with rfl | rfl <;> rfl)
    (by rcases hl with rfl | rfl <;> simp)
  have hus : ∀ w ∈ us, Q w := by
    intro w hw
    obtain ⟨w', hw', hrecast⟩ := hall.exists_of_mem hw
    exact hQ w' hw' hrecast
  have hsplice : us.flatMap (Query.NormalForm.splice l) = us := by
    have halone : ∀ w ∈ us, Query.NormalForm.splice l w = [w] :=
      fun w hw => if_neg (hlabel w (hus w hw))
    rw [List.flatMap_congr halone]
    exact List.flatMap_singleton' us
  have hnode : u = .node l us s := by
    rcases hu with rfl | rfl
    · rfl
    · rcases hl with rfl | rfl <;> rw [Query.NormalForm.close, hsplice]
  cases hall with
  | cons _ hall => cases hall with
    | cons _ _ => exact ⟨_, _, _, hnode, hus⟩

/-- The parts of a from clause are exchanged as a whole. -/
theorem not_of_from (hl : l = .fromClause ∨ l = .fromItem ∨ ∃ outer fetch, l = .join outer fetch) :
    ¬Recast k (.node l ts s) u := by
  have hcompound : l.isCompound = false := by
    rcases hl with rfl | rfl | ⟨outer, fetch, rfl⟩ <;> rfl
  intro h
  cases h with
  | atom hatom _ =>
      rcases hatom with hreference | ⟨_, hleaf⟩
      · cases hreference <;> simp at hl
      · rcases hl with rfl | rfl | ⟨outer, fetch, rfl⟩ <;> cases hleaf
  | compound _ h _ | closed _ h _ => exact Bool.false_ne_true (hcompound.symm.trans h)
  | roles | never => cases hcompound
  | subselect => simp at hl

end Recast

/-! ## Derived phrases -/

/-- The category of what a phrase may be recast as. -/
def Query.Grammar.Category.loosened : Category → Category
  | .predicate | .simple => .factor
  | c => c

/-- What a phrase of a category may be recast as, if a reference may turn into any operand.
Nothing is said of assignments, which need a reference. -/
def Query.Grammar.Category.Allows : Category → Phrase → Prop
  | .predicate, u | .simple, u => Derives .factor u
  | .reference, u => Derives .primary u
  | .assignment, _ => True
  | c, u => Derives c u

/-- What is exchanged for something derived can take its place as an operand. -/
structure Exchange.Operative (k : Exchange) : Prop where
  reference {t u : Phrase} : k.atom t u → Derives .reference t → Derives .primary u
  leaf {l : Label} {s : Source.Span} {u : Phrase} : k.atom (.node l [] s) u → l.isLeaf →
    Derives .primary (.node l [] s) → Derives .primary u
  items {items items' : List Phrase} (s : Source.Span) : k.items items items' →
    Derives .fromClause (.node .fromClause items s) →
      Derives .fromClause (.node .fromClause items' s)

/-- What is exchanged for something derived is derived. -/
structure Exchange.Derivable (k : Exchange) : Prop where
  reference {t u : Phrase} : k.atom t u → Derives .reference t → Derives .reference u
  leaf {l : Label} {s : Source.Span} {u : Phrase} : k.atom (.node l [] s) u → l.isLeaf →
    Derives .primary (.node l [] s) → Derives .primary u
  items {items items' : List Phrase} (s : Source.Span) : k.items items items' →
    Derives .fromClause (.node .fromClause items s) →
      Derives .fromClause (.node .fromClause items' s)

theorem Exchange.Derivable.operative {k : Exchange} (h : k.Derivable) : k.Operative where
  reference hatom ht := .reference (h.reference hatom ht)
  leaf := h.leaf
  items := h.items

namespace Query.Grammar

variable {k : Exchange} {c : Category} {t u : Phrase}

theorem isRigid_of_signature? {name : String} {f : Signature} (h : signature? name = some f) :
    f.label.isRigid := by
  unfold signature? at h
  split at h <;> cases h <;> rfl

/-- An atomic condition needs no brackets. -/
theorem Derives.primary_of_isAtomic (h : Derives .condition t) (hatomic : t.label.isAtomic) :
    Derives .primary t := by
  cases h with
  | or => cases hatomic
  | term h => cases h with
    | and => cases hatomic
    | factor h => cases h with
      | not => cases hatomic
      | simple h => cases h with
        | compare | negated | exist => cases hatomic
        | test h => cases h <;> cases hatomic
        | operand h => cases h with
          | add => cases hatomic
          | summand h => cases h with
            | multiply => cases hatomic
            | single h => cases h with
              | negative => cases hatomic
              | unsigned h => exact h

theorem derives_namedParameter {name : String} (h : isParameterName name) :
    Derives .primary (namedParameter name) :=
  Derives.literal _ (show Token.Legal (.named name) from h) rfl

theorem derives_alwaysFalse : Derives .factor alwaysFalse := by
  have hone : Token.Legal (.integer "1") :=
    legal_of_munch (show Scan.munch '1' [] = (some (Token.integer "1"), 0) from rfl)
  have hzero : Token.Legal (.integer "0") :=
    legal_of_munch (show Scan.munch '0' [] = (some (Token.integer "0"), 0) from rfl)
  exact .simple (.compare .equal _ (.summand (.single (.unsigned (.literal _ hone rfl))))
    (.summand (.single (.unsigned (.literal _ hzero rfl)))))

theorem derives_sum_of_primary (h : Derives .primary t) : Derives .sum t :=
  .summand (.single (.unsigned h))

theorem derives_factor_of_sum (h : Derives .sum t) : Derives .factor t :=
  .simple (.operand h)

/-- Only what is looser than a factor is a conjunction or a disjunction. -/
theorem Derives.label_of_factor (h : Derives .factor t) : t.label ≠ .and ∧ t.label ≠ .or := by
  have hrigid : ∀ {l : Label}, l.isRigid → l ≠ .and ∧ l ≠ .or := by
    intro l hl
    constructor <;> (rintro rfl; cases hl)
  have hleaf : ∀ {l : Label}, l.isLeaf → l ≠ .and ∧ l ≠ .or := by
    intro l hl
    constructor <;> (rintro rfl; cases hl)
  cases h with
  | not => exact hrigid rfl
  | simple h => cases h with
    | compare | negated | exist => exact hrigid rfl
    | test h => cases h <;> exact ⟨by simp [Phrase.label], by simp [Phrase.label]⟩
    | operand h => cases h with
      | add => exact hrigid rfl
      | summand h => cases h with
        | multiply => exact hrigid rfl
        | single h => cases h with
          | negative => exact hrigid rfl
          | unsigned h => cases h with
            | literal _ _ hl => exact hleaf (isLeaf_of_literalLabel? hl)
            | keyword _ hl => exact hleaf (isLeaf_of_keywordLabel? hl)
            | call _ hf => exact hrigid (isRigid_of_signature? hf)
            | reference h => cases h <;> exact ⟨by simp [Phrase.label], by simp [Phrase.label]⟩
            | subselect h =>
                cases h
                exact ⟨by simp [Phrase.label], by simp [Phrase.label]⟩
            | brackets => exact ⟨by simp [Phrase.label], by simp [Phrase.label]⟩
            | aggregate | trim | trimOff => exact hrigid rfl

theorem Derives.label_of_term (h : Derives .term t) : t.label ≠ .or := by
  cases h with
  | and => simp [Phrase.label]
  | factor h => exact h.label_of_factor.2

/-- A membership is recast as one, or as a condition that never holds. -/
theorem derives_of_isIn {v : Phrase} {ts : List Phrase} {s : Source.Span}
    (hu : Recast k (.node .isIn (v :: t :: ts) s) u)
    (hv : ∀ {v'}, Recast k v v' → Derives .sum v')
    (hts : ∀ w ∈ t :: ts, ∀ {w'}, Recast k w w' → Derives .sum w') : Derives .factor u := by
  have hnode : ∀ {us : List Phrase}, RecastAll k (v :: t :: ts) us →
      Derives .factor (.node .isIn us s) := by
    intro us hall
    cases hall with
    | cons hfirst hrest =>
        have hall : ∀ w ∈ _, Derives .sum w := fun w hw => by
          obtain ⟨w', hw', hrecast⟩ := hrest.exists_of_mem hw
          exact hts w' hw' hrecast
        cases hrest with
        | @cons _ t' _ ts' _ _ =>
            by_cases hsub : ts' = [] ∧ t'.label = .subselect
            · obtain ⟨rfl, hlabel⟩ := hsub
              exact .simple (.test (.isInSubselect s (hv hfirst)
                ((hall t' (by simp)).subselect_of_sum hlabel)))
            · exact .simple (.test (.isIn s (hv hfirst) hall fun h hlabel => hsub ⟨h, hlabel⟩))
  cases hu with
  | atom hatom _ => exact absurd hatom (Recast.not_isAtom_of_isCompound rfl)
  | compound _ _ hall => exact hnode hall
  | closed _ _ hall => exact hnode hall
  | @roles _ u names _ _ _ hfirst hne hnames =>
      obtain ⟨name, names, rfl⟩ := List.exists_cons_of_ne_nil hne
      refine .simple (.test (.isIn s (hv hfirst) (fun w hw => ?_) fun _ => by
        simp [namedParameter, build, Phrase.label]))
      obtain ⟨other, hother, rfl⟩ := List.mem_map.mp (List.map_cons ▸ hw)
      exact derives_sum_of_primary (derives_namedParameter (hnames other hother))
  | never => exact derives_alwaysFalse

/-- Clauses that may be missing are recast one by one. -/
theorem exists_recast_optional {Q : Phrase → Prop} {o : Option Phrase} {us : List Phrase}
    (h : RecastAll k o.toList us) (hPQ : ∀ t ∈ o, ∀ u, Recast k t u → Q u) :
    ∃ p : Option Phrase, us = p.toList ∧ ∀ u ∈ p, Q u := by
  obtain ⟨p, rfl, hp⟩ := h.toList
  refine ⟨p, rfl, fun u hu => ?_⟩
  obtain ⟨t, ht, hrecast⟩ := hp u hu
  exact hPQ t ht u hrecast

/-- What the grammar derives it still derives when it has been recast, operands standing for
references. -/
theorem Derives.allows (hk : k.Operative) (h : Derives c t) :
    ∀ {u : Phrase}, Recast k t u → c.Allows u := by
  induction h with
  | name s hx =>
      intro u hu
      have hname := Derives.name s hx
      exact hk.reference (hu.atom_of_isAtom (.reference (.name s (isWord_of_isVariable hx)))) hname
  | path r s hx hsegments hnames =>
      intro u hu
      have hpath := Derives.path r s hx hsegments hnames
      have href := IsReference.path r s (isWord_of_isVariable hx) hsegments
      exact hk.reference (hu.atom_of_isAtom (.reference href)) hpath
  | literal s hlegal hl =>
      intro u hu
      have hleaf := isLeaf_of_literalLabel? hl
      exact hk.leaf (hu.atom_of_isAtom (.leaf s hleaf)) hleaf (.literal s hlegal hl)
  | keyword s hl =>
      intro u hu
      have hleaf := isLeaf_of_keywordLabel? hl
      exact hk.leaf (hu.atom_of_isAtom (.leaf s hleaf)) hleaf (.keyword s hl)
  | reference _ ih => exact fun hu => ih hu
  | subselect _ ih => exact fun hu => .subselect (ih hu)
  | brackets s _ ih =>
      intro u hu
      obtain ⟨us, hall, hcases⟩ := hu.compound_cases rfl (by simp)
      obtain ⟨v, rfl, hv⟩ := hall.one
      have hinner := ih hv
      rcases hcases with rfl | rfl
      · exact .brackets s hinner
      · rw [Query.NormalForm.close]
        split
        · exact hinner.primary_of_isAtomic ‹_›
        · exact .brackets s hinner
  | call s hf hadmits _ ih =>
      intro u hu
      obtain ⟨us, rfl, hall⟩ := hu.rigid (isRigid_of_signature? hf)
      refine .call s hf (hall.length_eq ▸ hadmits) fun v hv => ?_
      obtain ⟨t, ht, hrecast⟩ := hall.exists_of_mem hv
      exact ih t ht hrecast
  | aggregate f distinct s _ ih =>
      intro u hu
      obtain ⟨v, rfl, hv⟩ := hu.rigid_one rfl
      exact .aggregate f distinct s (ih hv)
  | trim side s _ ih =>
      intro u hu
      obtain ⟨v, rfl, hv⟩ := hu.rigid_one rfl
      exact .trim side s (ih hv)
  | trimOff side s _ _ ih₁ ih₂ =>
      intro u hu
      obtain ⟨v, w, rfl, hv, hw⟩ := hu.rigid_two rfl
      exact .trimOff side s (ih₁ hv) (ih₂ hw)
  | unsigned _ ih => exact fun hu => .unsigned (ih hu)
  | negative s _ ih =>
      intro u hu
      obtain ⟨v, rfl, hv⟩ := hu.rigid_one rfl
      exact .negative s (ih hv)
  | single _ ih => exact fun hu => .single (ih hu)
  | multiply s hop _ _ ih₁ ih₂ =>
      intro u hu
      obtain ⟨v, w, rfl, hv, hw⟩ := hu.rigid_two rfl
      exact .multiply s hop (ih₁ hv) (ih₂ hw)
  | summand _ ih => exact fun hu => .summand (ih hu)
  | add s hop _ _ ih₁ ih₂ =>
      intro u hu
      obtain ⟨v, w, rfl, hv, hw⟩ := hu.rigid_two rfl
      exact .add s hop (ih₁ hv) (ih₂ hw)
  | between s _ _ _ ih₁ ih₂ ih₃ =>
      intro u hu
      obtain ⟨v, l, r, rfl, hv, hl, hr⟩ := hu.rigid_three rfl
      exact .simple (.test (.between s (ih₁ hv) (ih₂ hl) (ih₃ hr)))
  | isIn s _ _ _ ihv ih =>
      exact fun hu => derives_of_isIn hu (fun h => ihv h) fun t ht _ h => ih t ht h
  | isInSubselect s _ _ ihv ih =>
      refine fun hu => derives_of_isIn hu (fun h => ihv h) fun t ht _ h => ?_
      rw [List.mem_singleton.mp ht] at h
      exact derives_sum_of_primary (.subselect (ih h))
  | like s _ _ ih₁ ih₂ =>
      intro u hu
      obtain ⟨v, p, rfl, hv, hp⟩ := hu.rigid_two rfl
      exact .simple (.test (.like s (ih₁ hv) (ih₂ hp)))
  | likeEscape s _ _ _ ih₁ ih₂ ih₃ =>
      intro u hu
      obtain ⟨v, p, e, rfl, hv, hp, he⟩ := hu.rigid_three rfl
      exact .simple (.test (.likeEscape s (ih₁ hv) (ih₂ hp) (ih₃ he)))
  | isNull s _ ih =>
      intro u hu
      obtain ⟨v, rfl, hv⟩ := hu.rigid_one rfl
      exact .simple (.test (.isNull s (ih hv)))
  | isEmpty s _ ih =>
      intro u hu
      obtain ⟨v, rfl, hv⟩ := hu.rigid_one rfl
      exact .simple (.test (.isEmpty s (ih hv)))
  | memberOf s _ _ ih₁ ih₂ =>
      intro u hu
      obtain ⟨v, w, rfl, hv, hw⟩ := hu.rigid_two rfl
      exact .simple (.test (.memberOf s (ih₁ hv) (ih₂ hw)))
  | operand _ ih => exact fun hu => .simple (.operand (ih hu))
  | compare op s _ _ ih₁ ih₂ =>
      intro u hu
      obtain ⟨v, w, rfl, hv, hw⟩ := hu.rigid_two rfl
      exact .simple (.compare op s (ih₁ hv) (ih₂ hw))
  | test _ ih => exact fun hu => ih hu
  | negated s _ ih =>
      intro u hu
      obtain ⟨v, rfl, hv⟩ := hu.rigid_one rfl
      exact .not s (ih hv)
  | exist s _ ih =>
      intro u hu
      obtain ⟨v, rfl, hv⟩ := hu.rigid_one rfl
      exact .simple (.exist s (ih hv))
  | simple _ ih => exact fun hu => ih hu
  | not s _ ih =>
      intro u hu
      obtain ⟨v, rfl, hv⟩ := hu.rigid_one rfl
      exact .not s (ih hv)
  | factor _ ih => exact fun hu => .factor (ih hu)
  | and s _ ih =>
      intro u hu
      obtain ⟨v, w, us, rfl, hall⟩ := hu.chain (Or.inl rfl) (fun t ht _ h => ih t ht h)
        fun v hv => hv.label_of_factor.1
      exact .and s hall
  | term _ ih => exact fun hu => .term (ih hu)
  | or s _ ih =>
      intro u hu
      obtain ⟨v, w, us, rfl, hall⟩ := hu.chain (Or.inr rfl) (fun t ht _ h => ih t ht h)
        fun v hv => hv.label_of_term
      exact .or s hall
  | item _ ih => exact fun hu => .item (ih hu)
  | newObject s hnames _ ih =>
      intro u hu
      obtain ⟨t', ts', rfl, hall⟩ := hu.rigid_cons rfl fun v hv _ h => ih v hv h
      exact .newObject s hnames hall
  | selectClause distinct s _ ih =>
      intro u hu
      obtain ⟨t', ts', rfl, hall⟩ := hu.rigid_cons rfl fun v hv _ h => ih v hv h
      exact .selectClause distinct s hall
  | join | joinNamed => exact fun hu => absurd hu (Recast.not_of_from (by simp))
  | fromItem | fromClause => exact fun hu => absurd hu (Recast.not_of_from (by simp))
  | whereClause s _ ih =>
      intro u hu
      obtain ⟨v, rfl, hv⟩ := hu.rigid_one rfl
      exact .whereClause s (ih hv)
  | groupByClause s _ ih =>
      intro u hu
      obtain ⟨t', ts', rfl, hall⟩ := hu.rigid_cons rfl fun v hv _ h => ih v hv h
      exact .groupByClause s hall
  | havingClause s _ ih =>
      intro u hu
      obtain ⟨v, rfl, hv⟩ := hu.rigid_one rfl
      exact .havingClause s (ih hv)
  | query s _ hsource _ _ _ ihselect _ ihrestriction ihgrouping ihhaving =>
      intro u hu
      cases hu with
      | atom hatom _ =>
          cases hatom with
          | reference h => cases h
      | compound _ h | closed _ h => cases h
      | @subselect cs ds items items' _ rest' distinct s₁ s₂ _ hitems hcs hrest _ =>
          obtain ⟨us₁, us₂, rfl, hrest, hhaving⟩ := hrest.append
          obtain ⟨us₁, us₃, rfl, hrestriction, hgrouping⟩ := hrest.append
          obtain ⟨r, rfl, hr⟩ := exists_recast_optional hrestriction fun t ht _ h =>
            ihrestriction t ht h
          obtain ⟨g, rfl, hg⟩ := exists_recast_optional hgrouping fun t ht _ h => ihgrouping t ht h
          obtain ⟨o, rfl, ho⟩ := exists_recast_optional hhaving fun t ht _ h => ihhaving t ht h
          exact .query s (ihselect (.compound s₁ rfl hcs)) (hk.items s₂ hitems hsource) hr hg ho
  | orderByItem descending s _ ih =>
      intro u hu
      obtain ⟨v, rfl, hv⟩ := hu.rigid_one rfl
      exact .orderByItem descending s (ih hv)
  | orderByClause s _ ih =>
      intro u hu
      obtain ⟨t', ts', rfl, hall⟩ := hu.rigid_cons rfl fun v hv _ h => ih v hv h
      exact .orderByClause s hall
  | assignment => exact fun _ => trivial

/-- Where references stay references, an assignment stays one as well. -/
theorem Derives.recast (hk : k.Derivable) (h : Derives c t) :
    ∀ {u : Phrase}, Recast k t u → Derives c.loosened u := by
  intro u hu
  have hreference : ∀ {t u : Phrase}, Derives .reference t → Recast k t u →
      Derives .reference u := by
    intro t u ht hu
    obtain ⟨x, ws, href⟩ := ht.shapes
    exact hk.reference (hu.atom_of_isAtom (.reference href)) ht
  cases c with
  | reference => exact hreference h hu
  | assignment =>
      cases h with
      | assignment s htarget hvalue =>
          obtain ⟨v, w, rfl, hv, hw⟩ := hu.rigid_two rfl
          exact .assignment s (hreference htarget hv) (hvalue.allows hk.operative hw)
  | _ => exact h.allows hk.operative hu

end Query.Grammar

/-! ## Normal forms -/

/-- Nothing is exchanged. -/
def Exchange.none : Exchange where
  atom t u := u = t
  items is js := js = is

theorem derivable_none : Exchange.none.Derivable where
  reference h ht := h ▸ ht
  leaf h _ ht := h ▸ ht
  items _ h hs := h ▸ hs

namespace Query.Phrase

theorem normalizeAll_eq_map (ts : List Phrase) : normalizeAll ts = ts.map normalize := by
  induction ts with
  | nil => rfl
  | cons t ts ih => rw [normalizeAll, ih, List.map_cons]

theorem IsJoin.normalize_eq {j : Phrase} (h : j.IsJoin) : j.normalize = j := by
  cases h with
  | bare _ _ _ hp => simp [normalize, normalizeAll, Query.NormalForm.close, hp.normalize_eq]
  | named _ _ _ _ hp _ => simp [normalize, normalizeAll, Query.NormalForm.close, hp.normalize_eq]

theorem normalizeAll_items {items : List Phrase} (hitems : ∀ r ∈ items, r.IsRange)
    (hjoins : ∀ j ∈ joinsOf items, j.IsJoin) : normalizeAll items = items := by
  refine normalizeAll_eq_self fun r hr => ?_
  have hjoin : ∀ j ∈ r.children.drop 2, j.normalize = j := fun j hj =>
    (hjoins j (List.mem_flatMap.mpr ⟨r, hr, hj⟩)).normalize_eq
  obtain ⟨a, entity, js, s₁, s₂, s₃, -⟩ := hitems r hr
  have hjs : normalizeAll js = js := normalizeAll_eq_self hjoin
  simp [normalize, normalizeAll, Query.NormalForm.close, hjs]

theorem recastAll_of_forall {k : Exchange} {f : Phrase → Phrase} {ts : List Phrase}
    (h : ∀ t ∈ ts, Recast k t (f t)) : RecastAll k ts (ts.map f) := by
  induction ts with
  | nil => exact .nil
  | cons t ts ih =>
      obtain ⟨ht, hts⟩ := List.forall_mem_cons.mp h
      exact .cons ht (ih hts)

/-- Its normal form is a phrase recast. -/
theorem Within.recast_normalize {P : String → Prop} {t : Phrase} (h : Within P t) :
    Recast Exchange.none t t.normalize := by
  induction h with
  | reference ht _ => exact .atom (.reference ht) ht.normalize_eq
  | leaf s hl => exact .atom (.leaf s hl) (normalize_leaf _ s)
  | @subselect P cs items rest distinct s₁ s₂ s₃ hitems hjoins _ _ hfinal hselect hrest =>
      have hsame := normalizeAll_items hitems (Query.Grammar.isJoin_of_joinsWithin hjoins)
      simp only [Phrase.normalize, normalizeAll, Query.NormalForm.close, hsame]
      rw [normalizeAll_eq_map, normalizeAll_eq_map]
      exact .subselect distinct s₁ s₂ s₃ rfl (recastAll_of_forall hselect)
        (recastAll_of_forall hrest) hfinal
  | compound s hcompound _ ih =>
      rw [Phrase.normalize, normalizeAll_eq_map]
      exact .closed s hcompound (recastAll_of_forall ih)

end Query.Phrase

end RowGuard
