import RowGuard.Proofs.Binders
import RowGuard.Proofs.Delegations
import RowGuard.Proofs.Lookups
import RowGuard.Proofs.NormalForms
import RowGuard.Proofs.Restatements

/-!
# Closed subselects

What a subselect takes from around it becomes a parameter before the store sees
it.  Names, paths and leaves give way to parameters and everything else stays, so
closing only recasts the subselect.  Joins cannot give way: a join that starts
outside is refused.  But that a join starts inside is judged by all aliases of its
from clause, those included that are declared behind it.  Where no join starts at
such an alias, a closed subselect has no free names.
-/

namespace RowGuard

open Query (Label Phrase isName isParameterName)
open Query.Phrase
open Query.NormalForm (IsTight)
open Query.Grammar (Derives LegalNames isVariable)

/-! ## Names of parameters -/

/-- A name without a dollar sign can name a parameter. -/
theorem isParameterName_of_isName {w : String} (h : isName w) (hdollar : '$' ∉ w.toList) :
    isParameterName w := by
  obtain ⟨hhead, hall⟩ := (Bool.and_eq_true _ _).mp h
  have hletter : ∀ c ∈ w.toList, Query.Scan.isWordStart c → Query.Scan.isLetter c := by
    intro c hc hstart
    rcases (Bool.or_eq_true _ _).mp hstart with hletter | heq
    · exact hletter
    · exact absurd (of_decide_eq_true heq ▸ hc) hdollar
  refine (Bool.and_eq_true _ _).mpr ⟨?_, List.all_eq_true.mpr fun c hc => ?_⟩
  · obtain ⟨c, hc, hstart⟩ := (Option.any_eq_true _ _).mp hhead
    exact (Option.any_eq_true _ _).mpr ⟨c, hc, hletter c (List.mem_of_head? hc) hstart⟩
  · rcases (Bool.or_eq_true _ _).mp (List.all_eq_true.mp hall c hc) with hstart | hdigit
    · exact (Bool.or_eq_true _ _).mpr (Or.inl (hletter c hc hstart))
    · exact (Bool.or_eq_true _ _).mpr (Or.inr hdigit)

theorem isName_suffixed {base : String} (h : isName base) (taken : List String) :
    isName (Text.Fresh.suffixed base taken) := by
  obtain ⟨i, -, -, heq⟩ := Text.Fresh.exists_suffixed base taken
  rw [heq]
  split
  · exact h
  · exact isName_indexed h i

/-- A name behind a name. -/
theorem isName_append {v w : String} (hv : isName v) (hw : isName w) : isName (v ++ w) := by
  obtain ⟨hhead, hall⟩ := (Bool.and_eq_true _ _).mp hv
  obtain ⟨-, hmore⟩ := (Bool.and_eq_true _ _).mp hw
  refine (Bool.and_eq_true _ _).mpr ⟨?_, ?_⟩
  · obtain ⟨c, hc, hstart⟩ := (Option.any_eq_true _ _).mp hhead
    rw [String.toList_append, List.head?_append, hc]
    exact hstart
  · rw [String.toList_append, List.all_append, hall, hmore, Bool.and_self]

/-! ## Parameters for what comes from outside -/

/-- Operands are exchanged for parameters with one of some names. -/
def Exchange.closing (names : List String) : Exchange where
  atom t u := u = t ∨ ∃ name ∈ names, isName name ∧ u = namedParameter name
  items is js := js = is

theorem derives_closing {names : List String} (hnames : ∀ name ∈ names, '$' ∉ name.toList)
    {t u : Phrase} (h : (Exchange.closing names).atom t u) (ht : Derives .primary t) :
    Derives .primary u := by
  rcases h with rfl | ⟨name, hmem, hname, rfl⟩
  · exact ht
  · exact Query.Grammar.derives_namedParameter
      (isParameterName_of_isName hname (hnames name hmem))

/-- The grammar has the parameters for operands, unless there is a dollar sign in their names. -/
theorem operative_closing {names : List String} (hnames : ∀ name ∈ names, '$' ∉ name.toList) :
    (Exchange.closing names).Operative where
  reference h ht := derives_closing hnames h (.reference ht)
  leaf h _ ht := derives_closing hnames h ht
  items _ h hs := h ▸ hs

namespace Delegation

/-! ## Joins in order -/

mutual

/-- Whether no join starts at an alias that only its own from clause declares, and only behind
it.  `around` are the aliases declared around the phrase. -/
def joinsInOrder (around : List String) : Phrase → Bool
  | .node .subselect cs s =>
      let t := Phrase.node .subselect cs s
      joinsStart (fun n => around.contains n || !t.declaredAliases.contains n)
          (rangeAliases (fromItems t)) (joinsOf (fromItems t)) &&
        joinsInOrderAll (around ++ t.declaredAliases) cs
  | .node .fromClause _ _ => true
  | .node _ cs _ => joinsInOrderAll around cs

def joinsInOrderAll (around : List String) : List Phrase → Bool
  | [] => true
  | t :: ts => joinsInOrder around t && joinsInOrderAll around ts

end

variable {around : List String} {ts : List Phrase} {s : Source.Span}

theorem joinsInOrderAll_iff : joinsInOrderAll around ts ↔ ∀ t ∈ ts, joinsInOrder around t := by
  induction ts with
  | nil => simp [joinsInOrderAll]
  | cons t ts ih => rw [joinsInOrderAll, Bool.and_eq_true, ih, List.forall_mem_cons]

theorem joinsInOrder_compound {l : Label} (hl : l.isCompound) :
    joinsInOrder around (.node l ts s) ↔ ∀ t ∈ ts, joinsInOrder around t := by
  rw [← joinsInOrderAll_iff]
  cases l <;> first | exact Iff.rfl | cases hl

theorem joinsInOrder_nil (l : Label) : joinsInOrder around (.node l [] s) := by
  cases l <;> rfl

theorem joinsInOrder_reference {t : Phrase} {n : String} {ws : List String}
    (h : t.IsReference n ws) : joinsInOrder around t := by
  have hsegments : ∀ {segments : List Phrase} {ws : List String}, AreSegments segments ws →
      joinsInOrderAll around segments := by
    intro segments ws h
    induction h with
    | nil => rfl
    | cons s _ _ ih => simpa [joinsInOrderAll, joinsInOrder] using ih
  cases h with
  | name s _ => rfl
  | path r s _ h => simpa [joinsInOrder, joinsInOrderAll] using hsegments h

theorem joinsInOrder_subselect {distinct : Bool} {cs items rest : List Phrase}
    {s₁ s₂ s₃ : Source.Span} :
    joinsInOrder around (.node .subselect (.node (.selectClause distinct) cs s₁
        :: .node .fromClause items s₂ :: rest) s₃) ↔
      joinsStart (fun n => around.contains n || !(itemAliases items).contains n)
          (rangeAliases items) (joinsOf items) ∧
        (∀ t ∈ cs, joinsInOrder (around ++ itemAliases items) t) ∧
          ∀ t ∈ rest, joinsInOrder (around ++ itemAliases items) t := by
  have hselect : joinsInOrder (around ++ itemAliases items)
      (.node (.selectClause distinct) cs s₁) ↔ _ := joinsInOrder_compound rfl
  have hsource : joinsInOrder (around ++ itemAliases items) (.node .fromClause items s₂) := rfl
  rw [joinsInOrder, declaredAliases_subselect, Bool.and_eq_true, joinsInOrderAll_iff,
    List.forall_mem_cons, List.forall_mem_cons]
  exact and_congr_right fun _ => and_congr hselect (and_iff_right hsource)

/-- Joins whose starts are all names of a kind. -/
theorem joinsWithin_of_starts {P : String → Prop} {js : List Phrase} (hjs : ∀ j ∈ js, j.IsJoin)
    (h : ∀ j ∈ js, ∀ n ∈ (j.child? 0).bind rootAlias?, P n) (before : List String) :
    JoinsWithin P before js := by
  induction js generalizing before with
  | nil => exact .nil before
  | cons j js ih =>
      obtain ⟨hj, hjs⟩ := List.forall_mem_cons.mp hjs
      obtain ⟨hroot, hroots⟩ := List.forall_mem_cons.mp h
      have hrest := ih hjs hroots
      cases hj with
      | bare outer fetch s hp =>
          exact .bare outer fetch s hp (Or.inr (hroot _ hp.rootAlias?_eq)) (hrest _)
      | named outer fetch s r hp ha =>
          exact .named outer fetch s r hp (Or.inr (hroot _ hp.rootAlias?_eq)) ha (hrest _)

/-! ## Steps of closing -/

/-- Every name that has been made can be a word and names a parameter. -/
def State.Recorded (state : State) : Prop :=
  ∀ text name, state.made.find? text = some name → name ∈ state.parameters.names ∧ isName name

/-- A step of closing adds to the parameters and gives something with a property, whatever
parameters are added later. -/
def Closes {α : Type} (b : Closing α) (Q : List String → α → Prop) : Prop :=
  ∀ ⦃state a state'⦄, (b.run state).outcome = .ok (a, state') → state.Recorded →
    state'.Recorded ∧ state.parameters.names ⊆ state'.parameters.names ∧
      ∀ names, state'.parameters.names ⊆ names → Q names a

namespace Closes

variable {α β : Type} {b : Closing α} {Q R : List String → α → Prop}

theorem pure (a : α) : Closes (pure a) fun _ c => c = a := by
  rintro state _ _ ⟨⟩ hstate
  exact ⟨hstate, List.Subset.refl _, fun _ _ => rfl⟩

theorem fail (reason : Undecidability) : Closes (Delegation.fail reason) Q := by
  rintro state a state' ⟨⟩

theorem bind {f : α → Closing β} {S : α → List String → β → Prop} (h : Closes b Q)
    (hnext : ∀ a, Closes (f a) (S a)) :
    Closes (b >>= f) fun names c => ∃ a, Q names a ∧ S a names c := by
  intro state c final hrun hstate
  rw [StateT.run_bind, Traced.outcome_bind] at hrun
  obtain ⟨⟨a, between⟩, hfirst, hsecond⟩ := Query.Scope.ok_of_bind hrun
  obtain ⟨hbetween, hgrows, ha⟩ := h hfirst hstate
  obtain ⟨hfinal, hgrows', hc⟩ := hnext a hsecond hbetween
  exact ⟨hfinal, List.Subset.trans hgrows hgrows', fun names hnames =>
    ⟨a, ha names (List.Subset.trans hgrows' hnames), hc names hnames⟩⟩

theorem mono (h : Closes b Q) (hQR : ∀ names a, Q names a → R names a) : Closes b R := by
  intro state a state' hrun hstate
  obtain ⟨hstate', hgrows, ha⟩ := h hrun hstate
  exact ⟨hstate', hgrows, fun names hnames => hQR names a (ha names hnames)⟩

/-- A computation without parameters of its own. -/
theorem lift (x : Traced α) : Closes (StateT.lift x) fun _ _ => True := by
  intro state a state' hrun hstate
  rw [StateT.run_lift, Traced.outcome_bind] at hrun
  obtain ⟨a', -, h⟩ := Query.Scope.ok_of_bind hrun
  cases h
  exact ⟨hstate, List.Subset.refl _, fun _ _ => trivial⟩

end Closes

section Parameters

variable {t : Phrase} {base name : String} {v : Value} {state : State}

theorem run_parameter_of_made (h : state.made.find? t.render = some name) :
    (parameter t base v).run state = pure (namedParameter name, state) := by
  simp only [parameter, StateT.run_bind, StateT.run_get, pure_bind, h]
  rfl

theorem run_parameter_of_new (h : state.made.find? t.render = none)
    (hname : Text.Fresh.suffixed base state.taken = name) :
    (parameter t base v).run state = pure (namedParameter name,
      { taken := name :: state.taken
        made := state.made.bind t.render name
        parameters := state.parameters.bind name v }) := by
  simp only [parameter, StateT.run_bind, StateT.run_get, pure_bind, h, hname]
  rfl

/-- What is made for an expression is recorded with what has been made before. -/
theorem State.Recorded.bind (h : state.Recorded) (hname : isName name) (text : String) (v : Value)
    (taken : List String) : State.Recorded
      { taken, made := state.made.bind text name, parameters := state.parameters.bind name v } := by
  intro other found hfound
  by_cases hother : other = text
  · subst hother
    rw [Bindings.find?_bind_self] at hfound
    cases hfound
    exact ⟨(Bindings.mem_names_bind _ _ _).mpr (Or.inl rfl), hname⟩
  · rw [Bindings.find?_bind_of_ne _ _ hother] at hfound
    obtain ⟨hold, hlegal⟩ := h _ _ hfound
    exact ⟨(Bindings.mem_names_bind _ _ _).mpr (Or.inr hold), hlegal⟩

theorem closes_parameter (t : Phrase) (hbase : isName base) (v : Value) :
    Closes (parameter t base v) fun names u =>
      ∃ name ∈ names, isName name ∧ u = namedParameter name := by
  intro state u state' hrun hstate
  cases hmade : state.made.find? t.render with
  | some name =>
      rw [run_parameter_of_made hmade] at hrun
      cases hrun
      obtain ⟨hmem, hname⟩ := hstate _ _ hmade
      exact ⟨hstate, List.Subset.refl _, fun names hnames => ⟨name, hnames hmem, hname, rfl⟩⟩
  | none =>
      rw [run_parameter_of_new hmade rfl] at hrun
      cases hrun
      have hname := isName_suffixed hbase state.taken
      exact ⟨hstate.bind hname _ v _, fun other hother =>
        (Bindings.mem_names_bind _ _ _).mpr (Or.inr hother), fun names hnames =>
          ⟨_, hnames ((Bindings.mem_names_bind _ _ _).mpr (Or.inl rfl)), hname, rfl⟩⟩

end Parameters

/-! ## Closing phrases -/

section Phrases

variable {evaluate : Phrase → Eval Value} {env : Environment} {declared : List String}

theorem closes_closeAll {Q : Phrase → List String → Phrase → Prop}
    (h : ∀ t ∈ ts, Closes (close evaluate env declared t) (Q t)) :
    Closes (closeAll evaluate env declared ts) fun names us =>
      List.Forall₂ (fun t u => Q t names u) ts us := by
  induction ts with
  | nil =>
      refine (Closes.pure []).mono ?_
      rintro _ _ rfl
      exact .nil
  | cons t ts ih =>
      obtain ⟨ht, hts⟩ := List.forall_mem_cons.mp h
      rw [closeAll]
      refine (ht.bind fun u => (ih hts).bind fun us => Closes.pure (u :: us)).mono ?_
      rintro names _ ⟨u, hu, us, hus, rfl⟩
      exact .cons hu hus

/-- Where each phrase stays as it is, all of them do. -/
theorem eq_of_forall₂_eq {P : Phrase → Prop} {us : List Phrase}
    (h : List.Forall₂ (fun t u => u = t ∧ P t) ts us) : us = ts ∧ ∀ t ∈ ts, P t := by
  induction h with
  | nil => exact ⟨rfl, by simp⟩
  | cons hfirst _ ih =>
      obtain ⟨rfl, hP⟩ := hfirst
      exact ⟨congrArg _ ih.1, List.forall_mem_cons.mpr ⟨hP, ih.2⟩⟩

/-- A name or a path from outside becomes a parameter. -/
theorem closes_reference {t : Phrase} {n : String} {ws : List String} (ht : t.IsReference n ws)
    (hn : isName n) : Closes (close evaluate env declared t) fun names u =>
      u = t ∧ n ∈ declared ∨ ∃ name ∈ names, isName name ∧ u = namedParameter name := by
  have hclose : close evaluate env declared t = closeReference evaluate env declared t := by
    cases ht <;> simp [close]
  rw [hclose, closeReference, ht.rootAlias?_eq]
  dsimp only
  split
  · rename_i hmem
    exact (Closes.pure t).mono fun _ _ heq => Or.inl ⟨heq, List.contains_iff_mem.mp hmem⟩
  · split
    · exact Closes.fail _
    · refine ((Closes.lift _).bind (S := fun _ names u =>
        ∃ name ∈ names, isName name ∧ u = namedParameter name) fun v? => ?_).mono
        fun _ _ h => Or.inr h.choose_spec.2
      cases v? with
      | none => exact Closes.fail _
      | some v => exact closes_parameter t (isName_append (by decide) hn) v

/-- The context and positional parameters become named parameters, other leaves stay. -/
theorem closes_leaf {l : Label} (hl : l.isLeaf) (s : Source.Span) :
    Closes (close evaluate env declared (.node l [] s)) fun names u =>
      u = .node l [] s ∨ ∃ name ∈ names, isName name ∧ u = namedParameter name := by
  cases l with
  | context item =>
      rw [close]
      cases env.context? with
      | none => exact Closes.fail _
      | some c =>
          exact (closes_parameter _ (by cases item <;> decide) _).mono fun _ _ h => Or.inr h
  | positionalParameter index =>
      rw [close]
      cases env.positional? index with
      | none => exact Closes.fail _
      | some v =>
          have hbase : isName "positional_" := by decide
          exact (closes_parameter _ (isName_indexed hbase index) v).mono fun _ _ h => Or.inr h
  | _ =>
      first
        | exact absurd hl Bool.false_ne_true
        | simp only [close, closeAll, pure_bind]
          exact (Closes.pure _).mono fun _ _ heq => Or.inl heq

/-- A join stays as it is and starts at an alias inside. -/
theorem closes_join (outer fetch : Bool) (cs : List Phrase) (s : Source.Span) :
    Closes (close evaluate env declared (.node (.join outer fetch) cs s)) fun _ u =>
      u = .node (.join outer fetch) cs s ∧
        ∀ n ∈ (u.child? 0).bind rootAlias?, n ∈ declared := by
  rw [close_join, checkJoin]
  cases hroot : ((Phrase.node (.join outer fetch) cs s).child? 0).bind rootAlias? with
  | none =>
      refine (Closes.pure _).mono ?_
      rintro _ _ rfl
      exact ⟨rfl, by simp [hroot]⟩
  | some name =>
      dsimp only
      split
      · rename_i hmem
        refine (Closes.pure _).mono ?_
        rintro _ _ rfl
        refine ⟨rfl, fun n hn => ?_⟩
        rw [hroot] at hn
        cases hn
        exact List.contains_iff_mem.mp hmem
      · exact Closes.fail _

/-- A from clause stays as it is, and its joins start at aliases inside. -/
theorem closes_items {items : List Phrase} (hitems : ∀ r ∈ items, r.IsRange)
    (hjoins : ∀ j ∈ joinsOf items, j.IsJoin) (hdeclared : rangeAliases items ⊆ declared) :
    Closes (closeAll evaluate env declared items) fun _ is => is = items ∧
      ∀ j ∈ joinsOf items, ∀ n ∈ (j.child? 0).bind rootAlias?, n ∈ declared := by
  have hitem : ∀ r ∈ items, Closes (close evaluate env declared r) fun _ u => u = r ∧
      ∀ j ∈ r.children.drop 2, ∀ n ∈ (j.child? 0).bind rootAlias?, n ∈ declared := by
    intro r hr
    have halias : ∀ a ∈ r.declaredAlias?, a ∈ declared := fun a ha =>
      hdeclared (List.mem_filterMap.mpr ⟨r, hr, ha⟩)
    have hjoin : ∀ j ∈ r.children.drop 2, Closes (close evaluate env declared j) fun _ u => u = j ∧
        ∀ n ∈ (j.child? 0).bind rootAlias?, n ∈ declared := by
      intro j hj
      have hisJoin := hjoins j (List.mem_flatMap.mpr ⟨r, hr, hj⟩)
      cases hisJoin with
      | bare | named =>
          refine (closes_join _ _ _ _).mono ?_
          rintro _ _ ⟨rfl, hstart⟩
          exact ⟨rfl, hstart⟩
    obtain ⟨a, entity, js, s₁, s₂, s₃, -⟩ := hitems r hr
    have hclose : close evaluate env declared (.node .fromItem (.node (.entityName entity) [] s₁
        :: .node (.identifier a) [] s₂ :: js) s₃) = (do
          let ks ← closeAll evaluate env declared js
          return .node .fromItem (.node (.entityName entity) [] s₁
            :: .node (.identifier a) [] s₂ :: ks) s₃) := by
      have hparts : closeAll evaluate env declared (.node (.entityName entity) [] s₁
          :: .node (.identifier a) [] s₂ :: js) = (do
            let ks ← closeAll evaluate env declared js
            return .node (.entityName entity) [] s₁ :: .node (.identifier a) [] s₂ :: ks) := by
        simp only [closeAll, close_entityName, close_declared (halias a rfl), pure_bind, bind_assoc]
      simp only [close, hparts, pure_bind, bind_assoc]
    rw [hclose]
    refine ((closes_closeAll hjoin).bind fun ks => Closes.pure _).mono ?_
    rintro _ _ ⟨ks, hks, rfl⟩
    obtain ⟨rfl, hstarts⟩ := eq_of_forall₂_eq hks
    exact ⟨rfl, hstarts⟩
  refine (closes_closeAll hitem).mono fun _ is his => ?_
  obtain ⟨rfl, hstarts⟩ := eq_of_forall₂_eq his
  refine ⟨rfl, fun j hj => ?_⟩
  obtain ⟨r, hr, hj⟩ := List.mem_flatMap.mp hj
  exact hstarts r hr j hj

/-- What a part of a subselect is closed to: the part recast, as normal as it was, and without
free names but for those that are declared around it, if its joins are in order. -/
structure Closed (declared : List String) (t : Phrase) (names : List String) (u : Phrase) :
    Prop where
  recast : Recast (Exchange.closing names) t u
  label : u.label = t.label ∨ t.label.isAtomic ∧ u.label.isAtomic
  normal : t.IsNormal → u.IsNormal
  within : joinsInOrder declared t ↔ Within (· ∈ declared) u

/-- Parts of a subselect and what they are closed to. -/
abbrev AllClosed (declared : List String) (ts : List Phrase) (names : List String)
    (us : List Phrase) : Prop :=
  List.Forall₂ (fun t u => Closed declared t names u) ts us

namespace AllClosed

variable {names : List String} {us : List Phrase} {l : Label}

theorem recast (h : AllClosed declared ts names us) : RecastAll (Exchange.closing names) ts us := by
  induction h with
  | nil => exact .nil
  | cons hfirst _ ih => exact .cons hfirst.recast ih

theorem within (h : AllClosed declared ts names us) :
    (∀ t ∈ ts, joinsInOrder declared t) ↔ ∀ u ∈ us, Within (· ∈ declared) u := by
  induction h with
  | nil => simp
  | cons hfirst _ ih => rw [List.forall_mem_cons, List.forall_mem_cons, hfirst.within, ih]

theorem exists_of_mem (h : AllClosed declared ts names us) {u : Phrase} (hu : u ∈ us) :
    ∃ t ∈ ts, Closed declared t names u := by
  induction h with
  | nil => cases hu
  | @cons t _ _ _ hfirst _ ih =>
      rcases List.mem_cons.mp hu with rfl | hu
      · exact ⟨t, List.mem_cons_self, hfirst⟩
      · obtain ⟨v, hv, hclosed⟩ := ih hu
        exact ⟨v, List.mem_cons_of_mem t hv, hclosed⟩

/-- What could not be taken out of a node before cannot be taken out of it closed. -/
theorem isTight (h : AllClosed declared ts names us) (htight : IsTight l ts) : IsTight l us where
  operands hl u hu heq := by
    obtain ⟨t, ht, hclosed⟩ := h.exists_of_mem hu
    rcases hclosed.label with hlabel | ⟨-, hatomic⟩
    · exact htight.operands hl t ht (hlabel.symm.trans heq)
    · rw [heq] at hatomic
      rcases hl with rfl | rfl <;> cases hatomic
  enclosed hl u hus := by
    subst hus
    obtain ⟨t, ht, hclosed⟩ := h.exists_of_mem List.mem_cons_self
    have hone : ts = [t] := by
      obtain ⟨v, rfl⟩ := List.length_eq_one_iff.mp h.length_eq
      rw [List.mem_singleton.mp ht]
    have hlarge : t.label.isAtomic = false := htight.enclosed hl t hone
    rcases hclosed.label with hlabel | ⟨hatomic, -⟩
    · rwa [hlabel]
    · rw [hatomic] at hlarge
      cases hlarge

theorem normal (h : AllClosed declared ts names us) (s : Source.Span)
    (hts : (Phrase.node l ts s).IsNormal) : (Phrase.node l us s).IsNormal := by
  apply isNormal_node
  · intro u hu
    obtain ⟨t, ht, hclosed⟩ := h.exists_of_mem hu
    exact hclosed.normal (hts.child ht)
  · exact h.isTight (hts l ts s (mem_nodes_self _))

/-- The clauses behind a from clause stay such clauses. -/
theorem isFinalClause (h : AllClosed declared ts names us)
    (hts : ∀ t ∈ ts, t.label.isFinalClause) : ∀ u ∈ us, u.label.isFinalClause := by
  induction h with
  | nil => simp
  | @cons t u _ _ hfirst _ ih =>
      obtain ⟨ht, hts⟩ := List.forall_mem_cons.mp hts
      refine List.forall_mem_cons.mpr ⟨?_, ih hts⟩
      rcases hfirst.label with hlabel | ⟨hatomic, -⟩
      · rwa [hlabel]
      · revert ht hatomic
        cases t.label <;> simp [Label.isFinalClause, Label.isAtomic, Label.isTerminal]

end AllClosed

/-- The step at a subselect, whose own aliases count as declared in it. -/
theorem closes_subselect {P : String → Prop} {distinct : Bool} {cs items rest : List Phrase}
    {s₁ s₂ s₃ : Source.Span} (hitems : ∀ r ∈ items, r.IsRange)
    (hjoins : JoinsWithin P (rangeAliases items) (joinsOf items))
    (hfinal : ∀ t ∈ rest, t.label.isFinalClause)
    (hclauses : ∀ c, c ∈ cs ∨ c ∈ rest →
      Closes (close evaluate env (declared ++ itemAliases items) c)
        (Closed (declared ++ itemAliases items) c)) :
    Closes (close evaluate env declared (.node .subselect (.node (.selectClause distinct) cs s₁
        :: .node .fromClause items s₂ :: rest) s₃))
      (Closed declared (.node .subselect (.node (.selectClause distinct) cs s₁
        :: .node .fromClause items s₂ :: rest) s₃)) := by
  have hisJoin := Query.Grammar.isJoin_of_joinsWithin hjoins
  have hranges : rangeAliases items ⊆ declared ++ itemAliases items := fun n hn =>
    List.mem_append_right _ (List.mem_append_left _ hn)
  have hclose : close evaluate env declared (.node .subselect (.node (.selectClause distinct) cs s₁
      :: .node .fromClause items s₂ :: rest) s₃) = (do
        let ds ← closeAll evaluate env (declared ++ itemAliases items) cs
        let is ← closeAll evaluate env (declared ++ itemAliases items) items
        let rest' ← closeAll evaluate env (declared ++ itemAliases items) rest
        return .node .subselect (.node (.selectClause distinct) ds s₁
          :: .node .fromClause is s₂ :: rest') s₃) := by
    rw [close_subselect, declaredAliases_subselect]
    simp only [closeAll, close, bind_assoc, pure_bind]
    rfl
  rw [hclose]
  refine ((closes_closeAll fun t ht => hclauses t (Or.inl ht)).bind fun ds =>
    (closes_items hitems hisJoin hranges).bind fun is =>
      (closes_closeAll fun t ht => hclauses t (Or.inr ht)).bind fun rest' => Closes.pure _).mono ?_
  rintro names _ ⟨ds, hds, is, ⟨rfl, hstarts⟩, rest', hrest, rfl⟩
  replace hds : AllClosed (declared ++ itemAliases is) cs names ds := hds
  replace hrest : AllClosed (declared ++ itemAliases is) rest names rest' := hrest
  have hinside : ∀ n, n ∈ declared ++ itemAliases is ↔ n ∈ itemAliases is ∨ n ∈ declared :=
    fun n => List.mem_append.trans or_comm
  refine ⟨.subselect distinct s₁ s₂ s₃ rfl hds.recast hrest.recast hfinal, Or.inl rfl,
    fun hnormal => ?_, ?_⟩
  · have hselect := hds.normal s₁ (hnormal.child List.mem_cons_self)
    have hsource := hnormal.child (List.mem_cons_of_mem _ List.mem_cons_self)
    apply isNormal_node
    · refine List.forall_mem_cons.mpr ⟨hselect, List.forall_mem_cons.mpr ⟨hsource, fun u hu => ?_⟩⟩
      obtain ⟨t, ht, hclosed⟩ := hrest.exists_of_mem hu
      exact hclosed.normal (hnormal.child (List.mem_cons_of_mem _ (List.mem_cons_of_mem _ ht)))
    · exact ⟨by simp, by simp⟩
  · rw [joinsInOrder_subselect]
    constructor
    · rintro ⟨horder, hselect, hlast⟩
      refine .subselect distinct s₁ s₂ s₃ hitems ?_
        (fun u hu => (hds.within.mp hselect u hu).mono fun n => (hinside n).mp)
        (fun u hu => (hrest.within.mp hlast u hu).mono fun n => (hinside n).mp)
        (hrest.isFinalClause hfinal)
      -- A join starts inside, and not only at an alias that comes behind it.
      refine ((joinsWithin_of_joinsStart hisJoin horder).and
        (joinsWithin_of_starts hisJoin hstarts _)).mono fun n hn => ?_
      obtain ⟨hapart, hmem⟩ := hn
      rcases (hinside n).mp hmem with hown | hmem
      · simpa [hown] using hapart
      · exact hmem
    · intro hwithin
      obtain ⟨hjoins, hselect, hlast⟩ := hwithin.clauses
      exact ⟨joinsStart_of_joinsWithin (hjoins.mono fun n hn => by simp [hn]),
        hds.within.mpr fun u hu => (hselect u hu).mono fun n => (hinside n).mpr,
        hrest.within.mpr fun u hu => (hlast u hu).mono fun n => (hinside n).mpr⟩

/-- Closing a part of a subselect recasts it and takes the free names out of it. -/
theorem closes_of_within {P : String → Prop} {t : Phrase} (h : Within P t)
    (hlegal : LegalNames t) : Closes (close evaluate env declared t) (Closed declared t) := by
  have hchild : ∀ {l : Label} {ts : List Phrase} {s : Source.Span} {c : Phrase},
      LegalNames (.node l ts s) → c ∈ ts → LegalNames c := fun hlegal hc =>
    hlegal.of_mem_nodes (mem_nodes_of_child hc (mem_nodes_self _))
  induction h generalizing declared with
  | @reference _ t n ws ht _ =>
      have hn := Query.Grammar.isName_of_isVariable (hlegal.words ht).1
      refine (closes_reference ht hn).mono ?_
      rintro names u (⟨rfl, hmem⟩ | ⟨name, hmem, hname, rfl⟩)
      · exact ⟨.atom (.reference ht) (Or.inl rfl), Or.inl rfl, id,
          iff_of_true (joinsInOrder_reference ht) (.reference ht hmem)⟩
      · refine ⟨.atom (.reference ht) (Or.inr ⟨name, hmem, hname, rfl⟩), Or.inr ⟨?_, rfl⟩,
          fun _ => isNormal_namedParameter name,
          iff_of_true (joinsInOrder_reference ht) (.leaf _ rfl)⟩
        rcases ht.label_cases with hlabel | hlabel <;> rw [hlabel] <;> rfl
  | leaf s hl =>
      refine (closes_leaf hl s).mono ?_
      rintro names u (rfl | ⟨name, hmem, hname, rfl⟩)
      · exact ⟨.atom (.leaf s hl) (Or.inl rfl), Or.inl rfl, id,
          iff_of_true (joinsInOrder_nil _) (.leaf s hl)⟩
      · exact ⟨.atom (.leaf s hl) (Or.inr ⟨name, hmem, hname, rfl⟩),
          Or.inr ⟨isAtomic_of_isLeaf hl, rfl⟩, fun _ => isNormal_namedParameter name,
          iff_of_true (joinsInOrder_nil _) (.leaf _ rfl)⟩
  | subselect distinct s₁ s₂ s₃ hitems hjoins _ _ hfinal hselect hrest =>
      refine closes_subselect hitems hjoins hfinal fun c hc => ?_
      rcases hc with hc | hc
      · exact hselect c hc (hchild (hchild hlegal List.mem_cons_self) hc)
      · exact hrest c hc (hchild hlegal (List.mem_cons_of_mem _ (List.mem_cons_of_mem _ hc)))
  | compound s hcompound _ ih =>
      rw [close_compound hcompound]
      refine ((closes_closeAll fun t ht => ih t ht (hchild hlegal ht)).bind fun us =>
        Closes.pure _).mono ?_
      rintro names _ ⟨us, hus, rfl⟩
      replace hus : AllClosed declared _ names us := hus
      refine ⟨.compound s hcompound hus.recast, Or.inl rfl, hus.normal s, ?_⟩
      rw [joinsInOrder_compound hcompound, hus.within]
      exact ⟨.compound s hcompound, fun hwithin => hwithin.children hcompound⟩

end Phrases

end Delegation

end RowGuard
