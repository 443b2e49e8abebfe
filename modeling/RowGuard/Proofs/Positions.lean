import RowGuard.Proofs.Accounts
import RowGuard.Proofs.Binders
import RowGuard.Proofs.Restatements
import RowGuard.Restriction.Positional

/-!
# Names for positions

A position of a query gets its name when it is first met and keeps it from then on.  The
name is new then, and all names made later avoid it; so different positions have different
names, none of them is a name from before, and what has been named stays as it is named in
the end.
-/

namespace RowGuard

open Query (Label Phrase)
open Query.Phrase

/-! ## Phrases with names for their positions -/

namespace Query.Phrase

mutual

/-- The phrase with the names of its positions in their places. -/
def withNames (name : Nat → String) : Phrase → Phrase
  | node (.positionalParameter index) _ _ => namedParameter (name index)
  | node l cs s => node l (withNamesAll name cs) s

def withNamesAll (name : Nat → String) : List Phrase → List Phrase
  | [] => []
  | t :: ts => withNames name t :: withNamesAll name ts

end

variable {l : Label} {cs : List Phrase} {s : Source.Span} {index : Nat}

theorem withNames_node (hl : ∀ index, l ≠ .positionalParameter index) (name : Nat → String) :
    (node l cs s).withNames name = node l (withNamesAll name cs) s := by
  cases l <;> first | rfl | exact absurd rfl (hl _)

theorem mem_positionalParameters_node : index ∈ (node l cs s).positionalParameters ↔
    l = .positionalParameter index ∨ ∃ c ∈ cs, index ∈ c.positionalParameters := by
  simp only [mem_positionalParameters, placeholders_node, List.mem_append, List.mem_flatMap]
  refine or_congr_left ⟨fun h => ?_, ?_⟩
  · split at h
    · exact (List.mem_singleton.mp h).symm
    · cases h
  · rintro rfl
    exact List.mem_singleton_self _

/-- Nothing hangs on a parameter. -/
def LooseParameters (t : Phrase) : Prop := ∀ n ∈ t.nodes, n.label.isPlaceholder → n.children = []

end Query.Phrase

theorem Query.Grammar.DerivesText.looseParameters {t : Phrase}
    (h : Query.Grammar.DerivesText t) : t.LooseParameters := by
  refine h.throughout ⟨?_, ?_, ?_, ?_, ?_⟩
  · exact fun _ _ _ _ => rfl
  · exact fun _ _ _ _ => rfl
  · exact fun _ _ _ _ => rfl
  · exact fun _ _ _ h => nomatch h
  · intro l ts s hordinary hl
    cases l <;> first
      | exact nomatch (show false = true from hl)
      | exact nomatch (show false = true from hordinary)

/-! ## Making names -/

namespace Restriction

variable {values : List (Nat × Value)} {before : List String} {allowed : Nat → Prop} {α β : Type}

theorem nameParameters_node {l : Label} (hl : ∀ index, l ≠ .positionalParameter index)
    (cs : List Phrase) (s : Source.Span) : nameParameters values (.node l cs s) = (do
      return .node l (← nameParametersAll values cs) s) := by
  cases l <;> first | rfl | exact absurd rfl (hl _)

/-- Names that differ from one another and from those before. -/
structure Orderly (before : List String) (allowed : Nat → Prop) (state : PositionNames) :
    Prop where
  taken : ∀ name ∈ before ++ state.made.map Prod.snd, name ∈ state.taken
  fresh : ∀ name ∈ state.made.map Prod.snd, name ∉ before
  nodup : (state.made.map Prod.snd).Nodup
  allowed : ∀ p ∈ state.made, allowed p.1

/-- What has a name keeps it. -/
def Continues (made later : List (Nat × String)) : Prop :=
  ∀ index name, made.lookup index = some name → later.lookup index = some name

theorem Continues.refl (made : List (Nat × String)) : Continues made made := fun _ _ h => h

theorem Continues.trans {made later last : List (Nat × String)} (h : Continues made later)
    (h' : Continues later last) : Continues made last :=
  fun index name hname => h' index name (h index name hname)

/-- A step of the naming keeps the names in order, and what it gives is as it should be by
the names that there are in the end. -/
def Assigns (before : List String) (allowed : Nat → Prop) (p : Positions α)
    (Q : List (Nat × String) → α → Prop) : Prop :=
  ∀ state a state', Orderly before allowed state → p.run state = .ok (a, state') →
    Orderly before allowed state' ∧ Continues state.made state'.made ∧
      ∀ made, Continues state'.made made → Q made a

namespace Assigns

variable {p : Positions α} {Q R : List (Nat × String) → α → Prop}

theorem pure {a : α} (h : ∀ made, Q made a) : Assigns before allowed (pure a) Q := by
  intro state b state' hstate hr
  cases hr
  exact ⟨hstate, .refl _, fun made _ => h made⟩

theorem bind {f : α → Positions β} {S : List (Nat × String) → β → Prop}
    (h : Assigns before allowed p Q)
    (hf : ∀ a, Assigns before allowed (f a) fun made b => Q made a → S made b) :
    Assigns before allowed (p >>= f) S := by
  intro state b state' hstate hr
  rw [StateT.run_bind] at hr
  obtain ⟨⟨a, later⟩, ha, hb⟩ := Query.Scope.ok_of_bind hr
  obtain ⟨horderly, hcontinues, hQ⟩ := h state a later hstate ha
  obtain ⟨horderly', hcontinues', hS⟩ := hf a later b state' horderly hb
  exact ⟨horderly', hcontinues.trans hcontinues', fun made hmade =>
    hS made hmade (hQ made (hcontinues'.trans hmade))⟩

end Assigns

/-- The state behind a new name. -/
def PositionNames.add (state : PositionNames) (index : Nat) (name : String) : PositionNames :=
  { taken := name :: state.taken, made := state.made ++ [(index, name)] }

theorem Orderly.add {state : PositionNames} (h : Orderly before allowed state) {index : Nat}
    {name : String} (hindex : allowed index) (hname : name ∉ state.taken) :
    Orderly before allowed (state.add index name) := by
  have hmade : (state.add index name).made.map Prod.snd = state.made.map Prod.snd ++ [name] :=
    List.map_append
  constructor
  · intro other hother
    rw [hmade, ← List.append_assoc] at hother
    rcases List.mem_append.mp hother with hother | hother
    · exact List.mem_cons_of_mem name (h.taken other hother)
    · rw [List.mem_singleton.mp hother]
      exact List.mem_cons_self
  · intro other hother
    rw [hmade] at hother
    rcases List.mem_append.mp hother with hother | hother
    · exact h.fresh other hother
    · rw [List.mem_singleton.mp hother]
      exact fun hbefore => hname (h.taken name (List.mem_append_left _ hbefore))
  · rw [hmade]
    refine List.nodup_append.mpr ⟨h.nodup, List.nodup_singleton name, ?_⟩
    intro other hother new hnew heq
    rw [heq, List.mem_singleton.mp hnew] at hother
    exact hname (h.taken name (List.mem_append_right before hother))
  · intro p hp
    rcases List.mem_append.mp hp with hp | hp
    · exact h.allowed p hp
    · rw [List.mem_singleton.mp hp]
      exact hindex

/-- How a position gets its name. -/
theorem run_positionName {index : Nat} {state : PositionNames} :
    (positionName values index).run state = match values.lookup index, state.made.lookup index with
      | none, _ => .error (.violation (.unboundPositional index))
      | some _, some name => .ok (name, state)
      | some _, none =>
          let name := Text.Fresh.underscored s!"positional_{index}" state.taken
          .ok (name, state.add index name) := by
  unfold positionName
  simp only [StateT.run_bind, StateT.run_get, pure_bind]
  cases hvalue : values.lookup index with
  | none => rfl
  | some v => cases hmade : state.made.lookup index <;> rfl

/-- A position with a value has a name. -/
theorem assigns_positionName {index : Nat} (hindex : allowed index) :
    Assigns before allowed (positionName values index) fun made name =>
      (values.lookup index).isSome ∧ made.lookup index = some name := by
  intro state name state' hstate hr
  rw [run_positionName] at hr
  split at hr
  · cases hr
  · rename_i hvalue hmade
    cases hr
    exact ⟨hstate, .refl _, fun made hlater => ⟨by rw [hvalue]; rfl, hlater _ _ hmade⟩⟩
  · rename_i hvalue hmade
    cases hr
    have hnew := Text.Fresh.underscored_not_mem s!"positional_{index}" state.taken
    refine ⟨hstate.add hindex hnew, fun other name hname => ?_, fun made hlater =>
      ⟨by rw [hvalue]; rfl, hlater _ _ ?_⟩⟩
    · show (state.made ++ _).lookup other = some name
      rw [List.lookup_append, hname, Option.some_or]
    · show (state.made ++ _).lookup index = _
      rw [List.lookup_append, hmade, Option.none_or, List.lookup_cons_self]

/-- The name of a position among those made. -/
def nameIn (made : List (Nat × String)) (index : Nat) : String := (made.lookup index).getD ""

/-- The positions have values and names. -/
def Covers (values : List (Nat × Value)) (made : List (Nat × String)) (t : Phrase) : Prop :=
  ∀ index ∈ t.positionalParameters, (values.lookup index).isSome ∧ (made.lookup index).isSome

theorem Covers.mem {made : List (Nat × String)} {t : Phrase} (h : Covers values made t)
    {index : Nat} (hindex : index ∈ t.positionalParameters) : (index, nameIn made index) ∈ made := by
  obtain ⟨name, hname⟩ := Option.isSome_iff_exists.mp (h index hindex).2
  rw [nameIn, hname, Option.getD_some]
  obtain ⟨before, after, heq, -⟩ := List.lookup_eq_some_iff.mp hname
  rw [heq]
  simp

mutual

theorem assigns_nameParameters : ∀ t : Phrase, t.LooseParameters →
    (∀ index ∈ t.positionalParameters, allowed index) →
    Assigns before allowed (nameParameters values t) fun made u =>
      u = t.withNames (nameIn made) ∧ Covers values made t
  | .node l cs s, hloose, hallowed => by
      by_cases hl : ∃ index, l = .positionalParameter index
      · obtain ⟨index, rfl⟩ := hl
        cases hloose _ (mem_nodes_self _) rfl
        have hindex := hallowed index (mem_positionalParameters_node.mpr (Or.inl rfl))
        refine (assigns_positionName hindex).bind fun name => .pure fun made hname => ⟨?_, ?_⟩
        · show namedParameter name = namedParameter (nameIn made index)
          rw [nameIn, hname.2, Option.getD_some]
        · intro other hother
          rcases mem_positionalParameters_node.mp hother with heq | ⟨c, hc, -⟩
          · cases heq
            exact ⟨hname.1, by rw [hname.2]; rfl⟩
          · cases hc
      · have hne : ∀ index, l ≠ .positionalParameter index := fun index h => hl ⟨index, h⟩
        rw [nameParameters_node hne]
        refine (assigns_nameParametersAll cs
          (fun c hc n hn => hloose n (mem_nodes_of_child hc hn))
          (fun c hc index hindex => hallowed index
            (mem_positionalParameters_node.mpr (Or.inr ⟨c, hc, hindex⟩)))).bind fun ds =>
          .pure fun made hds => ⟨?_, ?_⟩
        · rw [hds.1, withNames_node hne]
        · intro index hindex
          rcases mem_positionalParameters_node.mp hindex with heq | ⟨c, hc, hindex⟩
          · exact absurd heq (hne index)
          · exact hds.2 c hc index hindex

theorem assigns_nameParametersAll : ∀ ts : List Phrase, (∀ t ∈ ts, t.LooseParameters) →
    (∀ t ∈ ts, ∀ index ∈ t.positionalParameters, allowed index) →
    Assigns before allowed (nameParametersAll values ts) fun made us =>
      us = withNamesAll (nameIn made) ts ∧ ∀ t ∈ ts, Covers values made t
  | [], _, _ => .pure fun made => ⟨rfl, by simp⟩
  | t :: ts, hloose, hallowed => by
      obtain ⟨ht, hts⟩ := List.forall_mem_cons.mp hloose
      obtain ⟨hat, hats⟩ := List.forall_mem_cons.mp hallowed
      refine (assigns_nameParameters t ht hat).bind fun u => ?_
      refine (assigns_nameParametersAll ts hts hats).bind fun us => .pure fun made hus hu => ?_
      exact ⟨by rw [hu.1, hus.1, withNamesAll], List.forall_mem_cons.mpr ⟨hu.2, hus.2⟩⟩

end

end Restriction

/-! ## Binding positions -/

/-- Among different keys, each holds its own value. -/
theorem lookup_eq_some_of_mem {κ γ : Type} [BEq κ] [LawfulBEq κ] {entries : List (κ × γ)} {k : κ}
    {value : γ} (hkeys : (entries.map Prod.fst).Nodup) (h : (k, value) ∈ entries) :
    entries.lookup k = some value := by
  obtain ⟨before, after, rfl⟩ := List.append_of_mem h
  refine List.lookup_eq_some_iff.mpr ⟨before, after, rfl, fun p hp => ?_⟩
  rw [List.map_append, List.map_cons] at hkeys
  have hne := (List.nodup_append.mp hkeys).2.2 p.1 (List.mem_map_of_mem hp) k List.mem_cons_self
  exact bne_iff_ne.mpr hne.symm

namespace RestrictedQuery

open Restriction

variable {q bound : RestrictedQuery} {values : List (Nat × Value)} {text : String}

/-- The positions of a phrase stand under names of their own, which hold their values. -/
structure NamesPositions (q : RestrictedQuery) (values : List (Nat × Value)) (t : Phrase)
    (name : Nat → String) (bound : RestrictedQuery) : Prop where
  value : ∀ index ∈ t.positionalParameters, ∃ v,
    values.lookup index = some v ∧ bound.parameters.find? (name index) = some v
  apart : ∀ index ∈ t.positionalParameters, ∀ other ∈ t.positionalParameters,
    name index = name other → index = other
  fresh : ∀ index ∈ t.positionalParameters,
    name index ∉ q.parameters.names ++ t.namedParameters
  kept : q.parameters.Extends bound.parameters
  text : bound.text? =
    if t.positionalParameters = [] then q.text? else some (t.withNames name).render

theorem orderly_start (before : List String) (allowed : Nat → Prop) :
    Orderly before allowed { taken := before } where
  taken _ h := by simpa using h
  fresh _ h := nomatch h
  nodup := List.nodup_nil
  allowed _ h := nomatch h

/-- The names made for positions, with the values of the positions. -/
def boundNames (values : List (Nat × Value)) (made : List (Nat × String)) : Bindings Value :=
  made.map fun p => (p.2, (values.lookup p.1).getD .null)

theorem names_boundNames (made : List (Nat × String)) :
    (boundNames values made).names = made.map Prod.snd := by
  rw [Bindings.names, boundNames, List.map_map]
  rfl

/-- Names in order, with a name for each position and no others, name the positions. -/
theorem namesPositions_of_orderly {t : Phrase} {state : PositionNames}
    (horderly : Orderly (q.parameters.names ++ t.namedParameters)
      (· ∈ t.positionalParameters) state)
    (hcovers : Covers values state.made t)
    (hparameters : bound.parameters = q.parameters.bindAll (boundNames values state.made))
    (htext : bound.text? =
      if state.made = [] then q.text? else some (t.withNames (nameIn state.made)).render) :
    NamesPositions q values t (nameIn state.made) bound := by
  have hmem : ∀ index ∈ t.positionalParameters, (index, nameIn state.made index) ∈ state.made :=
    fun _ hindex => hcovers.mem hindex
  have hnodup : (boundNames values state.made).names.Nodup := by
    rw [names_boundNames]
    exact horderly.nodup
  refine ⟨fun index hindex => ?_, fun index hindex other hother heq => ?_, fun index hindex => ?_,
    fun name v hv => ?_, ?_⟩
  · obtain ⟨v, hv⟩ := Option.isSome_iff_exists.mp (hcovers index hindex).1
    have hbound : (nameIn state.made index, v) ∈ boundNames values state.made :=
      List.mem_map.mpr ⟨_, hmem index hindex, by rw [hv]; rfl⟩
    refine ⟨v, hv, ?_⟩
    rw [hparameters, Bindings.find?_bindAll hnodup, Bindings.find?,
      lookup_eq_some_of_mem hnodup hbound, Option.some_or]
  · have hsame := List.inj_on_of_nodup_map horderly.nodup (hmem index hindex) (hmem other hother)
      heq
    exact congrArg Prod.fst hsame
  · exact horderly.fresh _ (List.mem_map_of_mem (hmem index hindex))
  · have hother : name ∉ (boundNames values state.made).names := by
      intro hname
      rw [names_boundNames] at hname
      exact horderly.fresh name hname
        (List.mem_append_left _ (Bindings.mem_names_of_find? hv))
    rw [hparameters, Bindings.find?_bindAll hnodup, Bindings.find?_eq_none hother,
      Option.none_or, hv]
  · have hnone : state.made = [] ↔ t.positionalParameters = [] := by
      constructor
      · intro hmade
        refine List.eq_nil_iff_forall_not_mem.mpr fun index hindex => ?_
        have hcontra := hmem index hindex
        rw [hmade] at hcontra
        cases hcontra
      · intro hnone
        refine List.eq_nil_iff_forall_not_mem.mpr fun p hp => ?_
        have hcontra := horderly.allowed p hp
        rw [hnone] at hcontra
        cases hcontra
    rw [htext]
    exact if_congr hnone rfl rfl

/-- Naming the positions of what a text is read as gives it with their names in their places. -/
theorem eq_withNames_of_run {t u : Phrase} {before : List String} {final : PositionNames}
    (ht : Phrase.ofText text = .ok t)
    (h : (nameParameters values t).run { taken := before } = .ok (u, final)) :
    u = t.withNames (nameIn final.made) ∧ Covers values final.made t ∧
      Orderly before (· ∈ t.positionalParameters) final := by
  have hloose := (Query.Grammar.derivesText_of_ofText ht).looseParameters
  obtain ⟨horderly, -, hall⟩ := assigns_nameParameters t hloose (fun _ => id) _ u final
    (orderly_start before (· ∈ t.positionalParameters)) h
  obtain ⟨hu, hcovers⟩ := hall final.made (.refl _)
  exact ⟨hu, hcovers, horderly⟩

/-- How a query is bound: its text is read, the positions get names, and if there are any names
the query gets a new text and the values. -/
theorem exists_names (htext : q.text? = some text) (h : q.bindPositional values = .ok bound) :
    ∃ t u final, Phrase.ofText text = .ok t ∧ (nameParameters values t).run
        { taken := q.parameters.names ++ t.namedParameters } = .ok (u, final) ∧
      bound = if final.made = [] then q else { q with
        text? := some u.render
        parameters := q.parameters.bindAll (boundNames values final.made) } := by
  unfold bindPositional at h
  rw [htext] at h
  obtain ⟨t, ht, h⟩ := Query.Scope.ok_of_bind h
  obtain ⟨⟨u, final⟩, hnamed, h⟩ := Query.Scope.ok_of_bind h
  refine ⟨t, u, final, ok_of_mapError ht, hnamed, ?_⟩
  by_cases hmade : final.made = []
  · simp only [List.isEmpty_iff.mpr hmade, if_true] at h
    rw [if_pos hmade]
    exact (Except.ok.inj h).symm
  · have hfalse : final.made.isEmpty = false := by simpa using hmade
    simp only [hfalse, Bool.false_eq_true, if_false] at h
    rw [if_neg hmade]
    exact (Except.ok.inj h).symm

/-- The positions of a query that is bound like this are named. -/
theorem namesPositions_of_run {t u : Phrase} {final : PositionNames}
    (ht : Phrase.ofText text = .ok t)
    (hnamed : (nameParameters values t).run
      { taken := q.parameters.names ++ t.namedParameters } = .ok (u, final)) :
    NamesPositions q values t (nameIn final.made) (if final.made = [] then q else { q with
      text? := some u.render
      parameters := q.parameters.bindAll (boundNames values final.made) }) := by
  obtain ⟨rfl, hcovers, horderly⟩ := eq_withNames_of_run ht hnamed
  by_cases hmade : final.made = []
  · rw [if_pos hmade]
    refine namesPositions_of_orderly horderly hcovers ?_ (by rw [if_pos hmade])
    rw [hmade]
    rfl
  · rw [if_neg hmade]
    exact namesPositions_of_orderly horderly hcovers rfl (by rw [if_neg hmade])

/-- Binding the positions of a query names those of the phrase that its text is read as. -/
theorem bindPositional_eq_ok (htext : q.text? = some text)
    (h : q.bindPositional values = .ok bound) :
    ∃ t name, Phrase.ofText text = .ok t ∧ NamesPositions q values t name bound := by
  obtain ⟨t, u, final, ht, hnamed, rfl⟩ := exists_names htext h
  exact ⟨t, nameIn final.made, ht, namesPositions_of_run ht hnamed⟩

end RestrictedQuery

end RowGuard
