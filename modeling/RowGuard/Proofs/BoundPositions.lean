import RowGuard.Proofs.Positions

/-!
# Positions bound in place

A restricted query is changed where it is when its positions are bound: one name after the
other gets its value, and the text comes last.  All of this happens after the last step that
can fail, so a query that cannot be bound is left as it was.  What a bound query has for its
text is still a text that the grammar derives, since the names that are made for positions can
be written; read again it has the new parameters in the places of the positions.
-/

namespace RowGuard

open Query (Label Phrase isParameterName)
open Query.Phrase

/-! ## Phrases with names for their positions -/

namespace Query

/-- What stands in the place of a label: a parameter of its own for a position. -/
def Label.withName (name : Nat → String) : Label → Label
  | .positionalParameter index => .namedParameter (name index)
  | l => l

theorem Label.withName_of_ne {l : Label} (hl : ∀ index, l ≠ .positionalParameter index)
    (name : Nat → String) : l.withName name = l := by
  cases l <;> first | rfl | exact absurd rfl (hl _)

namespace Phrase

variable {name : Nat → String} {l : Label} {s : Source.Span}

theorem withNamesAll_eq_map (name : Nat → String) (ts : List Phrase) :
    withNamesAll name ts = ts.map (withNames name) := by
  induction ts with
  | nil => rfl
  | cons t ts ih => rw [withNamesAll, ih, List.map_cons]

mutual

/-- A phrase that is made of names has no positions to name. -/
theorem withNames_of_names (name : Nat → String) :
    ∀ {t : Phrase}, Restriction.Names t → t.withNames name = t
  | .node l cs s, h => by
      have hnaming : Restriction.isNaming l = true := h _ (mem_nodes_self _)
      have hl : ∀ index, l ≠ .positionalParameter index := by
        rintro index rfl
        cases hnaming
      rw [withNames_node hl, withNamesAll_of_names name fun c hc n hn =>
        h n (mem_nodes_of_child hc hn)]

theorem withNamesAll_of_names (name : Nat → String) :
    ∀ {ts : List Phrase}, (∀ t ∈ ts, Restriction.Names t) → withNamesAll name ts = ts
  | [], _ => rfl
  | t :: ts, h => by
      obtain ⟨ht, hts⟩ := List.forall_mem_cons.mp h
      rw [withNamesAll, withNames_of_names name ht, withNamesAll_of_names name hts]

end

mutual

/-- Each parameter keeps its place, and those that are positions get their names. -/
theorem placeholders_withNames (name : Nat → String) : ∀ t : Phrase, t.LooseParameters →
    (t.withNames name).placeholders = t.placeholders.map (Label.withName name)
  | .node l cs s, h => by
      by_cases hl : ∃ index, l = .positionalParameter index
      · obtain ⟨index, rfl⟩ := hl
        cases h _ (mem_nodes_self _) rfl
        rfl
      · have hne : ∀ index, l ≠ .positionalParameter index := fun index heq => hl ⟨index, heq⟩
        have hhead : (if l.isPlaceholder then [l] else []).map (Label.withName name) =
            if l.isPlaceholder then [l] else [] := by
          split
          · rw [List.map_singleton, Label.withName_of_ne hne]
          · rfl
        rw [withNames_node hne, placeholders_node, placeholders_node, List.map_append, hhead,
          placeholders_withNamesAll name cs fun c hc n hn => h n (mem_nodes_of_child hc hn)]

theorem placeholders_withNamesAll (name : Nat → String) : ∀ ts : List Phrase,
    (∀ t ∈ ts, t.LooseParameters) → (withNamesAll name ts).flatMap placeholders =
      (ts.flatMap placeholders).map (Label.withName name)
  | [], _ => rfl
  | t :: ts, h => by
      obtain ⟨ht, hts⟩ := List.forall_mem_cons.mp h
      rw [withNamesAll, List.flatMap_cons, List.flatMap_cons, List.map_append,
        placeholders_withNames name t ht, placeholders_withNamesAll name ts hts]

end

/-- The positions of a phrase, if they get names, get some that can be written. -/
def Writes (name : Nat → String) (t : Phrase) : Prop :=
  ∀ index ∈ t.positionalParameters, isParameterName (name index)

theorem Writes.child {t : Phrase} {ts : List Phrase} (h : Writes name (.node l ts s))
    (ht : t ∈ ts) : Writes name t := fun index hindex =>
  h index (mem_positionalParameters_node.mpr (Or.inr ⟨t, ht, hindex⟩))

theorem recastAll_withNames {k : Exchange} {ts : List Phrase} (hname : ∀ t ∈ ts, Writes name t)
    (h : ∀ t ∈ ts, Writes name t → Recast k t (t.withNames name)) :
    RecastAll k ts (withNamesAll name ts) := by
  rw [withNamesAll_eq_map]
  exact recastAll_of_forall fun t ht => h t ht (hname t ht)

/-- Naming its positions recasts a phrase. -/
theorem Within.recast_withNames {P : String → Prop} {t : Phrase} (h : Within P t)
    (hname : Writes name t) : Recast Exchange.parameters t (t.withNames name) := by
  induction h with
  | reference ht _ =>
      rw [withNames_of_names name ht.names]
      exact .atom (.reference ht) (Or.inl rfl)
  | @leaf _ l s hl =>
      refine .atom (.leaf s hl) ?_
      by_cases hindex : ∃ index, l = .positionalParameter index
      · obtain ⟨index, rfl⟩ := hindex
        exact Or.inr ⟨hl, name index, rfl, fun _ =>
          hname index (mem_positionalParameters_node.mpr (Or.inl rfl))⟩
      · exact Or.inl (withNames_node (fun index heq => hindex ⟨index, heq⟩) name)
  | @subselect _ cs items rest distinct s₁ s₂ s₃ hitems hjoins _ _ hfinal hselect hrest =>
      have hsame := withNamesAll_of_names name
        (names_of_items hitems (Query.Grammar.isJoin_of_joinsWithin hjoins))
      have hclauses : ((node .subselect (node (.selectClause distinct) cs s₁
          :: node .fromClause items s₂ :: rest) s₃).withNames name) =
          node .subselect (node (.selectClause distinct) (withNamesAll name cs) s₁
            :: node .fromClause items s₂ :: withNamesAll name rest) s₃ := by
        simp only [withNames, withNamesAll, hsame]
      rw [hclauses]
      have hclause : Writes name (node (.selectClause distinct) cs s₁) := hname.child (by simp)
      exact .subselect distinct s₁ s₂ s₃ rfl
        (recastAll_withNames (fun t ht => hclause.child ht) hselect)
        (recastAll_withNames (fun t ht => hname.child (by simp [ht])) hrest) hfinal
  | @compound _ l ts s hcompound _ ih =>
      have hne : ∀ index, l ≠ .positionalParameter index := by
        rintro index rfl
        cases hcompound
      rw [withNames_node hne]
      exact .compound s hcompound (recastAll_withNames (fun t ht => hname.child ht) ih)

theorem Writes.of_mem_nodes {t u : Phrase} (h : Writes name t) (hu : u ∈ t.nodes) :
    Writes name u := by
  intro index hindex
  rw [mem_positionalParameters, mem_placeholders] at hindex
  obtain ⟨hplaceholder, n, hn, hlabel⟩ := hindex
  exact h index (mem_positionalParameters.mpr
    (mem_placeholders.mpr ⟨hplaceholder, n, mem_nodes_trans hu hn, hlabel⟩))

end Phrase

end Query

/-- Naming its positions makes a statement or a rule a statement or a rule. -/
theorem Query.Grammar.DerivesText.withNames {t : Phrase} {name : Nat → String}
    (h : Query.Grammar.DerivesText t) (hname : t.Writes name) :
    Query.Grammar.DerivesText (t.withNames name) := by
  refine h.recast derivable_parameters (fun {l} cs s hl => ?_) (fun hu => ?_) fun u hu hwell =>
    hwell.recast_withNames (hname.of_mem_nodes hu)
  · rw [withNames_node (by rintro index rfl; cases hl), withNamesAll_eq_map]
  · obtain ⟨items, s, rfl, hitems⟩ := hu.shapes
    exact withNames_of_names name (Restriction.names_node rfl s (names_of_items
      (fun r hr => (hitems r hr).1) (Query.Grammar.isJoin_of_isItem hitems)))

/-! ## Names that can be written -/

/-- What can stand inside the name of a parameter can stand behind one. -/
theorem isParameterName_append {v w : String} (hv : isParameterName v)
    (hw : w.toList.all Query.Scan.isParameterPart) : isParameterName (v ++ w) := by
  obtain ⟨hhead, hall⟩ := (Bool.and_eq_true _ _).mp hv
  rw [isParameterName, String.toList_append, List.all_append, hall, hw, Bool.and_self,
    Bool.and_true]
  obtain ⟨c, hc, hletter⟩ := (Option.any_eq_true _ _).mp hhead
  rw [List.head?_append, hc]
  exact hletter

theorem isParameterName_underscored {base : String} (h : isParameterName base)
    (taken : List String) : isParameterName (Text.Fresh.underscored base taken) := by
  obtain ⟨i, -, -, heq⟩ := Text.Fresh.exists_underscored base taken
  rw [heq]
  refine isParameterName_append h ?_
  rw [String.toList_ofList, List.all_eq_true]
  intro c hc
  rw [List.eq_of_mem_replicate hc]
  decide

theorem isParameterName_position (index : Nat) : isParameterName s!"positional_{index}" := by
  have hbase : isParameterName "positional_" := by decide
  exact isParameterName_digits hbase index

namespace Restriction

variable {values : List (Nat × Value)} {allowed : Nat → Prop} {α β : Type}

/-- Each position has been named once, and its name can be written. -/
structure Tidy (made : List (Nat × String)) : Prop where
  once : (made.map Prod.fst).Nodup
  writable : ∀ p ∈ made, isParameterName p.2

/-- Steps that keep the names tidy, and fail at a position that has no value. -/
structure Attempts (values : List (Nat × Value)) (allowed : Nat → Prop) (p : Positions α) :
    Prop where
  tidy {state later : PositionNames} {a : α} : Tidy state.made →
    p.run state = .ok (a, later) → Tidy later.made
  lacking {state : PositionNames} {e : Fault} : p.run state = .error e → ∃ index, allowed index ∧
    values.lookup index = none ∧ e = .violation (.unboundPositional index)

namespace Attempts

theorem pure (a : α) : Attempts values allowed (pure a) where
  tidy h hr := by
    cases hr
    exact h
  lacking hr := nomatch hr

theorem bind {p : Positions α} {f : α → Positions β} (h : Attempts values allowed p)
    (hf : ∀ a, Attempts values allowed (f a)) : Attempts values allowed (p >>= f) where
  tidy hstate hr := by
    rw [StateT.run_bind] at hr
    obtain ⟨⟨a, middle⟩, ha, hb⟩ := Query.Scope.ok_of_bind hr
    exact (hf a).tidy (h.tidy hstate ha) hb
  lacking hr := by
    rw [StateT.run_bind] at hr
    obtain hfirst | ⟨r, -, hnext⟩ := Query.Scope.error_of_bind hr
    · exact h.lacking hfirst
    · exact (hf r.1).lacking hnext

end Attempts

theorem Tidy.add {made : List (Nat × String)} (h : Tidy made) {index : Nat} {name : String}
    (hnew : made.lookup index = none) (hname : isParameterName name) :
    Tidy (made ++ [(index, name)]) where
  once := by
    rw [List.map_append]
    refine List.nodup_append.mpr ⟨h.once, List.nodup_singleton index, ?_⟩
    intro other hother new hmem heq
    obtain ⟨p, hp, hkey⟩ := List.mem_map.mp hother
    have hne := bne_iff_ne.mp (List.lookup_eq_none_iff.mp hnew p hp)
    exact hne (by rw [hkey, heq, List.mem_singleton.mp hmem])
  writable p hp := by
    rcases List.mem_append.mp hp with hp | hp
    · exact h.writable p hp
    · rw [List.mem_singleton.mp hp]
      exact hname

theorem attempts_positionName {index : Nat} (hindex : allowed index) :
    Attempts values allowed (positionName values index) := by
  constructor
  · intro state later name hstate hr
    rw [run_positionName] at hr
    split at hr
    · cases hr
    · cases hr
      exact hstate
    · rename_i hnew
      cases hr
      exact hstate.add hnew
        (isParameterName_underscored (isParameterName_position index) state.taken)
  · intro state e hr
    rw [run_positionName] at hr
    split at hr
    · rename_i hnone
      cases hr
      exact ⟨index, hindex, hnone, rfl⟩
    · cases hr
    · cases hr

mutual

theorem attempts_nameParameters : ∀ t : Phrase, (∀ index ∈ t.positionalParameters, allowed index) →
    Attempts values allowed (nameParameters values t)
  | .node l cs s, hallowed => by
      by_cases hl : ∃ index, l = .positionalParameter index
      · obtain ⟨index, rfl⟩ := hl
        exact (attempts_positionName (hallowed index
          (mem_positionalParameters_node.mpr (Or.inl rfl)))).bind fun name => .pure _
      · rw [nameParameters_node fun index h => hl ⟨index, h⟩]
        exact (attempts_nameParametersAll cs fun c hc index hindex => hallowed index
          (mem_positionalParameters_node.mpr (Or.inr ⟨c, hc, hindex⟩))).bind fun ds => .pure _

theorem attempts_nameParametersAll : ∀ ts : List Phrase,
    (∀ t ∈ ts, ∀ index ∈ t.positionalParameters, allowed index) →
      Attempts values allowed (nameParametersAll values ts)
  | [], _ => .pure []
  | t :: ts, hallowed => by
      obtain ⟨ht, hts⟩ := List.forall_mem_cons.mp hallowed
      exact (attempts_nameParameters t ht).bind fun u =>
        (attempts_nameParametersAll ts hts).bind fun us => .pure (u :: us)

end

end Restriction

/-! ## In place -/

namespace RestrictedQuery

open Restriction

variable {q bound : RestrictedQuery} {values : List (Nat × Value)} {text : String} {t : Phrase}
  {α β : Type}

namespace InPlace

/-- What comes of some steps, and the query that they leave behind. -/
def perform (p : InPlace α) (q : RestrictedQuery) : Except Fault α × RestrictedQuery := p.run.run q

theorem perform_bind (p : InPlace α) (f : α → InPlace β) (q : RestrictedQuery) :
    (p >>= f).perform q = match p.perform q with
      | (.ok a, left) => (f a).perform left
      | (.error e, left) => (.error e, left) := by
  unfold perform
  rw [ExceptT.run_bind, StateT.run_bind]
  rcases p.run.run q with ⟨e | a, left⟩ <;> rfl

theorem perform_get_bind (f : RestrictedQuery → InPlace β) (q : RestrictedQuery) :
    (get >>= f : InPlace β).perform q = (f q).perform q := rfl

/-- A step that only gives a result, or fails, leaves the query. -/
theorem perform_ofExcept_bind (x : Except Fault α) (f : α → InPlace β) (q : RestrictedQuery) :
    (ofExcept x >>= f).perform q = match x with
      | .ok a => (f a).perform q
      | .error e => (.error e, q) := by
  cases x <;> rfl

end InPlace

/-- Binding names of positions that have values. -/
theorem perform_bindNames {made : List (Nat × String)}
    (h : ∀ p ∈ made, (values.lookup p.1).isSome) (q : RestrictedQuery) :
    (made.forM (bindName values)).perform q =
      (.ok (), { q with parameters := q.parameters.bindAll (boundNames values made) }) := by
  induction made generalizing q with
  | nil => rfl
  | cons p made ih =>
      obtain ⟨hp, hmade⟩ := List.forall_mem_cons.mp h
      obtain ⟨index, name⟩ := p
      obtain ⟨v, hv⟩ := Option.isSome_iff_exists.mp hp
      have hstep : (bindName values (index, name)).perform q =
          (.ok (), { q with parameters := q.parameters.bind name v }) := by
        rw [bindName, hv]
        rfl
      have hbound : boundNames values ((index, name) :: made) =
          (name, v) :: boundNames values made := by
        rw [boundNames, List.map_cons, hv]
        rfl
      rw [hbound]
      show (bindName values (index, name) >>= fun _ => made.forM (bindName values)).perform q = _
      rw [InPlace.perform_bind, hstep]
      exact ih hmade { q with parameters := q.parameters.bind name v }

/-- The steps leave the bound query if there is one, and otherwise the query as it was: all that
can fail comes before the first change. -/
theorem perform_bindInPlace (values : List (Nat × Value)) (q : RestrictedQuery) :
    (bindInPlace values).perform q = match q.bindPositional values with
      | .ok bound => (.ok (), bound)
      | .error e => (.error e, q) := by
  unfold bindInPlace bindPositional
  rw [InPlace.perform_get_bind]
  cases htext : q.text? with
  | none => rfl
  | some text =>
      simp only [InPlace.perform_ofExcept_bind]
      cases hread : (Phrase.ofText text).mapError Fault.unreadable with
      | error e => rfl
      | ok t =>
          simp only [bind, Except.bind]
          cases hnamed : (nameParameters values t).run
              { taken := q.parameters.names ++ t.namedParameters } with
          | error e => rfl
          | ok r =>
              obtain ⟨u, final⟩ := r
              obtain ⟨-, hcovers, horderly⟩ := eq_withNames_of_run (ok_of_mapError hread) hnamed
              cases hmade : final.made.isEmpty with
              | true =>
                  simp only [hmade, if_true]
                  rfl
              | false =>
                  simp only [hmade, Bool.false_eq_true, if_false]
                  have hvalues : ∀ p ∈ final.made, (values.lookup p.1).isSome :=
                    fun p hp => (hcovers p.1 (horderly.allowed p hp)).1
                  show InPlace.perform (final.made.forM (bindName values) >>= _) q = _
                  rw [InPlace.perform_bind, perform_bindNames hvalues]
                  rfl

/-! ## What binding does -/

/-- Why the positions of a query cannot be bound: its text cannot be read, or a position in it
has no value. -/
inductive Unbindable (q : RestrictedQuery) (values : List (Nat × Value)) : Fault → Prop
  | unreadable {text : String} {e : Source.SyntaxError} : q.text? = some text →
      Phrase.ofText text = .error e → Unbindable q values (.unreadable e)
  | unbound {text : String} {t : Phrase} {index : Nat} : q.text? = some text →
      Phrase.ofText text = .ok t → index ∈ t.positionalParameters → values.lookup index = none →
        Unbindable q values (.violation (.unboundPositional index))

/-- A query with names for its positions, if its text is read as `t`: the new text has the new
parameters in their places, however it is read, and is read as it was meant unless a trimming is
misread. -/
structure BindsPositions (q : RestrictedQuery) (values : List (Nat × Value)) (t : Phrase)
    (name : Nat → String) (bound : RestrictedQuery) : Prop
    extends NamesPositions q values t name bound where
  others (n : String) : n ∉ t.positionalParameters.map name →
    bound.parameters.find? n = q.parameters.find? n
  rest : { bound with text? := q.text?, parameters := q.parameters } = q
  places : (t.withNames name).placeholders = t.placeholders.map (Label.withName name)
  reread (u : Phrase) : Phrase.ofText (t.withNames name).render = .ok u →
    u.placeholders = t.placeholders.map (Label.withName name)
  readBack : (t.withNames name).contains Query.Grammar.isMisread = false →
    ∃ u, Phrase.ofText (t.withNames name).render = .ok u ∧ u.same (t.withNames name) = true

theorem unbindable_of_error {e : Fault} (h : q.bindPositional values = .error e) :
    Unbindable q values e := by
  unfold bindPositional at h
  cases htext : q.text? with
  | none =>
      rw [htext] at h
      cases h
  | some text =>
      rw [htext] at h
      obtain hread | ⟨t, hread, h⟩ := Query.Scope.error_of_bind h
      · cases hparsed : Phrase.ofText text with
        | error e' =>
            rw [hparsed] at hread
            cases hread
            exact .unreadable htext hparsed
        | ok t =>
            rw [hparsed] at hread
            cases hread
      · obtain hnamed | ⟨r, -, h⟩ := Query.Scope.error_of_bind h
        · obtain ⟨index, hindex, hnone, rfl⟩ :=
            (attempts_nameParameters t fun _ => id).lacking hnamed
          exact .unbound htext (ok_of_mapError hread) hindex hnone
        · simp only at h
          split at h <;> cases h

/-- The names for the positions of a text stand for their positions only, and can be written. -/
theorem tidy_of_run {t u : Phrase} {before : List String} {final : PositionNames}
    (hnamed : (nameParameters values t).run { taken := before } = .ok (u, final)) :
    Tidy final.made := by
  have hstart : Tidy (PositionNames.made { taken := before }) := ⟨List.nodup_nil, nofun⟩
  exact (attempts_nameParameters t fun _ => id).tidy hstart hnamed

theorem bindsPositions_of_ok (htext : q.text? = some text)
    (h : q.bindPositional values = .ok bound) :
    ∃ t name, Phrase.ofText text = .ok t ∧ BindsPositions q values t name bound := by
  obtain ⟨t, u, final, ht, hnamed, rfl⟩ := exists_names htext h
  obtain ⟨-, hcovers, horderly⟩ := eq_withNames_of_run ht hnamed
  have htidy := tidy_of_run hnamed
  have hderives := Query.Grammar.derivesText_of_ofText ht
  have hwrites : t.Writes (nameIn final.made) := by
    intro index hindex
    have hmem := hcovers.mem hindex
    exact htidy.writable (index, nameIn final.made index) hmem
  have hplaces := placeholders_withNames (nameIn final.made) t hderives.looseParameters
  refine ⟨t, nameIn final.made, ht, namesPositions_of_run ht hnamed, fun n hn => ?_, ?_, hplaces,
    fun u hu => ?_, fun hplain => ?_⟩
  · split
    · rfl
    · have hnodup : (boundNames values final.made).names.Nodup := by
        rw [names_boundNames]
        exact horderly.nodup
      have hfresh : n ∉ (boundNames values final.made).names := by
        rw [names_boundNames]
        intro hmem
        obtain ⟨p, hp, rfl⟩ := List.mem_map.mp hmem
        have hname : nameIn final.made p.1 = p.2 := by
          rw [nameIn, lookup_eq_some_of_mem htidy.once hp, Option.getD_some]
        exact hn (List.mem_map.mpr ⟨p.1, horderly.allowed p hp, hname⟩)
      rw [Bindings.find?_bindAll hnodup, Bindings.find?_eq_none hfresh, Option.none_or]
  · split <;> rfl
  · rw [Query.Grammar.placeholders_reread (hderives.withNames hwrites) hu, hplaces]
  · exact ((hderives.withNames hwrites).reprints (Query.Grammar.plain_of_contains hplain)).1.read

/-- Binding the positions of a query in place leaves it as it was if it fails, which it does only
if the text cannot be read or a position has no value; otherwise it gives each position a name of
its own that is new to the query and its parameters, binds it to the value of the position and
puts it in all places of the position, and changes nothing else. -/
theorem bindInPlace_binds_or_leaves (q : RestrictedQuery) (values : List (Nat × Value)) :
    match (bindInPlace values).perform q with
    | (.error e, left) => left = q ∧ q.bindPositional values = .error e ∧ Unbindable q values e
    | (.ok (), left) => q.bindPositional values = .ok left ∧ (q.text? = none → left = q) ∧
        ∀ text, q.text? = some text →
          ∃ t name, Phrase.ofText text = .ok t ∧ BindsPositions q values t name left := by
  rw [perform_bindInPlace]
  cases hbound : q.bindPositional values with
  | error e => exact ⟨rfl, rfl, unbindable_of_error hbound⟩
  | ok left =>
      refine ⟨rfl, fun hnone => ?_, fun text htext => bindsPositions_of_ok htext hbound⟩
      unfold bindPositional at hbound
      rw [hnone] at hbound
      cases hbound
      rfl

/-- A query with a position that stands in two places, and a parameter with the name that the
other position would get. -/
def levelQuery : RestrictedQuery where
  text? := some "SELECT d FROM Document d WHERE d.level > ?1 AND d.title <> ?2 OR d.level = ?1"
  parameters := [("positional_2", .string "taken")]
  selectedPaths := ["d"]
  resultType? := none

theorem bindInPlace_levelQuery : ∃ left,
    (bindInPlace [(1, .integer 3), (2, .string "draft")]).perform levelQuery = (.ok (), left) ∧
      left.text? = some ("SELECT d FROM Document d WHERE d.level > :positional_1 AND " ++
        "d.title <> :positional_2_ OR d.level = :positional_1") ∧
      ∃ t name, Phrase.ofText ("SELECT d FROM Document d WHERE d.level > ?1 AND " ++
          "d.title <> ?2 OR d.level = ?1") = .ok t ∧
        BindsPositions levelQuery [(1, .integer 3), (2, .string "draft")] t name left := by
  have hleft := bindInPlace_binds_or_leaves levelQuery [(1, .integer 3), (2, .string "draft")]
  have htext : ((bindInPlace [(1, .integer 3), (2, .string "draft")]).perform levelQuery).2.text? =
      some ("SELECT d FROM Document d WHERE d.level > :positional_1 AND " ++
        "d.title <> :positional_2_ OR d.level = :positional_1") := by decide +kernel
  have hok : ((bindInPlace [(1, .integer 3), (2, .string "draft")]).perform
      levelQuery).1.isOk := by decide +kernel
  generalize (bindInPlace [(1, .integer 3), (2, .string "draft")]).perform levelQuery = r at *
  obtain ⟨e | ⟨⟩, left⟩ := r
  · cases hok
  · exact ⟨left, rfl, htext, hleft.2.2 _ rfl⟩

end RestrictedQuery

end RowGuard
