import RowGuard.Proofs.Conditions

/-!
# What a select list gives away

The paths that are restricted are those that the select list names where it is
looked at: at its items and inside of aggregates, result objects and brackets.
A query is refused exactly if one of these leads to a type for which no rule can
grant anything.
-/

namespace RowGuard

open Query (AccessKind Label Phrase Statement)
open Query.Phrase

/-! ## Exposed references -/

/-- Labels below which a select list is looked at. -/
def Query.Label.passesOn : Label → Bool
  | .aggregate _ _ | .newObject _ | .brackets => true
  | _ => false

namespace Query.Phrase

/-- What stands at a place of a phrase that the restriction looks at. -/
inductive Exposes : Phrase → Phrase → Prop
  | self (t : Phrase) : Exposes t t
  | inside {l : Label} {cs : List Phrase} {t u : Phrase} (s : Source.Span) (hl : l.passesOn)
      (ht : t ∈ cs) (hu : Exposes t u) : Exposes (.node l cs s) u

theorem exposes_node_iff {l : Label} {cs : List Phrase} {s : Source.Span} {u : Phrase} :
    Exposes (.node l cs s) u ↔ u = .node l cs s ∨ l.passesOn ∧ ∃ t ∈ cs, Exposes t u := by
  constructor
  · rintro (_ | ⟨_, hl, ht, hu⟩)
    · exact Or.inl rfl
    · exact Or.inr ⟨hl, _, ht, hu⟩
  · rintro (rfl | ⟨hl, t, ht, hu⟩)
    · exact .self _
    · exact .inside s hl ht hu

/-- A node below which nothing is looked at names itself at most. -/
theorem selectedPaths_of_not_passesOn {l : Label} (hl : ¬l.passesOn) (cs : List Phrase)
    (s : Source.Span) : (node l cs s).selectedPaths = (node l cs s).dotted?.toList := by
  cases l <;> simp_all [Label.passesOn, selectedPaths, dotted?]

theorem selectedPaths_of_passesOn {l : Label} (hl : l.passesOn) (cs : List Phrase)
    (s : Source.Span) : (node l cs s).selectedPaths = selectedPathsAll cs := by
  cases l <;> first | rfl | cases hl

theorem dotted?_of_passesOn {l : Label} (hl : l.passesOn) (cs : List Phrase)
    (s : Source.Span) : (node l cs s).dotted? = none := by
  cases l <;> first | rfl | cases hl

theorem mem_selectedPathsAll {ts : List Phrase} {text : String} :
    text ∈ selectedPathsAll ts ↔ ∃ t ∈ ts, text ∈ t.selectedPaths := by
  induction ts with
  | nil => simp [selectedPathsAll]
  | cons t ts ih => simp [selectedPathsAll, ih]

/-- The selected paths are the dotted texts of what is exposed. -/
theorem mem_selectedPaths : ∀ {t : Phrase} {text : String},
    text ∈ t.selectedPaths ↔ ∃ u, Exposes t u ∧ u.dotted? = some text
  | .node l cs s, text => by
      by_cases hl : l.passesOn
      · have hinner : (∃ t ∈ cs, text ∈ t.selectedPaths) ↔
            ∃ t ∈ cs, ∃ u, Exposes t u ∧ u.dotted? = some text :=
          exists_congr fun t => and_congr_right fun ht => mem_selectedPaths
        rw [selectedPaths_of_passesOn hl, mem_selectedPathsAll, hinner]
        constructor
        · rintro ⟨t, ht, u, hu, htext⟩
          exact ⟨u, .inside s hl ht hu, htext⟩
        · rintro ⟨u, hu, htext⟩
          rcases exposes_node_iff.mp hu with rfl | ⟨-, t, ht, hu⟩
          · rw [dotted?_of_passesOn hl] at htext
            cases htext
          · exact ⟨t, ht, u, hu, htext⟩
      · rw [selectedPaths_of_not_passesOn hl, Option.mem_toList]
        constructor
        · exact fun htext => ⟨_, .self _, htext⟩
        · rintro ⟨u, hu, htext⟩
          rcases exposes_node_iff.mp hu with rfl | ⟨hpass, -⟩
          · exact htext
          · exact absurd hpass hl

end Query.Phrase

/-- What the select list of a statement exposes. -/
def Query.Statement.Exposes (s : Statement) (u : Phrase) : Prop :=
  ∃ clause item, s.phrase.findChild? Label.isSelectClause = some clause ∧
    item ∈ clause.children ∧ item.Exposes u

theorem Query.Statement.eq_assemble_of_ofPhrase {model? : Option Query.TypeModel} {t : Phrase}
    {s : Statement} (h : Statement.ofPhrase model? t = .ok s) :
    ∃ definitions subselects, s = .assemble s.kind t.normalize definitions subselects := by
  unfold ofPhrase at h
  simp only at h
  split at h
  · obtain ⟨definitions, -, h⟩ := Query.Scope.ok_of_bind h
    obtain ⟨subselects, -, h⟩ := Query.Scope.ok_of_bind h
    cases h
    exact ⟨definitions, subselects, rfl⟩
  · cases h

theorem Query.Statement.mem_selectedPaths {model? : Option Query.TypeModel} {t : Phrase}
    {s : Statement} (h : Statement.ofPhrase model? t = .ok s) (hkind : s.kind = .select)
    {text : String} :
    text ∈ s.selectedPaths ↔ ∃ u, s.Exposes u ∧ u.dotted? = some text := by
  obtain ⟨definitions, subselects, heq⟩ := eq_assemble_of_ofPhrase h
  rw [hkind] at heq
  subst heq
  unfold Exposes assemble
  simp only
  cases hclause : t.normalize.findChild? Label.isSelectClause with
  | none => simp
  | some clause =>
      simp only [Option.some.injEq, Phrase.mem_selectedPathsAll, Phrase.mem_selectedPaths]
      constructor
      · rintro ⟨item, hitem, u, hu, htext⟩
        exact ⟨u, ⟨clause, item, rfl, hitem, hu⟩, htext⟩
      · rintro ⟨u, ⟨_, item, rfl, hitem, hu⟩, htext⟩
        exact ⟨item, hitem, u, hu, htext⟩

/-! ## Object paths -/

namespace Text.Dotted

theorem not_mem_cut (cs : List Char) : '.' ∉ (cut cs).1 ∧ ∀ part ∈ (cut cs).2, '.' ∉ part := by
  induction cs with
  | nil => simp [cut]
  | cons c cs ih =>
      obtain ⟨hfirst, hmore⟩ := ih
      simp only [cut]
      split
      · simpa using ⟨hfirst, hmore⟩
      · rename_i hc
        exact ⟨by simp [Ne.symm hc, hfirst], hmore⟩

theorem not_mem_parts (s : String) : ∀ part ∈ parts s, '.' ∉ part.toList := by
  obtain ⟨hfirst, hmore⟩ := not_mem_cut s.toList
  intro part hpart
  rcases List.mem_cons.mp hpart with rfl | hpart
  · simpa [first] using hfirst
  · obtain ⟨cs, hcs, rfl⟩ := List.mem_map.mp hpart
    simpa using hmore cs hcs

theorem join_concat (w : String) (ws : List String) (v : String) :
    join (w :: ws) ++ "." ++ v = join (w :: (ws ++ [v])) := by
  induction ws generalizing w with
  | nil => simp [join]
  | cons u ws ih =>
      have hcons : ∀ (a b : String) (cs : List String),
          join (a :: b :: cs) = a ++ "." ++ join (b :: cs) := fun a b cs =>
        String.intercalate_cons_cons
      rw [hcons, List.cons_append, hcons, ← ih]
      simp only [String.append_assoc]

end Text.Dotted

namespace Restriction

open Text.Dotted

/-- An object path is a beginning of the path, and its own longest one. -/
theorem longestPrefix_eq (m : Mapping) (x : String) (type : String) (ws done : List String) :
    ∃ ps, ps <+: ws ∧ (longestPrefix m (join (x :: done)) type ws).1 = join (x :: (done ++ ps)) ∧
      longestPrefix m (join (x :: done)) type ps = longestPrefix m (join (x :: done)) type ws := by
  induction ws generalizing type done with
  | nil => exact ⟨[], List.nil_prefix, by simp [longestPrefix], rfl⟩
  | cons w ws ih =>
      unfold longestPrefix
      split
      · rename_i target htarget
        obtain ⟨ps, hps, hpath, hsame⟩ := ih target (done ++ [w])
        rw [join_concat]
        refine ⟨w :: ps, List.cons_prefix_cons.mpr ⟨rfl, hps⟩, by simpa using hpath, ?_⟩
        simp only [htarget, join_concat]
        exact hsame
      · exact ⟨[], List.nil_prefix, by simp, rfl⟩

theorem objectPath?_eq_some {m : Mapping} {s : Statement} {selected path type : String} :
    objectPath? m s selected = some (path, type) ↔
      ∃ d own, s.definition? (first selected) = some d ∧ d.type? = some own ∧
        longestPrefix m (first selected) own (others selected) = (path, type) := by
  unfold objectPath?
  simp only [Option.bind_eq_bind, Option.bind_eq_some_iff]
  constructor
  · rintro ⟨d, hd, own, hown, heq⟩
    exact ⟨d, own, hd, hown, Option.some.inj heq⟩
  · rintro ⟨d, own, hd, hown, heq⟩
    exact ⟨d, hd, own, hown, congrArg some heq⟩

/-- The object path of a selected path starts at the same alias, and it is the object
path of itself. -/
theorem objectPath?_self {m : Mapping} {s : Statement} {selected path type : String}
    (h : objectPath? m s selected = some (path, type)) :
    objectPath? m s path = some (path, type) := by
  obtain ⟨d, own, hd, hown, heq⟩ := objectPath?_eq_some.mp h
  obtain ⟨ps, hps, hpath, hsame⟩ := longestPrefix_eq m (first selected) own (others selected) []
  rw [show join [first selected] = first selected by simp [join], heq] at hpath hsame
  have hpoints : ∀ v ∈ first selected :: ps, '.' ∉ v.toList := fun v hv =>
    not_mem_parts selected v (List.cons_subset_cons _ hps.subset hv)
  obtain ⟨hfirst, hothers⟩ := parts_join hpoints
  simp only [List.nil_append] at hpath
  subst hpath
  refine objectPath?_eq_some.mpr ⟨d, own, ?_, hown, ?_⟩
  · rw [hfirst]
    exact hd
  · rw [hfirst, hothers]
    exact hsame

/-- Each path is kept once, and with it the one type that it has. -/
theorem mem_foldl_addPath {ps start : List (String × String)}
    (hone : ∀ p ∈ start ++ ps, ∀ q ∈ start ++ ps, p.1 = q.1 → p = q) (p : String × String) :
    p ∈ ps.foldl addPath start ↔ p ∈ start ++ ps := by
  induction ps generalizing start with
  | nil => simp
  | cons q ps ih =>
      rw [List.foldl_cons]
      by_cases hq : start.any fun r => r.1 == q.1
      · have hadd : addPath start q = start := by simp [addPath, hq]
        have hmem : ∀ r, r ∈ start ++ ps → r ∈ start ++ q :: ps := by
          intro r hr
          rcases List.mem_append.mp hr with hr | hr <;> simp [hr]
        rw [hadd, ih fun a ha b hb => hone a (hmem a ha) b (hmem b hb)]
        obtain ⟨r, hr, heq⟩ := List.any_eq_true.mp hq
        have hrq : r = q := hone r (by simp [hr]) q (by simp) (eq_of_beq heq)
        subst hrq
        refine ⟨hmem p, fun hp => ?_⟩
        rcases List.mem_append.mp hp with hp | hp
        · exact List.mem_append_left ps hp
        · rcases List.mem_cons.mp hp with rfl | hp
          · exact List.mem_append_left ps hr
          · exact List.mem_append_right start hp
      · have hadd : addPath start q = start ++ [q] := by simp [addPath, hq]
        rw [hadd, ih (by simpa only [List.append_assoc, List.singleton_append] using hone)]
        simp

/-- The object paths are those of the selected paths. -/
theorem mem_objectPaths {m : Mapping} {s : Statement} {p : String × String} :
    p ∈ objectPaths m s ↔ ∃ selected ∈ s.selectedPaths, objectPath? m s selected = some p := by
  unfold objectPaths
  rw [mem_foldl_addPath, List.nil_append, List.mem_filterMap]
  rintro ⟨path, type⟩ hp ⟨path', type'⟩ hq rfl
  rw [List.nil_append] at hp hq
  obtain ⟨a, -, ha⟩ := List.mem_filterMap.mp hp
  obtain ⟨b, -, hb⟩ := List.mem_filterMap.mp hq
  exact Option.some.inj ((objectPath?_self ha).symm.trans (objectPath?_self hb))

/-! ## Refusal -/

/-- An object path with its type that the select list of a statement gives away. -/
def Reads (m : Mapping) (s : Statement) (p : String × String) : Prop :=
  ∃ u selected, s.Exposes u ∧ u.dotted? = some selected ∧ objectPath? m s selected = some p

theorem reads_iff {model? : Option Query.TypeModel} {m : Mapping} {t : Phrase} {s : Statement}
    (h : Statement.ofPhrase model? t = .ok s) (hkind : s.kind = .select)
    {p : String × String} : Reads m s p ↔ p ∈ objectPaths m s := by
  rw [mem_objectPaths]
  simp only [Statement.mem_selectedPaths h hkind]
  constructor
  · rintro ⟨u, selected, hu, hselected, hp⟩
    exact ⟨selected, ⟨u, hu, hselected⟩, hp⟩
  · rintro ⟨selected, ⟨u, hu, hselected⟩, hp⟩
    exact ⟨u, selected, hu, hselected, hp⟩

/-- No rule for a type can grant what the context asks for. -/
def Denied (ev : Evaluator) (policy : Policy) (kind : AccessKind) (c : SecurityContext)
    (now : Timestamp) (type : String) : Prop :=
  ∀ r ∈ policy.rulesForType ev.mapping type kind, (verdict ev c now r).outcome = .ok .denied

variable {ev : Evaluator} {policy : Policy} {kind : AccessKind} {c : SecurityContext}
  {now : Timestamp}

theorem Instantiated.eq_nil_of_denied {taken : List String} {path : String}
    {rules : List AccessRule} {state final : ContextParameters} {cs : List Phrase}
    (h : Instantiated ev c now taken path rules state cs final)
    (hdenied : ∀ r ∈ rules, (verdict ev c now r).outcome = .ok .denied) : cs = [] := by
  induction h with
  | nil => rfl
  | denied _ _ ih => exact ih fun r hr => hdenied r (List.mem_cons_of_mem _ hr)
  | @depends r _ _ _ _ _ _ hverdict _ _ _ =>
      cases hverdict.symm.trans (hdenied r (by simp))

/-- A restriction that succeeds has met no type whose rules all deny. -/
theorem Restricted.not_denied {taken : List String} {paths : List (String × String)}
    {state final : ContextParameters} {found : List Phrase}
    (h : Restricted ev policy kind c now taken paths state found final) :
    ∀ p ∈ paths, ¬Denied ev policy kind c now p.2 := by
  induction h with
  | nil => simp
  | granted hgranted _ ih =>
      obtain ⟨earlier, r, later, cs, heq, hverdict, -⟩ := hgranted
      rintro p (_ | ⟨_, hp⟩) hdenied
      · cases hverdict.symm.trans (hdenied r (by simp [heq]))
      · exact ih p hp hdenied
  | required hne hmade _ ih =>
      rintro p (_ | ⟨_, hp⟩) hdenied
      · exact hne (hmade.eq_nil_of_denied hdenied)
      · exact ih p hp hdenied

theorem effectiveKind_select {s : Statement} (hkind : s.kind = .select) (kind : AccessKind) :
    effectiveKind s kind = kind := by
  simp [effectiveKind, hkind]

/-- A restricted query is refused exactly if something is read that no rule grants. -/
theorem text?_eq_none_iff {s : Statement} {result : RestrictedQuery}
    (h : (restrict ev policy s kind c now).outcome = .ok result) :
    result.text? = none ↔
      ∃ p ∈ objectPaths ev.mapping s, Denied ev policy (effectiveKind s kind) c now p.2 := by
  rw [outcome_restrict] at h
  split at h
  · cases h
  · rename_i final hnone
    cases h
    exact ⟨fun _ => restrictions_eq_none hnone, fun _ => rfl⟩
  · rename_i found final hsome
    cases h
    have hnot := (restrictions_eq_some hsome).not_denied
    exact ⟨nofun, fun ⟨p, hp, hdenied⟩ => absurd hdenied (hnot p hp)⟩

theorem restrict_eq_error {s : Statement} {e : Fault}
    (h : (restrict ev policy s kind c now).outcome = .error e) :
    ∃ p ∈ objectPaths ev.mapping s,
      ∃ r ∈ policy.rulesForType ev.mapping p.2 (effectiveKind s kind),
        (verdict ev c now r).outcome = .error e := by
  rw [outcome_restrict] at h
  split at h
  · rename_i hfails
    cases h
    exact restrictions_eq_error hfails
  · cases h
  · cases h

/-- What the select list gives away of a type without rules makes the query be refused,
unless a rule for something else that it gives away fails.  It is refused for
nothing else, and what the select list mentions elsewhere is not restricted. -/
theorem refused_without_rules (ev : Evaluator) (policy : Policy) (kind : AccessKind)
    (c : SecurityContext) (now : Timestamp) {t : Phrase} {s : Statement}
    (hs : Statement.ofPhrase (some ev.mapping.model) t = .ok s) (hkind : s.kind = .select) :
    (∀ path type, Reads ev.mapping s (path, type) →
      policy.rulesForType ev.mapping type kind = [] →
        (∃ result, (restrict ev policy s kind c now).outcome = .ok result ∧ result.text? = none) ∨
        ∃ path' type' r e, Reads ev.mapping s (path', type') ∧
          r ∈ policy.rulesForType ev.mapping type' kind ∧
          (verdict ev c now r).outcome = .error e ∧
          (restrict ev policy s kind c now).outcome = .error e) ∧
    (∀ result, (restrict ev policy s kind c now).outcome = .ok result → result.text? = none →
      ∃ path type, Reads ev.mapping s (path, type) ∧ Denied ev policy kind c now type) ∧
    ((∀ path type, ¬Reads ev.mapping s (path, type)) →
      ∃ result, (restrict ev policy s kind c now).outcome = .ok result ∧
        result.text? = some s.phrase.render ∧ result.parameters = []) := by
  refine ⟨fun path type hreads hnone => ?_, fun result hresult hrefused => ?_, fun hunread => ?_⟩
  · cases houtcome : (restrict ev policy s kind c now).outcome with
    | error e =>
        obtain ⟨⟨path', type'⟩, hp, r, hr, hfails⟩ := restrict_eq_error houtcome
        rw [effectiveKind_select hkind] at hr
        exact Or.inr ⟨path', type', r, e, (reads_iff hs hkind).mpr hp, hr, hfails, rfl⟩
    | ok result =>
        refine Or.inl ⟨result, rfl, (text?_eq_none_iff houtcome).mpr
          ⟨(path, type), (reads_iff hs hkind).mp hreads, ?_⟩⟩
        rw [effectiveKind_select hkind]
        simp [Denied, hnone]
  · obtain ⟨⟨path, type⟩, hp, hdenied⟩ := (text?_eq_none_iff hresult).mp hrefused
    rw [effectiveKind_select hkind] at hdenied
    exact ⟨path, type, (reads_iff hs hkind).mpr hp, hdenied⟩
  · have hpaths : objectPaths ev.mapping s = [] :=
      List.eq_nil_iff_forall_not_mem.mpr fun p hp => hunread p.1 p.2 ((reads_iff hs hkind).mpr hp)
    rw [outcome_restrict, hpaths]
    exact ⟨_, rfl, rfl, rfl⟩

/-- Without any rule an aggregate over an alias is refused. -/
theorem refused_without_rules_count :
    let ev : Evaluator := { world := ⟨[]⟩, mapping := { classes := [{ name := "Document" }] },
                            strategies := [.simple] }
    ∃ t s, Phrase.ofText "SELECT COUNT(x) FROM Document x" = .ok t ∧
      Statement.ofPhrase (some ev.mapping.model) t = .ok s ∧
      ∃ result, (restrict ev { rules := [] } s .read .anonymous default).outcome = .ok result ∧
        result.text? = none := by
  intro ev
  have hfound : (Phrase.ofText "SELECT COUNT(x) FROM Document x").toOption.any fun t =>
      (Statement.ofPhrase (some ev.mapping.model) t).toOption.any fun s =>
        s.kind == .select && objectPaths ev.mapping s == [("x", "Document")] := by decide +kernel
  obtain ⟨t, ht, hfound⟩ := Query.Scope.ok_of_any hfound
  obtain ⟨s, hs, hfound⟩ := Query.Scope.ok_of_any hfound
  rw [Bool.and_eq_true, beq_iff_eq, beq_iff_eq] at hfound
  refine ⟨t, s, ht, hs, ?_⟩
  have hreads : Reads ev.mapping s ("x", "Document") :=
    (reads_iff hs hfound.1).mpr (by simp [hfound.2])
  rcases (refused_without_rules ev { rules := [] } .read .anonymous default hs hfound.1).1
    "x" "Document" hreads (by decide +kernel) with hrefused | ⟨_, type, r, _, _, hr, _⟩
  · exact hrefused
  · have hnone : ({ rules := [] } : Policy).rulesForType ev.mapping type .read = [] := by
      unfold Policy.rulesForType
      split <;> rfl
    rw [hnone] at hr
    cases hr

/-- Inside of arithmetic nothing is exposed: without any rule the query passes as it is. -/
theorem not_refused_in_arithmetic :
    let ev : Evaluator :=
      { world := ⟨[]⟩, strategies := [.simple]
        mapping := { classes := [{ name := "Document", properties := [⟨"level", .basic⟩] }] } }
    ∃ t s result, Phrase.ofText "SELECT x.level + 1 FROM Document x" = .ok t ∧
      Statement.ofPhrase (some ev.mapping.model) t = .ok s ∧
      (restrict ev { rules := [] } s .read .anonymous default).outcome = .ok result ∧
      result.text? = some "SELECT x.level + 1 FROM Document x" := by
  intro ev
  have hfound : (Phrase.ofText "SELECT x.level + 1 FROM Document x").toOption.any fun t =>
      (Statement.ofPhrase (some ev.mapping.model) t).toOption.any fun s =>
        (restrict ev { rules := [] } s .read .anonymous default).outcome.toOption.any fun result =>
          result.text? == some "SELECT x.level + 1 FROM Document x" := by decide +kernel
  obtain ⟨t, ht, hfound⟩ := Query.Scope.ok_of_any hfound
  obtain ⟨s, hs, hfound⟩ := Query.Scope.ok_of_any hfound
  obtain ⟨result, hresult, htext⟩ := Query.Scope.ok_of_any hfound
  exact ⟨t, s, result, ht, hs, hresult, beq_iff_eq.mp htext⟩

end Restriction

end RowGuard
