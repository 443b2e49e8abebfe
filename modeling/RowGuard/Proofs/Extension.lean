import RowGuard.Proofs.Settling

/-!
# More aliases

Binding further aliases keeps what has been settled without them.  A subselect
whose names are all bound is the same question in both environments, one that
names an alias not bound yet is undefined, and everything else goes by the
operands.
-/

namespace RowGuard

open Query (AliasDefinition Label Phrase Statement)
open Query.Phrase
open Query.Scope

/-- The second environment binds what the first one binds, and maybe more aliases. -/
structure Environment.Extends (env env' : Environment) : Prop where
  held : ∀ n, env.held n ≠ [] → env.held n = env'.held n
  named : env.named = env'.named
  positional : env.positional = env'.positional
  context : env.context? = env'.context?
  now : env.now = env'.now

/-- Bound names and leaves stand for themselves. -/
def Link.bound (P : String → Prop) : Link where
  free n x ws := x = n ∧ ws = [] ∧ P n
  leaf l m := l = m
  roles _ := False
  exact := True

theorem Query.Phrase.Within.self {P : String → Prop} {t : Phrase} (h : Within P t) {d : Nat}
    (hd : t.depth ≤ d) : Corresponds (Link.bound P) d d [] t t :=
  h.corresponds (k := Link.bound P) (fun _ _ _ => rfl) (by simp [Diagonal])
    (fun _ hn => Or.inr ⟨rfl, rfl, hn⟩) hd

mutual

theorem mem_nodes_trans : ∀ {t u v : Phrase}, u ∈ t.nodes → v ∈ u.nodes → v ∈ t.nodes
  | .node l cs s, u, v, hu, hv => by
      simp only [nodes, visit, if_true, List.mem_cons] at hu
      rcases hu with rfl | hu
      · exact hv
      · simp only [nodes, visit, if_true, List.mem_cons]
        exact Or.inr (mem_visitAll_trans hu hv)

theorem mem_visitAll_trans : ∀ {ts : List Phrase} {u v : Phrase},
    u ∈ visitAll (fun _ => true) ts → v ∈ u.nodes → v ∈ visitAll (fun _ => true) ts
  | [], u, v, hu, _ => by simp [visitAll] at hu
  | t :: ts, u, v, hu, hv => by
      simp only [visitAll, List.mem_append] at hu ⊢
      rcases hu with hu | hu
      · exact Or.inl (mem_nodes_trans (t := t) hu hv)
      · exact Or.inr (mem_visitAll_trans hu hv)

end

section Extension

variable {lenient : Prop} {ev : Evaluator} {env env' : Environment}

theorem Environment.terminal?_of_isLeaf (h : env.Extends env') {l : Label} (hleaf : l.isLeaf) :
    Expression.terminal? env l = Expression.terminal? env' l := by
  cases l <;> first
    | rfl
    | exact absurd hleaf Bool.false_ne_true
    | simp [Expression.terminal?, Expression.clock, Environment.named?, Environment.positional?,
        h.named, h.positional, h.context, h.now]

/-- Environments agree on the names that are bound in the one that binds less. -/
theorem Environment.Extends.agree (h : env.Extends env') (lenient : Prop) (ev : Evaluator)
    {P : String → Prop} (hbound : ∀ n, P n → env.held n ≠ []) :
    EnvironmentsAgree lenient ev (Link.bound P) [] env env' where
  names n x ws href := by
    obtain ⟨rfl, rfl, hn⟩ := Refers.nil_iff.mp href
    exact Or.inl ⟨rfl, h.held _ (hbound _ hn)⟩
  leaf l l' hl hl' hleaf := by
    cases hleaf
    exact Environment.terminal?_of_isLeaf h hl
  roles names hroles := hroles.elim
  same _ := ⟨h.named, h.positional, h.context⟩

/-- The names in a scope are bound. -/
theorem Environment.held_ne_nil {n : String} {w : World} (hn : n ∈ names (env.scope w)) :
    env.held n ≠ [] := by
  simp only [names, scope, List.map_map, List.mem_map, Function.comp_apply] at hn
  obtain ⟨b, hb, rfl⟩ := hn
  have hmem : b.2 ∈ env.held b.1 :=
    List.mem_map_of_mem (List.mem_filter.mpr ⟨hb, beq_self_eq_true b.1⟩)
  exact List.ne_nil_of_mem hmem

/-- The names of a subselect that can be checked are in scope. -/
theorem within_of_ofSubselect {P : String → Prop} {m : Mapping} {t : Phrase}
    {scope : List AliasDefinition} {s : Statement} (ht : Within P t)
    (hlabel : t.label = .subselect)
    (h : Statement.ofSubselect (some m.model) scope t = .ok s) :
    Within (· ∈ names scope) t.normalize := by
  have hnormal : t.normalize.label = .subselect := label_normalize_subselect hlabel
  rw [Statement.ofSubselect, if_pos hlabel] at h
  have hwithin := ht.normalize
  generalize t.normalize = t at h hnormal hwithin ⊢
  obtain ⟨l, cs, span⟩ := t
  cases hnormal
  obtain ⟨ds, hdeclared, h⟩ := ok_of_bind h
  obtain ⟨ss, hclauses, -⟩ := ok_of_bind h
  have hcheck : check (some m.model) scope (.node .subselect cs span) =
      .ok [.assemble .subselect (.node .subselect cs span) ds ss] := by
    rw [check, hdeclared]
    exact congrArg (· >>= fun ss => pure [Statement.assemble .subselect _ ds ss]) hclauses
  exact within_of_check hwithin hcheck

theorem depth_pos_of_subselect {t : Phrase} (hlabel : t.label = .subselect) : 1 ≤ t.depth := by
  obtain ⟨l, cs, s⟩ := t
  cases hlabel
  simp [depth]

/-- A subselect keeps its rows, whatever nesting beyond its own is left. -/
theorem Evaluator.subselect_keeps (h : env.Extends env') {P : String → Prop} {t : Phrase}
    (ht : Within P t) (hlabel : t.label = .subselect) {n n' : Nat} (hn : t.depth ≤ n + 1)
    (hn' : t.depth ≤ n' + 1) :
    Eval.Keeps (ev.subselect (ev.valueAt n) env t) (ev.subselect (ev.valueAt n') env' t) := by
  cases hchecked : Statement.ofSubselect (some ev.mapping.model) (env.scope ev.world) t with
  | error e =>
      rw [subselect_of_error hchecked]
      split
      · exact Eval.Keeps.undefined_left _
      · exact Eval.Keeps.fail_left _ _
  | ok s =>
      obtain ⟨d, hd⟩ : ∃ d, t.depth = d + 1 := ⟨t.depth - 1, by
        have hpos := depth_pos_of_subselect hlabel
        omega⟩
      have hself := (within_of_ofSubselect ht hlabel hchecked).self
        (hd ▸ ht.depth_normalize_le)
      have henv := h.agree False ev fun n hn =>
        Environment.held_ne_nil (w := ev.world) hn
      exact (subselect_agree (fun _ => trivial) henv
        (evaluatesAlike (fun _ => trivial) (by omega) (by omega)) hself hlabel
        hlabel).keeps

/-! ## Expressions -/

theorem Environment.alias?_keeps (h : env.Extends env') (name : String) :
    Settles (env.alias? name) (env'.alias? name) := by
  intro v hv
  rw [alias?_eq_head?] at hv ⊢
  have hbound : env.held name ≠ [] := by
    intro hnil
    rw [hnil] at hv
    cases hv
  rw [← h.held name hbound]
  exact hv

namespace Expression

variable {sub sub' : Phrase → Eval Value}

/-- Phrases that have neither a value nor operands that could have one are refused. -/
theorem value_refused {l : Label} (hterminal : terminal? env l = none)
    (hcompound : l.isCompound = false) (hsubselect : l ≠ .subselect) (hpath : l ≠ .path)
    (cs : List Phrase) (s : Source.Span) :
    value ev sub env (.node l cs s) = Eval.fail (Operation.refusal l) := by
  unfold value
  rw [hterminal]
  cases l <;> first
    | exact absurd rfl hsubselect
    | exact absurd rfl hpath
    | exact absurd hcompound.symm Bool.false_ne_true
    | exact absurd hterminal (Option.some_ne_none _)
    | rfl

theorem value_of_terminal {l : Label} {outcome : Except Fault (Option Value)}
    (hl : terminal? env l = some outcome) (cs : List Phrase) (s : Source.Span) :
    value ev sub env (.node l cs s) = Eval.ofOutcome outcome := by
  unfold value
  rw [hl]

theorem path_keeps {cs : List Phrase} (h : KeptValues ev sub sub' env env' cs cs)
    (s : Source.Span) :
    Eval.Keeps (value ev sub env (.node .path cs s)) (value ev sub' env' (.node .path cs s)) := by
  unfold value
  cases h with
  | nil => exact Eval.Keeps.refl _
  | cons hroot _ => exact Eval.Keeps.bind hroot fun r => Eval.Keeps.refl _

theorem terminal?_keeps (h : env.Extends env') {l : Label} {outcome : Except Fault (Option Value)}
    (hl : terminal? env l = some outcome) : ∃ outcome', terminal? env' l = some outcome' ∧
      Eval.Keeps (Eval.ofOutcome outcome) (Eval.ofOutcome outcome') := by
  by_cases hleaf : l.isLeaf
  · exact ⟨outcome, (Environment.terminal?_of_isLeaf h hleaf).symm.trans hl, Eval.Keeps.refl _⟩
  · cases l with
    | identifier name =>
        cases hl
        refine ⟨_, rfl, Traced.Keeps.pure (Environment.alias?_keeps h name)⟩
    | _ => first | exact absurd rfl hleaf | cases hl

mutual

/-- Expressions keep their values if their subselects do. -/
theorem value_keeps (h : env.Extends env') : ∀ t : Phrase,
    (∀ u ∈ t.nodes, u.label = .subselect → Eval.Keeps (sub u) (sub' u)) →
      Eval.Keeps (value ev sub env t) (value ev sub' env' t)
  | .node l cs s, hsub => by
      cases hterminal : terminal? env l with
      | some outcome =>
          obtain ⟨outcome', hterminal', hkeeps⟩ := terminal?_keeps h hterminal
          rw [value_of_terminal hterminal, value_of_terminal hterminal']
          exact hkeeps
      | none =>
          have hchildren := keptValues h cs fun t ht u hu => hsub u (mem_nodes_of_child ht hu)
          by_cases hcompound : l.isCompound
          · exact node_keeps hcompound hchildren s s
          by_cases hsubselect : l = .subselect
          · subst hsubselect
            rw [value_subselect, value_subselect]
            exact hsub _ (mem_nodes_self _) rfl
          by_cases hpath : l = .path
          · subst hpath
            exact path_keeps hchildren s
          · rw [value_refused hterminal (by simpa using hcompound) hsubselect hpath]
            exact Eval.Keeps.fail_left _ _

theorem keptValues (h : env.Extends env') : ∀ ts : List Phrase,
    (∀ t ∈ ts, ∀ u ∈ t.nodes, u.label = .subselect → Eval.Keeps (sub u) (sub' u)) →
      KeptValues ev sub sub' env env' ts ts
  | [], _ => .nil
  | t :: ts, hsub => .cons (value_keeps h t (hsub t (by simp)))
      (keptValues h ts fun u hu => hsub u (List.mem_cons_of_mem t hu))

end

end Expression

/-! ## Evaluation -/

mutual

theorem depth_le_of_mem_nodes : ∀ {t u : Phrase}, u ∈ t.nodes → u.depth ≤ t.depth
  | .node l cs s, u, hu => by
      simp only [nodes, visit, if_true, List.mem_cons] at hu
      rcases hu with rfl | hu
      · exact Nat.le_refl _
      · have hd := depth_le_of_mem_visitAll hu
        simp only [depth]
        omega

theorem depth_le_of_mem_visitAll : ∀ {ts : List Phrase} {u : Phrase},
    u ∈ visitAll (fun _ => true) ts → u.depth ≤ depthAll ts
  | [], u, hu => by simp [visitAll] at hu
  | t :: ts, u, hu => by
      simp only [visitAll, List.mem_append] at hu
      simp only [depthAll]
      rcases hu with hu | hu
      · have hd := depth_le_of_mem_nodes (t := t) hu
        omega
      · have hd := depth_le_of_mem_visitAll hu
        omega

end

/-- Binding more aliases keeps what an expression has been evaluated to, whatever nesting
beyond its own is left. -/
theorem Evaluator.valueAt_keeps (h : env.Extends env') {t : Phrase}
    (ht : ∀ u ∈ t.nodes, u.label = .subselect → u.WellFormed) {n n' : Nat} (hn : t.depth ≤ n)
    (hn' : t.depth ≤ n') : Eval.Keeps (ev.valueAt n env t) (ev.valueAt n' env' t) := by
  have hnested : ∀ u ∈ t.nodes, u.label = .subselect → 1 ≤ u.depth ∧ u.depth ≤ t.depth :=
    fun u hu hlabel => ⟨depth_pos_of_subselect hlabel, depth_le_of_mem_nodes hu⟩
  cases n with
  | zero =>
      have hflat : ∀ u ∈ t.nodes, u.label ≠ .subselect := fun u hu hlabel => by
        have hpos := hnested u hu hlabel
        omega
      cases n' <;> exact Expression.value_keeps h t fun u hu hlabel =>
        absurd hlabel (hflat u hu)
  | succ n =>
      cases n' with
      | zero =>
          refine Expression.value_keeps h t fun u hu hlabel => ?_
          have hpos := hnested u hu hlabel
          omega
      | succ n' =>
          refine Expression.value_keeps h t fun u hu hlabel => ?_
          have hdepth := hnested u hu hlabel
          exact subselect_keeps h (ht u hu hlabel) hlabel (by omega) (by omega)

/-- Binding more aliases keeps what an expression has been evaluated to. -/
theorem Evaluator.value_keeps (h : env.Extends env') {t : Phrase}
    (ht : ∀ u ∈ t.nodes, u.label = .subselect → u.WellFormed) :
    Eval.Keeps (ev.value env t) (ev.value env' t) :=
  valueAt_keeps h ht (Nat.le_refl _) (Nat.le_refl _)

end Extension

end RowGuard
