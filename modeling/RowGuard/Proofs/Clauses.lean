import RowGuard.Proofs.Recital

/-!
# Tokens of clauses and statements

Clauses begin with a keyword that no condition or operand goes on with, so one
clause ends where the next one begins.  A list goes on with a comma, and a from
clause also with the words that begin a join.
-/

namespace RowGuard

open Query (AccessKind Cursor Ends Grammar.Inner Keyword Label Lexeme Phrase Reader Starts Token)
open Query.Phrase

namespace Query.Grammar

open Reader

section Clauses

variable {ts us vs : List Token} {t u v : Phrase} {m : Nat}

/-! ## Names and paths -/

/-- The next word can name a variable, or it cannot. -/
theorem reads_aliasNext (w : String) :
    Reads (· = (Keyword.ofWord? w).all fun k => !k.isReserved) aliasNext (.word w :: ts)
      (.word w :: ts) := by
  refine reads_peek.bind fun t? ht => ?_
  subst ht
  refine .pure ?_
  cases Keyword.ofWord? w <;> rfl

theorem reads_no_alias (h : Ends isAliasWord ts) : Reads (· = false) aliasNext ts ts := by
  refine reads_peek.bind fun t? ht => ?_
  subst ht
  cases ts with
  | nil => exact .pure rfl
  | cons token ts =>
      cases token with
      | word w =>
          have hword : isAliasWord (.word w) = false := h _ rfl
          refine .pure ?_
          cases hk : Keyword.ofWord? w with
          | none => simp [isAliasWord, hk] at hword
          | some k => 
              rw [isAliasWord, hk, Option.all_some, Bool.or_eq_false_iff] at hword
              exact hword.1
      | _ => exact .pure rfl

theorem reads_variableName {x : String} (hx : isVariable x) (s : Source.Span) :
    Reads (Like (.node (.identifier x) [] s)) variableName (.word x :: ts) ts := by
  rw [isVariable, Bool.and_eq_true] at hx
  refine (reads_aliasNext x).bind fun b hb => ?_
  rw [hb, hx.2, if_pos rfl]
  exact reads_here.bind fun s' _ => (reads_requireWord x _).bind fun w hw => .pure (by
    rw [hw]
    exact .node rfl s s')

theorem reads_entityName (e : String) (s : Source.Span) :
    Reads (Like (.node (.entityName e) [] s)) entityName (.word e :: ts) ts :=
  reads_here.bind fun s' _ => (reads_requireWord e _).bind fun w hw => .pure (by
    rw [hw]
    exact .node rfl s s')

/-- The tokens of some words, each behind a point. -/
def pointed (ws : List String) : List Token := ws.flatMap fun w => [.dot, .word w]

/-- The segments of a path, each with its tokens. -/
theorem exists_segments {segments : List Phrase} {ws : List String}
    (h : AreSegments segments ws) : ∃ ps : List (Phrase × List Token),
      ps.map Prod.fst = segments ∧ (ps.map Prod.snd).flatten = pointed ws ∧
      ∀ p ∈ ps, ∃ w s, p = (.node (.segment w) [] s, [.dot, .word w]) := by
  induction h with
  | nil => exact ⟨[], rfl, rfl, by simp⟩
  | @cons w segments ws s _ _ ih =>
      obtain ⟨ps, hfst, hsnd, hps⟩ := ih
      refine ⟨(.node (.segment w) [] s, [.dot, .word w]) :: ps, ?_, ?_, ?_⟩
      · rw [List.map_cons, hfst]
      · rw [List.map_cons, List.flatten_cons, hsnd]
        rfl
      · exact List.forall_mem_cons.mpr ⟨⟨w, s, rfl⟩, hps⟩

theorem reads_segments {segments : List Phrase} {ws : List String}
    (h : AreSegments segments ws) (hus : Ends continuesPath us) :
    Reads (fun as => bareAll as = bareAll segments) (many nextSegment) (pointed ws ++ us) us := by
  obtain ⟨ps, rfl, hsnd, hps⟩ := exists_segments h
  rw [← hsnd]
  refine (reads_many (R := Like) (F := fun _ => True) (fun p hp => ?_) (fun p hp vs _ => ?_)
    (fun _ _ _ => trivial) trivial ?_).mono fun as has => bareAll_of_forall₂ has
  · obtain ⟨w, s, rfl⟩ := hps p hp
    exact List.cons_ne_nil _ _
  · obtain ⟨w, s, rfl⟩ := hps p hp
    refine reads_if_eat (reads_here.bind fun s' _ => ?_)
    refine (reads_requireWord w _).bind fun w' hw' => .pure ⟨_, rfl, ?_⟩
    rw [hw']
    exact .node rfl s s'
  · exact reads_else_eat (hus.head?_ne rfl) (.pure rfl)

theorem recited_name {x : String} (hx : isVariable x) (s : Source.Span) :
    Recited .reference [.word x] (.node (.identifier x) [] s) := by
  refine ⟨⟨x, [], rfl, hx, by simp⟩, fun us hus => reads_here.bind fun start _ => ?_⟩
  refine (reads_variableName hx s).bind fun root hroot => ?_
  refine (reads_segments .nil hus).bind fun segments hsegments => ?_
  exact reads_collapse_one (by simp only [bareAll, hsegments, show root.bare = _ from hroot])

theorem recited_path {x w : String} {ws : List String} {segments : List Phrase}
    (hx : isVariable x) (h : AreSegments segments (w :: ws)) (r s : Source.Span) :
    Recited .reference (.word x :: pointed (w :: ws))
      (.node .path (.node (.identifier x) [] r :: segments) s) := by
  refine ⟨⟨x, _, rfl, hx, by simp [pointed]⟩, fun us hus => reads_here.bind fun start _ => ?_⟩
  refine (reads_variableName hx r).bind fun root hroot => ?_
  refine (reads_segments h hus).bind fun as has => ?_
  cases h with
  | cons span hw h =>
      exact reads_collapse_many s (by simp only [bareAll, has, show root.bare = _ from hroot])

/-! ## Select lists -/

theorem recited_selected_of_sum (h : Recited .sum ts t) : Recited .selected ts t :=
  ⟨h.1.mono fun token htoken => by simp [opensSelected, htoken], fun _ _ hm hus =>
    reads_unless_keyword (h.1.ne_keyword opensOperand_keyword (by decide +kernel) _)
      (reads_sum h hm hus)⟩

theorem recited_newObject {w : String} {ws : List String} {p : Phrase × List Token}
    {ps : List (Phrase × List Token)} (h : AllRecited .sum (p :: ps)) (s : Source.Span) :
    Recited .selected (Keyword.new.token :: .word w :: (pointed ws ++ .opening ::
      (separatedBy .comma p.2 (ps.map Prod.snd) ++ [.closing])))
      (.node (.newObject (Text.Dotted.join (w :: ws))) (p.1 :: ps.map Prod.fst) s) := by
  refine ⟨⟨_, _, rfl, by simp [opensSelected]⟩, fun m us hm _ => ?_⟩
  refine reads_when_keyword (Token.keyword?_token _) ?_
  refine (reads_requireKeyword (Token.keyword?_token _)).bind fun start _ => ?_
  refine (reads_requireWord w _).bind fun first hfirst => ?_
  simp only [List.append_eq, List.append_assoc, List.cons_append, List.nil_append]
  simp only [List.length_cons, List.length_append, List.length_nil] at hm
  have hws : ((ws.map fun v => (v, [Token.dot, Token.word v])).map Prod.snd).flatten =
      pointed ws := by
    rw [List.map_map, pointed, List.flatMap_def]
    rfl
  rw [← hws]
  refine (reads_many (R := Eq) (F := fun _ => True) ?_ ?_ (fun _ _ _ => trivial)
    trivial ?_).bind fun others hothers => ?_
  · intro q hq
    obtain ⟨v, -, rfl⟩ := List.mem_map.mp hq
    exact List.cons_ne_nil _ _
  · intro q hq vs _
    obtain ⟨v, -, rfl⟩ := List.mem_map.mp hq
    exact reads_if_eat ((reads_requireWord v _).bind fun v' hv' => .pure ⟨v', rfl, hv'.symm⟩)
  · exact reads_else_eat (by simp) (.pure rfl)
  refine (reads_require _).bind fun _ _ => ?_
  have hle : (separatedBy .comma p.2 (ps.map Prod.snd)).length ≤ m := by omega
  refine (reads_commaSeparated (fun q hq us hus => reads_sum (h q hq)
    (Nat.le_trans (length_le_separatedBy q hq) hle) hus) continuesSum_comma
    (ends_cons continuesSum_closing) (by simp)).bind fun as has => ?_
  refine (reads_require _).bind fun _ _ => ?_
  obtain rfl : ws = others := by
    simpa [List.forall₂_eq_eq_eq, Function.comp_def] using hothers
  rw [hfirst]
  exact reads_close s has

theorem recited_selectClause {p : Phrase × List Token} {ps : List (Phrase × List Token)}
    (distinct : Bool) (h : AllRecited .selected (p :: ps)) (s : Source.Span) :
    Recited .selectClause (Keyword.select.token :: (optionally distinct .distinct ++
      separatedBy .comma p.2 (ps.map Prod.snd)))
      (.node (.selectClause distinct) (p.1 :: ps.map Prod.fst) s) := by
  refine ⟨⟨_, rfl⟩, fun m us hm hus => ?_⟩
  simp only [List.length_cons, List.length_append] at hm
  refine (reads_requireKeyword (Token.keyword?_token _)).bind fun start _ => ?_
  simp only [List.append_eq, List.append_assoc]
  have hstarts : Starts opensSelected (separatedBy .comma p.2 (ps.map Prod.snd)) :=
    (h p (by simp)).1.append _
  refine (reads_optionally distinct (hstarts.ne_keyword ?_ (by decide +kernel) _)).bind
    fun b hb => ?_
  · intro token k hk
    simp only [opensSelected, opensOperand_keyword hk, hk, Token.keyword?_token]
  subst hb
  have hle : (separatedBy .comma p.2 (ps.map Prod.snd)).length ≤ m := by omega
  refine (reads_commaSeparated (fun q hq us hus => (h q hq).2 m us
    (Nat.le_trans (length_le_separatedBy q hq) hle) hus) continuesSum_comma hus.list
    (hus.head?_ne (by simp [continuesList]))).bind fun as has => reads_close s has

/-! ## From clauses -/

/-- How a join begins: an outer one with two words before `JOIN`, an inner one with one. -/
def joinTokens (outer : Bool) : List Token :=
  (if outer then [Keyword.left.token, Keyword.outer.token] else [Keyword.inner.token]) ++
    [Keyword.join.token]

theorem opensJoin_joinTokens (outer : Bool) (ts : List Token) :
    Starts opensJoin (joinTokens outer ++ ts) := by
  cases outer <;> exact ⟨_, _, rfl, by simp [opensJoin]⟩

theorem reads_joinStart (outer : Bool) :
    Reads (· = some outer) joinStart (joinTokens outer ++ ts) (Keyword.join.token :: ts) := by
  refine reads_peekKeyword.bind fun k? hk? => ?_
  cases outer with
  | false =>
      have hk : k? = some .inner := hk?.trans (Token.keyword?_token _)
      subst hk
      exact reads_advance.bind fun _ _ => .pure rfl
  | true =>
      have hk : k? = some .left := hk?.trans (Token.keyword?_token _)
      subst hk
      exact reads_advance.bind fun _ _ =>
        (reads_eatKeyword (Token.keyword?_token _)).bind fun _ _ => .pure rfl

theorem reads_no_join (h : Ends opensJoin ts) : Reads (· = none) join? ts ts := by
  refine reads_here.bind fun start _ => Reads.bind (P := (· = none)) (m := ts) ?_
    fun outer? houter => by subst houter; exact .pure rfl
  refine reads_peekKeyword.bind fun k? hk? => ?_
  cases k? with
  | none => exact .pure rfl
  | some k =>
      cases ts with
      | nil => cases hk?
      | cons token ts =>
          have hkeyword : token.keyword? = some k := hk?.symm
          have hnone : opensJoin token = false := h token rfl
          rw [opensJoin, hkeyword] at hnone
          cases k <;> first
            | exact absurd hnone (by decide)
            | exact .pure rfl

/-- The name of a variable is no reserved keyword. -/
theorem ne_keyword_of_isVariable {w : String} {k : Keyword} (hw : isVariable w)
    (hk : k.isReserved = true) : nextKeyword? (.word w :: ts) ≠ some k := by
  intro hnext
  have hkeyword : Keyword.ofWord? w = some k := hnext
  rw [isVariable, hkeyword, Option.all_some, hk] at hw
  simp at hw

theorem continuesJoin_keyword {token : Token} {k : Keyword} (h : token.keyword? = some k) :
    continuesJoin token = (!k.isReserved || k = .as_) := by
  cases token with
  | word w =>
      have hw : Keyword.ofWord? w = some k := h
      simp [continuesJoin, continuesPath, isAliasWord, hw]
  | _ => cases h

theorem continuesJoin_of_opensJoin {token : Token} (h : opensJoin token = true) :
    continuesJoin token = false := by
  rw [opensJoin, Option.any_eq_true] at h
  obtain ⟨k, hkeyword, hk⟩ := h
  rw [continuesJoin_keyword hkeyword]
  cases k <;> first
    | rfl
    | exact absurd hk (by decide)

theorem Ends.alias (h : Ends continuesJoin ts) : Ends isAliasWord ts :=
  h.mono fun t ht => by simp [continuesJoin, ht]

/-- What comes before the name of a join, and the name if there is one. -/
theorem reads_join {outer fetch : Bool} {p : Phrase} {more : List Token} {P : Phrase → Prop}
    (h : Recited .reference ts p)
    (hmore : ∀ path start, Like p path → Reads (fun j? => ∃ j, j? = some j ∧ P j) (do
      let named ← do
        if ← eatKeyword .as_ then pure true else aliasNext
      if named then
        let name ← variableName
        return some (← close (.join outer fetch) [path, name] start)
      else return some (← close (.join outer fetch) [path] start)) more us)
    (hpath : Ends continuesPath more) :
    Reads (fun j? => ∃ j, j? = some j ∧ P j) join?
      (joinTokens outer ++ (optionally fetch .fetch ++ (ts ++ more))) us := by
  have ⟨⟨w, rest, hts, hw, _⟩, hreads⟩ := h
  refine reads_here.bind fun start _ => (reads_joinStart outer).bind fun outer? houter => ?_
  subst houter
  refine (reads_requireKeyword (Token.keyword?_token _)).bind fun _ _ => ?_
  have hfetch : nextKeyword? (ts ++ more) ≠ some .fetch := by
    rw [hts]
    exact ne_keyword_of_isVariable hw rfl
  refine (reads_optionally fetch hfetch).bind fun b hb => ?_
  subst hb
  exact (hreads more hpath).bind fun path hpath => hmore path start hpath

theorem recited_join {outer fetch : Bool} {p : Phrase} (h : Recited .reference ts p)
    (s : Source.Span) :
    Recited .join (joinTokens outer ++ (optionally fetch .fetch ++ ts))
      (.node (.join outer fetch) [p] s) := by
  refine ⟨opensJoin_joinTokens outer _, fun us hus => ?_⟩
  rw [List.append_assoc, List.append_assoc]
  refine reads_join h (fun path start hpath => ?_) hus.join
  refine reads_else_keyword (hus.ne_keyword fun ht => ?_) ?_
  · rw [continuesJoin_keyword ht]
    rfl
  refine (reads_no_alias (Ends.alias hus)).bind fun b hb => ?_
  subst hb
  exact (reads_close s (bareAll_one hpath)).bind
    fun j hj => .pure ⟨j, rfl, hj⟩

theorem recited_joinNamed {outer fetch : Bool} {p : Phrase} {a : String}
    (h : Recited .reference ts p) (ha : isVariable a) (s r : Source.Span) :
    Recited .join (joinTokens outer ++ (optionally fetch .fetch ++ (ts ++ [.word a])))
      (.node (.join outer fetch) [p, .node (.identifier a) [] r] s) := by
  refine ⟨opensJoin_joinTokens outer _, fun us hus => ?_⟩
  simp only [List.append_assoc, List.cons_append, List.nil_append]
  refine reads_join h (fun path start hpath => ?_) (ends_cons rfl)
  refine reads_else_keyword (ne_keyword_of_isVariable ha rfl) ?_
  refine (reads_aliasNext a).bind fun b hb => ?_
  rw [isVariable, Bool.and_eq_true] at ha
  rw [hb, ha.2]
  dsimp only
  rw [if_pos rfl]
  refine (reads_variableName (by rw [isVariable, ha.1, ha.2]; rfl) r).bind fun name hname => ?_
  exact (reads_close s (bareAll_two hpath hname)).bind
    fun j hj => .pure ⟨j, rfl, hj⟩

theorem reads_declaredAlias {a : String} (ha : isVariable a) (s : Source.Span) :
    Reads (Like (.node (.identifier a) [] s)) declaredAlias (.word a :: ts) ts :=
  (reads_eatKeyword_other (ne_keyword_of_isVariable ha rfl)).bind
    fun _ _ => reads_variableName ha s

theorem recited_fromItem {e a : String} {ps : List (Phrase × List Token)} (ha : isVariable a)
    (h : AllRecited .join ps) (s₁ s₂ s : Source.Span) :
    Recited .fromItem (.word e :: .word a :: (ps.map Prod.snd).flatten)
      (.node .fromItem (.node (.entityName e) [] s₁ :: .node (.identifier a) [] s₂
        :: ps.map Prod.fst) s) := by
  refine fun us hus => reads_here.bind fun start _ => ?_
  refine (reads_entityName e s₁).bind fun entity hentity => ?_
  refine (reads_declaredAlias ha s₂).bind fun name hname => ?_
  refine (reads_many (R := Like) (F := Ends continuesJoin) (fun p hp => ?_) (fun p hp us hus => ?_)
    (fun p hp us => ?_) hus.item (reads_no_join ?_)).bind fun js hjs => ?_
  · obtain ⟨token, rest, hts, -⟩ := (h p hp).1
    rw [hts]
    exact List.cons_ne_nil _ _
  · exact (h p hp).2 us hus
  · obtain ⟨token, rest, hts, hopens⟩ := (h p hp).1
    rw [hts]
    exact ends_cons (continuesJoin_of_opensJoin hopens)
  · exact hus.mono fun t ht => by simp [continuesItem, ht]
  exact reads_close s (by
    simp only [bareAll, show entity.bare = _ from hentity, show name.bare = _ from hname,
      bareAll_of_forall₂ hjs])

theorem recited_fromClause {p : Phrase × List Token} {ps : List (Phrase × List Token)}
    (h : AllRecited .fromItem (p :: ps)) (s : Source.Span) :
    Recited .fromClause (Keyword.from_.token :: separatedBy .comma p.2 (ps.map Prod.snd))
      (.node .fromClause (p.1 :: ps.map Prod.fst) s) := by
  refine ⟨⟨_, rfl⟩, fun us hus => ?_⟩
  refine (reads_requireKeyword (Token.keyword?_token _)).bind fun start _ => ?_
  exact (reads_commaSeparated (fun q hq us hus => h q hq us hus) rfl hus.items
    (hus.head?_ne (by simp [continuesItems]))).bind fun as has => reads_close s has

/-! ## Further clauses -/

theorem reads_singleton {r : Reader Phrase} (h : Reads (Like t) r ts us) :
    Reads (fun as => bareAll as = bareAll [t]) (do return [← r]) ts us :=
  h.bind fun _ hu => .pure (bareAll_one hu)

theorem recited_whereClause (h : Recited .condition ts t) (s : Source.Span) :
    Recited .whereClause (Keyword.where_.token :: ts) (.node .whereClause [t] s) := by
  refine ⟨⟨_, rfl⟩, fun m us hm hus => reads_here.bind fun start _ => ?_⟩
  refine reads_if_keyword (Token.keyword?_token _) ?_
  refine (h.2 m us (Nat.le_of_succ_le hm) hus).bind fun u hu => reads_singleton ?_
  exact reads_close s (bareAll_one hu)

theorem recited_havingClause (h : Recited .condition ts t) (s : Source.Span) :
    Recited .havingClause (Keyword.having.token :: ts) (.node .havingClause [t] s) := by
  refine ⟨⟨_, rfl⟩, fun m us hm hus => reads_here.bind fun start _ => ?_⟩
  refine reads_if_keyword (Token.keyword?_token _) ?_
  refine (h.2 m us (Nat.le_of_succ_le hm) hus).bind fun u hu => reads_singleton ?_
  exact reads_close s (bareAll_one hu)

section Lists

variable {p : Phrase × List Token} {ps : List (Phrase × List Token)}

theorem recited_groupByClause (h : AllRecited .sum (p :: ps)) (s : Source.Span) :
    Recited .groupByClause (Keyword.group.token :: Keyword.by_.token ::
      separatedBy .comma p.2 (ps.map Prod.snd))
      (.node .groupByClause (p.1 :: ps.map Prod.fst) s) := by
  refine ⟨⟨_, rfl⟩, fun m us hm hus => reads_here.bind fun start _ => ?_⟩
  refine reads_if_keyword (Token.keyword?_token _) ?_
  refine (reads_requireKeyword (Token.keyword?_token _)).bind fun _ _ => ?_
  simp only [List.length_cons] at hm
  have hle : (separatedBy .comma p.2 (ps.map Prod.snd)).length ≤ m := by omega
  refine (reads_commaSeparated (fun q hq us hus => reads_sum (h q hq)
    (Nat.le_trans (length_le_separatedBy q hq) hle) hus) continuesSum_comma hus.list
    (hus.head?_ne (by simp [continuesList]))).bind fun as has => reads_singleton ?_
  exact reads_close s has

theorem recited_orderByItem (descending : Bool) (h : Recited .sum ts t) (s : Source.Span) :
    Recited .orderByItem (ts ++ optionally descending .desc)
      (.node (.orderByItem descending) [t] s) := by
  refine ⟨h.1.append _, fun m us hm hus => reads_here.bind fun start _ => ?_⟩
  rw [List.length_append] at hm
  rw [List.append_assoc]
  have hends : Ends continuesSum (optionally descending .desc ++ us) := by
    cases descending with
    | true => exact ends_cons (continuesSum_keyword _)
    | false => exact hus.order
  refine (reads_sum h (by omega) hends).bind fun u hu => ?_
  have hkeyword : ∀ k, k = .asc ∨ k = .desc → nextKeyword? us ≠ some k := by
    intro k hk
    refine hus.ne_keyword fun ht => ?_
    rcases hk with rfl | rfl <;> simp [continuesOrder, ht]
  refine Reads.bind (P := (· = descending)) (m := us) ?_ fun b hb => ?_
  · cases descending with
    | true => exact reads_if_keyword (Token.keyword?_token _) (.pure rfl)
    | false =>
        refine reads_else_keyword (hkeyword _ (Or.inr rfl)) ?_
        exact (reads_eatKeyword_other (hkeyword _ (Or.inl rfl))).bind fun _ _ => .pure rfl
  · subst hb
    exact reads_close s (bareAll_one hu)

theorem recited_orderByClause (h : AllRecited .orderByItem (p :: ps)) (s : Source.Span) :
    Recited .orderByClause (Keyword.order.token :: Keyword.by_.token ::
      separatedBy .comma p.2 (ps.map Prod.snd))
      (.node .orderByClause (p.1 :: ps.map Prod.fst) s) := by
  refine ⟨⟨_, rfl⟩, fun m us hm hus => reads_here.bind fun start _ => ?_⟩
  refine reads_if_keyword (Token.keyword?_token _) ?_
  refine (reads_requireKeyword (Token.keyword?_token _)).bind fun _ _ => ?_
  simp only [List.length_cons] at hm
  have hle : (separatedBy .comma p.2 (ps.map Prod.snd)).length ≤ m := by omega
  refine (reads_commaSeparated (fun q hq us hus => (h q hq).2 m us
    (Nat.le_trans (length_le_separatedBy q hq) hle) hus) rfl hus.orders
    (hus.head?_ne (by simp [continuesOrders]))).bind fun as has => reads_singleton ?_
  exact reads_close s has

end Lists

theorem recited_assignment (ht : Recited .reference ts t) (hu : Recited .sum us u)
    (s : Source.Span) :
    Recited .assignment (ts ++ .equal :: us) (.node .assignment [t, u] s) := by
  refine fun m vs hm hvs => reads_here.bind fun start _ => ?_
  simp only [List.length_append, List.length_cons] at hm
  rw [List.append_assoc]
  refine (ht.2 _ (ends_cons rfl)).bind fun target htarget => ?_
  refine (reads_require _).bind fun _ _ => ?_
  refine (reads_inner_operand hu (by omega) hvs).bind fun value hvalue => ?_
  exact reads_close s (bareAll_two htarget hvalue)

/-! ## Clauses one behind the other -/

/-- What comes next is a closing bracket, a keyword of a list or the end. -/
def Closes (ks : List Keyword) (ts : List Token) : Prop :=
  ∀ t ∈ ts.head?, t = .closing ∨ ∃ k ∈ ks, t = Keyword.token k

theorem Closes.ends {ks : List Keyword} {p : Token → Bool} (h : Closes ks ts)
    (hclosing : p .closing = false) (hks : ∀ k ∈ ks, p k.token = false) : Ends p ts := by
  intro token htoken
  rcases h token htoken with rfl | ⟨k, hk, rfl⟩
  · exact hclosing
  · exact hks k hk

theorem Closes.ne_keyword {ks : List Keyword} {k : Keyword} (h : Closes ks ts) (hk : k ∉ ks) :
    nextKeyword? ts ≠ some k := by
  cases ts with
  | nil => exact fun hnext => by cases hnext
  | cons token ts =>
      intro hnext
      have hkeyword : token.keyword? = some k := hnext
      rcases h token rfl with rfl | ⟨k', hk', rfl⟩
      · cases hkeyword
      · rw [Token.keyword?_token] at hkeyword
        cases hkeyword
        exact hk hk'

/-- A clause that may be missing. -/
abbrev Optional := Option (Phrase × List Token)

/-- The tokens of a clause that may be missing. -/
def optionalTokens (o : Optional) : List Token := (o.map Prod.snd).getD []

/-- The clause itself. -/
def optionalPhrases (o : Optional) : List Phrase := (o.map Prod.fst).toList

/-- A missing clause leaves what comes behind it, another one begins with its keyword. -/
theorem closes_optional {o : Optional} {k : Keyword} {ks : List Keyword}
    (ho : ∀ p ∈ o, ∃ rest, p.2 = k.token :: rest) (h : Closes ks ts) :
    Closes (k :: ks) (optionalTokens o ++ ts) := by
  cases o with
  | none =>
      intro token htoken
      exact (h token htoken).imp_right fun ⟨k', hk', ht⟩ => ⟨k', List.mem_cons_of_mem k hk', ht⟩
  | some p =>
      obtain ⟨rest, hrest⟩ := ho p rfl
      rintro token htoken
      simp only [optionalTokens, Option.map_some, Option.getD_some, hrest, List.cons_append,
        List.head?_cons, Option.mem_some_iff] at htoken
      exact Or.inr ⟨k, by simp, htoken.symm⟩

theorem reads_optionalClause {o : Optional} {k : Keyword} {ks : List Keyword}
    {r : Reader (List Phrase)} (hks : k ∉ ks) (h : Closes ks us)
    (hsome : ∀ p ∈ o, Reads (fun as => bareAll as = bareAll [p.1]) r (p.2 ++ us) us)
    (hnone : nextKeyword? us ≠ some k → Reads (· = []) r us us) :
    Reads (fun as => bareAll as = bareAll (optionalPhrases o)) r (optionalTokens o ++ us) us := by
  cases o with
  | none => exact (hnone (h.ne_keyword hks)).mono fun as has => by rw [has]; rfl
  | some p => exact hsome p rfl

theorem bareAll_append (as bs : List Phrase) : bareAll (as ++ bs) = bareAll as ++ bareAll bs := by
  induction as with
  | nil => rfl
  | cons a as ih => rw [List.cons_append, bareAll, bareAll, ih, List.cons_append]

/-- The clauses of a query with their tokens. -/
structure Body where
  select : Phrase × List Token
  source : Phrase × List Token
  restriction : Optional
  grouping : Optional
  having : Optional

/-- The clauses are read one by one. -/
structure Body.Recited (b : Body) : Prop where
  select : Grammar.Recited .selectClause b.select.2 b.select.1
  source : Grammar.Recited .fromClause b.source.2 b.source.1
  restriction : ∀ p ∈ b.restriction, Grammar.Recited .whereClause p.2 p.1
  grouping : ∀ p ∈ b.grouping, Grammar.Recited .groupByClause p.2 p.1
  having : ∀ p ∈ b.having, Grammar.Recited .havingClause p.2 p.1

def Body.phrases (b : Body) : List Phrase :=
  b.select.1 :: b.source.1 :: (optionalPhrases b.restriction ++ optionalPhrases b.grouping
    ++ optionalPhrases b.having)

def Body.tokens (b : Body) : List Token :=
  b.select.2 ++ (b.source.2 ++ (optionalTokens b.restriction ++ (optionalTokens b.grouping
    ++ optionalTokens b.having)))

theorem length_optionalTokens {o : Optional} : ∀ p ∈ o, p.2.length = (optionalTokens o).length := by
  rintro p hp
  cases o with
  | none => cases hp
  | some q =>
      cases hp
      rfl

theorem reads_body {b : Body} (h : b.Recited) (hm : b.tokens.length ≤ m)
    (hus : Closes [.order] us) :
    Reads (fun as => bareAll as = bareAll b.phrases)
      (selectBody (sum (depth m)) (condition (depth m))) (b.tokens ++ us) us := by
  simp only [Body.tokens, List.length_append] at hm
  have hhaving := closes_optional (fun p hp => (h.having p hp).1) hus
  have hgrouping := closes_optional (fun p hp => (h.grouping p hp).1) hhaving
  have hrestriction := closes_optional (fun p hp => (h.restriction p hp).1) hgrouping
  simp only [Body.tokens, List.append_assoc]
  refine (h.select.2 m _ (by omega) ?_).bind fun select hselect => ?_
  · obtain ⟨rest, hrest⟩ := h.source.1
    rw [hrest]
    exact ends_cons (by decide +kernel)
  refine (h.source.2 _ (hrestriction.ends (by decide +kernel) (by decide +kernel))).bind
    fun source hsource => ?_
  refine (reads_optionalClause (by decide) hgrouping (fun p hp => (h.restriction p hp).2 m _
      (by rw [length_optionalTokens p hp]; omega)
      (hgrouping.ends (by decide +kernel) (by decide +kernel)))
    fun hne => reads_here.bind fun _ _ => reads_else_keyword hne (.pure rfl)).bind
    fun restriction hrestriction' => ?_
  refine (reads_optionalClause (by decide) hhaving (fun p hp => (h.grouping p hp).2 m _
      (by rw [length_optionalTokens p hp]; omega)
      (hhaving.ends (by decide +kernel) (by decide +kernel)))
    fun hne => reads_here.bind fun _ _ => reads_else_keyword hne (.pure rfl)).bind
    fun grouping hgrouping' => ?_
  refine (reads_optionalClause (by decide) hus (fun p hp => (h.having p hp).2 m _
      (by rw [length_optionalTokens p hp]; omega)
      (hus.ends (by decide +kernel) (by decide +kernel)))
    fun hne => reads_here.bind fun _ _ => reads_else_keyword hne (.pure rfl)).bind
    fun having hhaving' => .pure ?_
  simp only [Body.phrases, bareAll, bareAll_append, show select.bare = _ from hselect,
    show source.bare = _ from hsource, hrestriction', hgrouping', hhaving']

theorem recited_subselect {b : Body} (h : b.Recited) (s : Source.Span) :
    Grammar.Recited .subselect (.opening :: (b.tokens ++ [.closing]))
      (.node .subselect b.phrases s) := by
  obtain ⟨rest, hrest⟩ := h.select.1
  refine ⟨_, rfl, ?_, fun m start us hm => ?_⟩
  · simp only [Body.tokens, hrest, List.cons_append]
    exact Token.keyword?_token _
  rw [List.length_append] at hm
  rw [List.append_assoc]
  refine (reads_body h (by omega) ?_).bind fun as has => ?_
  · rintro token ⟨⟩
    exact Or.inl rfl
  exact (reads_require _).bind fun _ _ => reads_close s has

/-! ## Statements -/

/-- The tokens are read as the phrase if nothing follows them. -/
def RecitedText (reader : Inner → Reader Phrase) (ts : List Token) (t : Phrase) : Prop :=
  ∀ m, ts.length ≤ m → Reads (Like t) (reader (depth (m + 1))) ts []

theorem reads_endOfText : Reads (fun _ => True) endOfText [] [] := by
  refine reads_get.bind fun c hc => ?_
  have hrest : c.rest.isEmpty = true := by
    rw [Cursor.tokens, List.map_eq_nil_iff] at hc
    rw [hc]
    rfl
  rw [if_pos hrest]
  exact .pure trivial

theorem closes_nil (ks : List Keyword) : Closes ks [] := by
  simp [Closes]

/-- A statement is told by its first word. -/
theorem reads_statement {inner : Inner} {k : Keyword} {r : Reader Phrase}
    (hr : (k = .select ∧ r = selectStatement inner) ∨ (k = .update ∧ r = updateStatement inner) ∨
      (k = .delete ∧ r = deleteStatement inner) ∨ (k = .grant ∧ r = accessRule inner))
    (hnext : nextKeyword? ts = some k) (h : Reads (Like t) r ts []) :
    Reads (Like t) (statement inner) ts [] := by
  refine reads_peekKeyword.bind fun k? hk? => ?_
  rw [hnext] at hk?
  subst hk?
  have hfinish : ∀ u, Like t u → Reads (Like t) (do
      endOfText
      return u) [] [] := fun u hu => reads_endOfText.bind fun _ _ => .pure hu
  rcases hr with ⟨rfl, rfl⟩ | ⟨rfl, rfl⟩ | ⟨rfl, rfl⟩ | ⟨rfl, rfl⟩ <;> exact h.bind hfinish

theorem recited_selectStatement {b : Body} {order : Optional} (h : b.Recited)
    (horder : ∀ p ∈ order, Recited .orderByClause p.2 p.1) (s : Source.Span) :
    RecitedText statement (b.tokens ++ optionalTokens order)
      (.node .selectStatement (b.phrases ++ optionalPhrases order) s) := by
  intro m hm
  obtain ⟨rest, hrest⟩ := h.select.1
  rw [List.length_append] at hm
  refine reads_statement (k := .select) (Or.inl ⟨rfl, rfl⟩) ?_ ?_
  · simp only [Body.tokens, hrest, List.cons_append]
    exact Token.keyword?_token _
  have hcloses : Closes [.order] (optionalTokens order) := by
    rw [← List.append_nil (optionalTokens order)]
    exact closes_optional (fun p hp => (horder p hp).1) (closes_nil [])
  refine reads_here.bind fun start _ => (reads_body h (by omega) hcloses).bind fun as has => ?_
  have hclause : Reads (fun as => bareAll as = bareAll (optionalPhrases order))
      (orderByClause (depth (m + 1)).operand) (optionalTokens order) [] := by
    rw [← List.append_nil (optionalTokens order)]
    exact reads_optionalClause (k := .order) (by decide) (closes_nil [])
      (fun p hp => (horder p hp).2 m _ (by rw [length_optionalTokens p hp]; omega) (by simp [Ends]))
      fun hne => reads_here.bind fun _ _ => reads_else_keyword hne (.pure rfl)
  refine hclause.bind fun bs hbs => reads_close s ?_
  rw [bareAll_append, bareAll_append, has, hbs]

section Restricted

variable {restriction : Optional}
  (hrestriction : ∀ p ∈ restriction, Recited .whereClause p.2 p.1)
include hrestriction

/-- The where clause at the end of a text. -/
theorem reads_lastClause (hm : (optionalTokens restriction).length ≤ m) :
    Reads (fun as => bareAll as = bareAll (optionalPhrases restriction))
      (whereClause (depth (m + 1)).condition) (optionalTokens restriction) [] := by
  rw [← List.append_nil (optionalTokens restriction)]
  exact reads_optionalClause (k := .where_) (by decide) (closes_nil [])
    (fun p hp => (hrestriction p hp).2 m _ (by rw [length_optionalTokens p hp]; exact hm)
      (by simp [Ends]))
    fun hne => reads_here.bind fun _ _ => reads_else_keyword hne (.pure rfl)

theorem recited_updateStatement {e a : String} {p : Phrase × List Token}
    {ps : List (Phrase × List Token)} (ha : isVariable a) (h : AllRecited .assignment (p :: ps))
    (s₁ s₂ s₃ s₄ s : Source.Span) :
    RecitedText statement (Keyword.update.token :: .word e :: .word a :: Keyword.set.token ::
      (separatedBy .comma p.2 (ps.map Prod.snd) ++ optionalTokens restriction))
      (.node .updateStatement
        (.node .updateClause [.node (.entityName e) [] s₁, .node (.identifier a) [] s₂] s₃
          :: .node .setClause (p.1 :: ps.map Prod.fst) s₄ :: optionalPhrases restriction) s) := by
  intro m hm
  simp only [List.length_cons, List.length_append] at hm
  refine reads_statement (k := .update) (Or.inr (Or.inl ⟨rfl, rfl⟩)) (Token.keyword?_token _) ?_
  refine (reads_requireKeyword (Token.keyword?_token _)).bind fun start _ => ?_
  refine (reads_entityName e s₁).bind fun entity hentity => ?_
  refine (reads_declaredAlias ha s₂).bind fun name hname => ?_
  refine (reads_close s₃ (c := [.node (.entityName e) [] s₁, .node (.identifier a) [] s₂])
    ?_).bind fun update hupdate => ?_
  · exact bareAll_two hentity hname
  refine (reads_requireKeyword (Token.keyword?_token _)).bind fun setStart _ => ?_
  have hcloses : Closes [.where_] (optionalTokens restriction) := by
    rw [← List.append_nil (optionalTokens restriction)]
    exact closes_optional (fun p hp => (hrestriction p hp).1) (closes_nil [])
  have hends : Ends continuesList (optionalTokens restriction) :=
    hcloses.ends (by decide +kernel) (by decide +kernel)
  have hle : (separatedBy .comma p.2 (ps.map Prod.snd)).length ≤ m := by omega
  refine (reads_commaSeparated (fun q hq us hus => h q hq m us
    (Nat.le_trans (length_le_separatedBy q hq) hle) hus) continuesSum_comma hends.list
    (hends.head?_ne (by simp [continuesList]))).bind fun as has => ?_
  refine (reads_close s₄ has).bind fun set hset => ?_
  refine (reads_lastClause hrestriction (by omega)).bind fun bs hbs => reads_close s ?_
  simp only [bareAll, show update.bare = _ from hupdate, show set.bare = _ from hset, hbs]

theorem recited_deleteStatement {e a : String} (ha : isVariable a) (s₁ s₂ s₃ s : Source.Span) :
    RecitedText statement (Keyword.delete.token :: Keyword.from_.token :: .word e :: .word a ::
      optionalTokens restriction)
      (.node .deleteStatement
        (.node .deleteClause [.node (.entityName e) [] s₁, .node (.identifier a) [] s₂] s₃
          :: optionalPhrases restriction) s) := by
  intro m hm
  simp only [List.length_cons] at hm
  refine reads_statement (k := .delete) (Or.inr (Or.inr (Or.inl ⟨rfl, rfl⟩)))
    (Token.keyword?_token _) ?_
  refine (reads_requireKeyword (Token.keyword?_token _)).bind fun start _ => ?_
  refine (reads_requireKeyword (Token.keyword?_token _)).bind fun _ _ => ?_
  refine (reads_entityName e s₁).bind fun entity hentity => ?_
  refine (reads_declaredAlias ha s₂).bind fun name hname => ?_
  refine (reads_close s₃ (c := [.node (.entityName e) [] s₁, .node (.identifier a) [] s₂])
    ?_).bind fun delete hdelete => ?_
  · exact bareAll_two hentity hname
  refine (reads_lastClause hrestriction (by omega)).bind fun bs hbs => reads_close s ?_
  simp only [bareAll, show delete.bare = _ from hdelete, hbs]

end Restricted

/-! ## Access rules -/

/-- The keyword of a way of using an object. -/
def kindKeyword : AccessKind → Keyword
  | .create => .create
  | .read => .read
  | .update => .update
  | .delete => .delete

theorem distinct_eq_self {α : Type} [BEq α] [LawfulBEq α] {as : List α} (h : as.Nodup) :
    distinct as = as := by
  have hfold : ∀ (bs kept : List α), (kept.reverse ++ bs).Nodup →
      bs.foldl (fun kept a => if kept.contains a then kept else a :: kept) kept =
        bs.reverse ++ kept := by
    intro bs
    induction bs with
    | nil => exact fun _ _ => rfl
    | cons b bs ih =>
        intro kept hkept
        have hnew : kept.contains b = false := by
          have hdisjoint := (List.nodup_append.mp hkept).2.2
          refine Bool.eq_false_iff.mpr fun hmem => ?_
          exact hdisjoint b (List.mem_reverse.mpr (List.contains_iff_mem.mp hmem)) b (by simp) rfl
        rw [List.foldl_cons, hnew, if_neg Bool.false_ne_true, ih (b :: kept) (by simpa using hkept)]
        simp
  have hall := hfold as [] (by simpa using h)
  rw [distinct, hall, List.append_nil, List.reverse_reverse]

theorem reads_accessKind (k : AccessKind) :
    Reads (· = some k) accessKind? ((kindKeyword k).token :: ts) ts := by
  refine reads_peekKeyword.bind fun k? hk? => ?_
  have hk : k? = some (kindKeyword k) := hk?.trans (Token.keyword?_token _)
  subst hk
  cases k <;> exact reads_advance.bind fun _ _ => .pure rfl

theorem reads_accessKinds (kinds : List AccessKind) :
    Reads (· = kinds) (many accessKind?)
      (kinds.map (fun k => (kindKeyword k).token) ++ Keyword.access.token :: us)
      (Keyword.access.token :: us) := by
  have htokens : ((kinds.map fun k => (k, [(kindKeyword k).token])).map Prod.snd).flatten =
      kinds.map fun k => (kindKeyword k).token := by
    induction kinds with
    | nil => rfl
    | cons k kinds ih =>
        rw [List.map_cons, List.map_cons, List.flatten_cons, ih]
        rfl
  rw [← htokens]
  refine (reads_many (R := Eq) (F := fun _ => True) ?_ ?_ (fun _ _ _ => trivial) trivial ?_).mono
    fun ks hks => ?_
  · intro q hq
    obtain ⟨k, -, rfl⟩ := List.mem_map.mp hq
    exact List.cons_ne_nil _ _
  · intro q hq vs _
    obtain ⟨k, -, rfl⟩ := List.mem_map.mp hq
    exact (reads_accessKind k).mono fun k? hk? => ⟨k, hk?, rfl⟩
  · refine reads_peekKeyword.bind fun k? hk? => ?_
    have hk : k? = some .access := hk?.trans (Token.keyword?_token _)
    subst hk
    exact .pure rfl
  · simpa [List.forall₂_eq_eq_eq, Function.comp_def, eq_comm] using hks

theorem reads_accessRule {kinds : List AccessKind} {e a : String} {restriction : Optional}
    (hkinds : kinds.Nodup) (ha : isVariable a)
    (hrestriction : ∀ p ∈ restriction, Recited .whereClause p.2 p.1) (s₁ s₂ s : Source.Span)
    (hm : (optionalTokens restriction).length ≤ m) :
    Reads (Like (.node (.accessRule kinds) (.node (.entityName e) [] s₁
      :: .node (.identifier a) [] s₂ :: optionalPhrases restriction) s))
      (accessRule (depth (m + 1))) (Keyword.grant.token ::
        (kinds.map (fun k => (kindKeyword k).token) ++ Keyword.access.token :: Keyword.to.token ::
          .word e :: .word a :: optionalTokens restriction)) [] := by
  refine (reads_requireKeyword (Token.keyword?_token _)).bind fun start _ => ?_
  refine (reads_accessKinds kinds).bind fun ks hks => ?_
  subst hks
  refine (reads_requireKeyword (Token.keyword?_token _)).bind fun _ _ => ?_
  refine (reads_requireKeyword (Token.keyword?_token _)).bind fun _ _ => ?_
  refine (reads_entityName e s₁).bind fun entity hentity => ?_
  refine (reads_declaredAlias ha s₂).bind fun name hname => ?_
  refine (reads_lastClause hrestriction hm).bind fun bs hbs => ?_
  rw [distinct_eq_self hkinds]
  exact reads_close s (by
    simp only [bareAll, show entity.bare = _ from hentity, show name.bare = _ from hname, hbs])

/-- The tokens of a rule with its condition as it is written. -/
def ruleTokens (kinds : List AccessKind) (e a : String) (restriction : Optional) : List Token :=
  Keyword.grant.token :: (kinds.map (fun k => (kindKeyword k).token) ++ Keyword.access.token ::
    Keyword.to.token :: .word e :: .word a :: optionalTokens restriction)

section Rules

variable {kinds : List AccessKind} {e a : String} {restriction : Optional} (hkinds : kinds.Nodup)
  (ha : isVariable a) (hrestriction : ∀ p ∈ restriction, Recited .whereClause p.2 p.1)
  (s₁ s₂ s : Source.Span)
include hkinds ha hrestriction

theorem recited_statement_of_rule :
    RecitedText statement (ruleTokens kinds e a restriction)
      (.node (.accessRule kinds) (.node (.entityName e) [] s₁ :: .node (.identifier a) [] s₂
        :: optionalPhrases restriction) s) := by
  intro m hm
  simp only [ruleTokens, List.length_cons, List.length_append] at hm
  exact reads_statement (k := .grant) (Or.inr (Or.inr (Or.inr ⟨rfl, rfl⟩)))
    (Token.keyword?_token _) (reads_accessRule hkinds ha hrestriction s₁ s₂ s (by omega))

theorem recited_rule :
    RecitedText rule (ruleTokens kinds e a restriction)
      (.node (.accessRule kinds) (.node (.entityName e) [] s₁ :: .node (.identifier a) [] s₂
        :: optionalPhrases restriction) s) := by
  intro m hm
  simp only [ruleTokens, List.length_cons, List.length_append] at hm
  refine reads_when_keyword (Token.keyword?_token _) ?_
  exact (reads_accessRule hkinds ha hrestriction s₁ s₂ s (by omega)).bind fun u hu =>
    reads_endOfText.bind fun _ _ => .pure hu

end Rules

/-- A text that spells the tokens is read as the phrase. -/
theorem read_of_recited {reader : Inner → Reader Phrase} {source : String}
    (hsource : Spells source ts) (h : RecitedText reader ts t) :
    ∃ u, read reader source = .ok u ∧ Like t u := by
  obtain ⟨lexemes, hscan, htokens⟩ := hsource.scan
  have hlength : ts.length = lexemes.length := by rw [← htokens, List.length_map]
  obtain ⟨u, c, hrun, hu, -⟩ := h lexemes.length (Nat.le_of_eq hlength)
    ⟨lexemes, Source.Span.none, Source.Span.endOf source⟩ htokens
  refine ⟨u, ?_, hu⟩
  simp only [read, hscan, hrun, bind, Except.bind, pure, Except.pure]

end Clauses

end Query.Grammar

end RowGuard
