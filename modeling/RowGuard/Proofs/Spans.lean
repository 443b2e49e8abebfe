import RowGuard.Proofs.Extents
import RowGuard.Proofs.Segmentations

/-!
# Spans that nest

What a text is read as takes up all of its tokens, and the spans inside follow the tree: a
child lies within its parent, and of two children the first one ends before the second one
begins.  The tokens of a text stand apart and in order, so what holds of their numbers
holds of the places in the text.
-/

namespace RowGuard

open Query (AccessKind Grammar.Inner Keyword Label Lexeme Phrase Reader Token)

namespace Query.Grammar

open Reader

variable {ts : List Lexeme} {i j k : Nat} {start : Source.Span}

/-! ## Clauses -/

/-- A list of phrases under a label. -/
theorem completes_list {l : Label} {item : Reader Phrase} (hitem : ∀ i, Completes ts i i item)
    (hstart : Opens ts i start) (hij : i ≤ j) :
    Completes ts i j (commaSeparated item >>= fun us => close l us start) :=
  (passes_commaSeparated hitem j).bind fun _ _ _ ⟨hlt, hus⟩ =>
    completes_close hstart hij hlt hus

theorem passes_joinStart (i : Nat) : Passes ts i (fun _ _ => True) joinStart := by
  refine passes_peekKeyword.look fun keyword? _ => ?_
  split
  · exact .pure trivial
  · exact passes_advance.bind fun _ _ _ _ => .pure trivial
  · exact passes_advance.bind fun _ _ _ _ =>
      (passes_eatKeyword _).bind fun _ _ _ _ => .pure trivial
  · exact .pure trivial

theorem passes_join? (i : Nat) :
    Passes ts i (fun t? j => Placed ts i j t?.toList) join? := by
  refine passes_here.look fun start hstart => ?_
  refine (passes_joinStart i).bind fun outer? k hik _ => ?_
  cases outer? with
  | none => exact .pure (.nil hik)
  | some outer =>
      refine (passes_requireKeyword _).bind fun _ m hkm _ =>
        (passes_eatKeyword _).bind fun fetch n hmn _ => ?_
      have hin : i ≤ n := hik.trans (hkm.trans hmn)
      refine (completes_pathExpression n).bind fun path o _ hpath =>
        (passes_eatKeyword _).bind fun _ p hop _ => ?_
      have hsome : ∀ {r : Reader Phrase} {q}, Completes ts i q r →
          Passes ts q (fun t? q => Placed ts i q t?.toList) (do return some (← r)) :=
        fun h => h.bind fun _ _ _ ht => .pure ht
      have hfinish : ∀ (named : Bool) (q : Nat), p ≤ q →
          Passes ts q (fun t? q => Placed ts i q t?.toList) (do
            if named then
              let name ← variableName
              return some (← close (.join outer fetch) [path, name] start)
            else return some (← close (.join outer fetch) [path] start)) := by
        intro named q hpq
        have hpath := hpath.mono hin (hop.trans hpq)
        refine .ite (fun _ => (completes_variableName q).bind fun name r _ hname => ?_) fun _ => ?_
        · have hparts := hpath.append le_rfl hname
          exact hsome (completes_close hstart le_rfl hparts.lt hparts)
        · exact hsome (completes_close hstart le_rfl hpath.lt hpath)
      exact .ite (fun _ => hfinish true p le_rfl)
        fun _ => (passes_aliasNext p).bind fun named q hpq _ => hfinish named q hpq

theorem completes_fromItem (i : Nat) : Completes ts i i fromItem := by
  refine passes_here.look fun start hstart => ?_
  refine (completes_entityName i).bind fun entity k _ hentity => ?_
  refine (completes_declaredAlias k).bind fun name m _ hname => ?_
  refine (passes_many passes_join? m).bind fun joins n _ hjoins => ?_
  have hparts := (hentity.append le_rfl hname).append le_rfl hjoins
  exact completes_close hstart le_rfl hparts.lt hparts

theorem completes_fromClause (i : Nat) : Completes ts i i fromClause :=
  (passes_requireKeyword _).bind fun _ _ hij ⟨_, hstart⟩ =>
    completes_list completes_fromItem hstart hij

/-- The only clause that a reader gives. -/
theorem passes_clause {r : Reader Phrase} (h : Completes ts i j r) :
    Passes ts j (fun us k => Placed ts i k us) (do return [← r]) :=
  h.bind fun _ _ _ ht => .pure ht

/-- A clause that may be left out begins with its keyword. -/
theorem passes_optional {keyword : Keyword} {body : Source.Span → Reader (List Phrase)}
    (hbody : ∀ {i j start}, Opens ts i start → i ≤ j →
      Passes ts j (fun us k => Placed ts i k us) (body start)) (i : Nat) :
    Passes ts i (fun us j => Placed ts i j us) (do
      let start ← here
      if ← eatKeyword keyword then body start else return []) := by
  refine passes_here.look fun start hstart => ?_
  exact (passes_eatKeyword _).bind fun _ k hik _ =>
    .ite (fun _ => hbody hstart hik) fun _ => .pure (.nil hik)

section Clauses

variable {operand condition : Reader Phrase} (hoperand : ∀ i, Completes ts i i operand)
  (hcondition : ∀ i, Completes ts i i condition)

include hoperand in
theorem completes_selectItem (i : Nat) : Completes ts i i (selectItem operand) := by
  refine passes_peekKeyword.look fun _ _ => ?_
  refine .ite (fun _ => ?_) fun _ => hoperand i
  refine (passes_requireKeyword _).bind fun start k hik ⟨_, hstart⟩ =>
    (passes_requireWord _).bind fun _ m hkm _ => ?_
  refine (passes_many_any (fun i => ?_) m).bind fun others n hmn _ =>
    (passes_require _ _).bind fun _ o hno _ => ?_
  · refine (passes_eat _).bind fun _ _ _ _ => .ite (fun _ => ?_) fun _ => .pure trivial
    exact (passes_requireWord _).bind fun _ _ _ _ => .pure trivial
  · exact (passes_commaSeparated hoperand o).bind fun us p _ ⟨hlt, hus⟩ =>
      completes_closed hstart (hik.trans (hkm.trans (hmn.trans hno))) hlt hus

include hoperand in
theorem completes_selectClause (i : Nat) : Completes ts i i (selectClause operand) :=
  (passes_requireKeyword _).bind fun _ _ hij ⟨_, hstart⟩ =>
    (passes_eatKeyword _).bind fun _ _ hjk _ =>
      completes_list (completes_selectItem hoperand) hstart (hij.trans hjk)

include hcondition in
theorem passes_whereClause (i : Nat) :
    Passes ts i (fun us j => Placed ts i j us) (whereClause condition) :=
  passes_optional (fun hstart hij => (hcondition _).bind fun _ _ _ ht =>
    passes_clause (completes_close hstart hij ht.lt ht)) i

include hcondition in
theorem passes_havingClause (i : Nat) :
    Passes ts i (fun us j => Placed ts i j us) (havingClause condition) :=
  passes_optional (fun hstart hij => (hcondition _).bind fun _ _ _ ht =>
    passes_clause (completes_close hstart hij ht.lt ht)) i

/-- The items behind `BY`. -/
theorem passes_byItems {l : Label} {item : Reader Phrase} (hitem : ∀ i, Completes ts i i item)
    (hstart : Opens ts i start) (hij : i ≤ j) :
    Passes ts j (fun us k => Placed ts i k us) (do
      let _ ← requireKeyword .by_
      let us ← commaSeparated item
      return [← close l us start]) :=
  (passes_requireKeyword _).bind fun _ _ hjk _ => (passes_commaSeparated hitem _).bind
    fun _ _ _ ⟨hlt, hus⟩ => passes_clause (completes_close hstart (hij.trans hjk) hlt hus)

include hoperand in
theorem passes_groupByClause (i : Nat) :
    Passes ts i (fun us j => Placed ts i j us) (groupByClause operand) :=
  passes_optional (fun hstart hij => passes_byItems hoperand hstart hij) i

theorem passes_direction (i : Nat) : Passes ts i (fun _ _ => True) direction :=
  (passes_eatKeyword _).bind fun _ _ _ _ => .ite (fun _ => .pure trivial) fun _ =>
    (passes_eatKeyword _).bind fun _ _ _ _ => .pure trivial

include hoperand in
theorem completes_orderByItem (i : Nat) : Completes ts i i (orderByItem operand) := by
  refine passes_here.look fun start hstart => ?_
  exact (hoperand i).bind fun t k _ ht => (passes_direction k).bind fun _ m hkm _ =>
    completes_close hstart le_rfl (ht.lt.trans_le hkm) (ht.mono le_rfl hkm)

include hoperand in
theorem passes_orderByClause (i : Nat) :
    Passes ts i (fun us j => Placed ts i j us) (orderByClause operand) :=
  passes_optional (fun hstart hij => passes_byItems (completes_orderByItem hoperand) hstart hij) i

include hoperand hcondition in
theorem passes_selectBody (i : Nat) :
    Passes ts i (fun us j => i < j ∧ Placed ts i j us) (selectBody operand condition) := by
  refine (completes_selectClause hoperand i).bind fun select j _ hselect => ?_
  refine (completes_fromClause j).bind fun source k _ hsource => ?_
  refine (passes_whereClause hcondition k).bind fun restriction m _ hrestriction => ?_
  refine (passes_groupByClause hoperand m).bind fun grouping n _ hgrouping => ?_
  refine (passes_havingClause hcondition n).bind fun having o _ hhaving => .pure ?_
  have hclauses := (hselect.append le_rfl hsource).append le_rfl
    ((hrestriction.append le_rfl hgrouping).append le_rfl hhaving)
  exact ⟨hclauses.lt, hclauses⟩

include hoperand hcondition in
theorem completes_subselect (hstart : Opens ts i start) (hij : i ≤ j) :
    Completes ts i j (subselect operand condition start) :=
  (passes_selectBody hoperand hcondition j).bind fun _ _ _ ⟨hlt, hus⟩ =>
    completes_closed hstart hij hlt hus

end Clauses

/-! ## Nesting -/

/-- At every depth phrases stand where they are read. -/
theorem places_depth (n : Nat) : Places ts (depth n) := by
  induction n with
  | zero => exact ⟨fun _ => passes_fail _, fun _ => passes_fail _, fun _ _ => passes_fail _⟩
  | succ n ih =>
      exact ⟨completes_condition ih, completes_sum ih,
        completes_subselect (completes_sum ih) (completes_condition ih)⟩

/-! ## Statements -/

/-- The reader returns a phrase that covers all that it passes. -/
def Fulfils (ts : List Lexeme) (r : Reader Phrase) : Prop :=
  ∀ i, Passes ts i (fun t j => Fills ts i j t) r

section Statements

variable {inner : Inner} (hinner : Places ts inner)
include hinner

theorem fulfils_selectStatement : Fulfils ts (selectStatement inner) := by
  refine fun i => passes_here.look fun start hstart => ?_
  refine (passes_selectBody hinner.operand hinner.condition i).bind fun us k _ ⟨hlt, hus⟩ => ?_
  refine (passes_orderByClause hinner.operand k).bind fun order m hkm horder => ?_
  exact passes_close hstart (hlt.trans_le hkm) (hus.append le_rfl horder)

theorem completes_assignment (i : Nat) : Completes ts i i (assignment inner) := by
  refine passes_here.look fun start hstart => ?_
  refine (completes_pathExpression i).bind fun target k _ htarget =>
    (passes_require _ _).bind fun _ m hkm _ => (hinner.operand m).bind fun value n _ hvalue => ?_
  have hparts := htarget.append hkm hvalue
  exact completes_close hstart le_rfl hparts.lt hparts

theorem fulfils_updateStatement : Fulfils ts (updateStatement inner) := by
  refine fun i => (passes_requireKeyword _).bind fun start j hij ⟨_, hstart⟩ => ?_
  refine (completes_entityName j).bind fun entity k _ hentity => ?_
  refine (completes_declaredAlias k).bind fun name m _ hname => ?_
  have hparts := (hentity.append le_rfl hname).mono hij le_rfl
  refine (completes_close hstart le_rfl hparts.lt hparts).bind fun update n hmn hupdate => ?_
  refine (passes_requireKeyword _).bind fun setStart o hno ⟨_, hset⟩ => ?_
  refine (passes_commaSeparated (completes_assignment hinner) o).bind
    fun assignments p _ ⟨hlt, hassignments⟩ => ?_
  refine (completes_close hset hno hlt hassignments).bind
    fun set q _ hset => (passes_whereClause hinner.condition q).bind fun restriction r _ hrest => ?_
  have hclauses := (hupdate.append le_rfl hset).append le_rfl hrest
  exact passes_close hstart hclauses.lt hclauses

theorem fulfils_deleteStatement : Fulfils ts (deleteStatement inner) := by
  refine fun i => (passes_requireKeyword _).bind fun start j hij ⟨_, hstart⟩ =>
    (passes_requireKeyword _).bind fun _ k hjk _ => ?_
  refine (completes_entityName k).bind fun entity m _ hentity => ?_
  refine (completes_declaredAlias m).bind fun name n _ hname => ?_
  have hparts := (hentity.append le_rfl hname).mono (hij.trans hjk) le_rfl
  refine (completes_close hstart le_rfl hparts.lt hparts).bind fun delete o _ hdelete => ?_
  refine (passes_whereClause hinner.condition o).bind fun restriction p _ hrest => ?_
  have hclauses := hdelete.append le_rfl hrest
  exact passes_close hstart hclauses.lt hclauses

theorem fulfils_accessRule : Fulfils ts (accessRule inner) := by
  refine fun i => (passes_requireKeyword _).bind fun start j hij ⟨_, hstart⟩ => ?_
  refine (passes_many_any (fun i => ?_) j).bind fun kinds k hjk _ => ?_
  · refine passes_peekKeyword.look fun _ _ => .ite (fun _ => ?_) fun _ => .pure trivial
    exact passes_advance.bind fun _ _ _ _ => .pure trivial
  refine (passes_requireKeyword _).bind fun _ m hkm _ =>
    (passes_requireKeyword _).bind fun _ n hmn _ => ?_
  refine (completes_entityName n).bind fun entity o _ hentity => ?_
  refine (completes_declaredAlias o).bind fun name p _ hname => ?_
  refine (passes_whereClause hinner.condition p).bind fun restriction q _ hrest => ?_
  have hparts := ((hentity.append le_rfl hname).append le_rfl hrest).mono
    (hij.trans (hjk.trans (hkm.trans hmn))) le_rfl
  exact passes_close hstart hparts.lt hparts

omit hinner in
/-- At the end of the text all tokens have been passed. -/
theorem passes_endOfText (i : Nat) : Passes ts i (fun _ j => j = i ∧ i = ts.length) endOfText := by
  refine passes_get.look fun c hc => .ite (fun hempty => .pure ⟨rfl, ?_⟩) fun _ => passes_fail _
  rw [hc.rest_eq, List.isEmpty_iff, List.drop_eq_nil_iff] at hempty
  exact le_antisymm hc.le_length hempty

omit hinner in
/-- What is read before the end of the text covers all of it. -/
theorem fills_of_endOfText {r : Reader Phrase} (h : Fulfils ts r) :
    Passes ts 0 (fun t _ => Fills ts 0 ts.length t) (do
      let t ← r
      endOfText
      return t) := by
  refine (h 0).bind fun t j _ ht => (passes_endOfText j).look fun _ hend => .pure ?_
  rwa [← hend]

theorem fills_statement : Passes ts 0 (fun t _ => Fills ts 0 ts.length t) (statement inner) := by
  refine passes_peekKeyword.look fun keyword? _ => ?_
  split
  · exact fills_of_endOfText (fulfils_selectStatement hinner)
  · exact fills_of_endOfText (fulfils_updateStatement hinner)
  · exact fills_of_endOfText (fulfils_deleteStatement hinner)
  · exact fills_of_endOfText (fulfils_accessRule hinner)
  · exact fills_of_endOfText fun _ => passes_fail _

theorem fills_rule : Passes ts 0 (fun t _ => Fills ts 0 ts.length t) (rule inner) := by
  refine passes_peekKeyword.look fun keyword? _ => ?_
  exact .ite (fun _ => fills_of_endOfText (fulfils_accessRule hinner)) fun _ => passes_fail _

end Statements

/-! ## Texts -/

/-- What a text is read as covers all of its tokens. -/
theorem fills_of_read {reader : Inner → Reader Phrase}
    (hreader : ∀ ts inner, Places ts inner →
      Passes ts 0 (fun t _ => Fills ts 0 ts.length t) (reader inner))
    {source : String} {t : Phrase} (h : read reader source = .ok t) :
    ∃ ts, scan source = .ok ts ∧ Fills ts 0 ts.length t := by
  obtain ⟨ts, hts, h⟩ := Scope.ok_of_bind h
  split at h
  · rename_i u c hread
    cases h
    have hc : Query.Cursor.Behind ts 0 ⟨ts, Source.Span.none, Source.Span.endOf source⟩ :=
      ⟨rfl, Nat.zero_le _, fun _ h => absurd h (Nat.lt_irrefl 0)⟩
    obtain ⟨_, _, _, hfills⟩ := hreader ts _ (places_depth _) _ _ _ hc hread
    exact ⟨ts, hts, hfills⟩
  · cases h

end Query.Grammar

/-! ## Places in the text -/

namespace Query

variable {offset : Nat} {cs : List Char} {ts : List Lexeme} {i j a b : Nat}

section Order

variable (hts : Segments offset cs ts) {x y : Lexeme} (hx : ts[i]? = some x)
  (hy : ts[j]? = some y)
include hts hx hy

/-- A token ends before a later one begins. -/
theorem Segments.stop_le_start (hij : i < j) : x.span.stop ≤ y.span.start := by
  obtain ⟨hi, rfl⟩ := List.getElem?_eq_some_iff.mp hx
  obtain ⟨hj, rfl⟩ := List.getElem?_eq_some_iff.mp hy
  exact List.pairwise_iff_getElem.mp hts.ordered i j hi hj hij

theorem Segments.start_le_start (hij : i ≤ j) : x.span.start ≤ y.span.start := by
  rcases hij.eq_or_lt with rfl | hlt
  · rw [Option.some.inj (hx.symm.trans hy)]
  · exact (hts.nonempty x (List.mem_of_getElem? hx)).le.trans (hts.stop_le_start hx hy hlt)

theorem Segments.stop_le_stop (hij : i ≤ j) : x.span.stop ≤ y.span.stop := by
  rcases hij.eq_or_lt with rfl | hlt
  · rw [Option.some.inj (hx.symm.trans hy)]
  · exact (hts.stop_le_start hx hy hlt).trans (hts.nonempty y (List.mem_of_getElem? hy)).le

end Order

section Covers

variable (hts : Segments offset cs ts) {s s' : Source.Span}
include hts

theorem Covers.bounds (h : Covers ts i j s) : ∃ first last, ts[i]? = some first ∧
    ts[j - 1]? = some last ∧ s = ⟨first.span.start, last.span.stop⟩ := by
  obtain ⟨hij, first, last, hfirst, hlast, rfl⟩ := h
  have hle : i ≤ j - 1 := by omega
  refine ⟨first, last, hfirst, hlast, ?_⟩
  rw [Source.Span.merge, Nat.min_eq_left (hts.start_le_start hfirst hlast hle),
    Nat.max_eq_right (hts.stop_le_stop hfirst hlast hle)]

theorem Covers.nonempty (h : Covers ts i j s) : s.start < s.stop := by
  have hle : i ≤ j - 1 := by have := h.1; omega
  obtain ⟨first, last, hfirst, hlast, rfl⟩ := h.bounds hts
  exact (hts.nonempty first (List.mem_of_getElem? hfirst)).trans_le
    (hts.stop_le_stop hfirst hlast hle)

/-- Of some tokens and others among them the spans lie one within the other. -/
theorem Covers.within (h : Covers ts i j s) (h' : Covers ts a b s') (hi : i ≤ a) (hj : b ≤ j) :
    s.start ≤ s'.start ∧ s'.stop ≤ s.stop := by
  obtain ⟨_, _, hfirst, hlast, rfl⟩ := h.bounds hts
  obtain ⟨_, _, hfirst', hlast', rfl⟩ := h'.bounds hts
  exact ⟨hts.start_le_start hfirst hfirst' hi, hts.stop_le_stop hlast' hlast (by omega)⟩

theorem Covers.apart (h : Covers ts i j s) (h' : Covers ts a b s') (hja : j ≤ a) :
    s.stop ≤ s'.start := by
  have hlt : j - 1 < a := by have := h.1; omega
  obtain ⟨_, _, _, hlast, rfl⟩ := h.bounds hts
  obtain ⟨_, _, hfirst, _, rfl⟩ := h'.bounds hts
  exact hts.stop_le_start hlast hfirst hlt

end Covers

theorem Placed.exists_covers {us : List Phrase} (h : Placed ts i j us) :
    ∀ u ∈ us, ∃ a b, i ≤ a ∧ b ≤ j ∧ Covers ts a b u.span := by
  induction h with
  | nil => simp
  | @cons i a b j l cs us s hle hs _ hus _ ih =>
      refine List.forall_mem_cons.mpr ⟨⟨a, b, hle, hus.le, hs⟩, fun u hu => ?_⟩
      obtain ⟨a', b', ha, hb, hu⟩ := ih u hu
      exact ⟨a', b', (hle.trans hs.1.le).trans ha, hb, hu⟩

theorem Placed.pairwise (hts : Segments offset cs ts) {us : List Phrase} (h : Placed ts i j us) :
    us.Pairwise fun t u => t.span.stop ≤ u.span.start := by
  induction h with
  | nil => exact .nil
  | cons _ hs _ hus _ ih =>
      refine List.pairwise_cons.mpr ⟨fun u hu => ?_, ih⟩
      obtain ⟨_, _, ha, _, hu⟩ := hus.exists_covers u hu
      exact hs.apart hts hu ha

/-- The span of a phrase begins where a token does and ends where one does.  The spans of its
children lie within it, and each of them ends before the next one begins. -/
structure Phrase.Nests (ts : List Lexeme) (t : Phrase) : Prop where
  starts : ∃ x ∈ ts, t.span.start = x.span.start
  stops : ∃ x ∈ ts, t.span.stop = x.span.stop
  nonempty : t.span.start < t.span.stop
  within : ∀ c ∈ t.children, t.span.start ≤ c.span.start ∧ c.span.stop ≤ t.span.stop
  apart : t.children.Pairwise fun c d => c.span.stop ≤ d.span.start

theorem Fills.nests (hts : Segments offset cs ts) {t : Phrase} (h : Fills ts i j t) :
    t.Nests ts := by
  obtain ⟨hspan, hchildren⟩ := h
  obtain ⟨first, last, hfirst, hlast, hbounds⟩ := hspan.bounds hts
  refine ⟨⟨first, List.mem_of_getElem? hfirst, by rw [hbounds]⟩,
    ⟨last, List.mem_of_getElem? hlast, by rw [hbounds]⟩, hspan.nonempty hts, fun c hc => ?_,
    hchildren.pairwise hts⟩
  obtain ⟨_, _, ha, hb, hc⟩ := hchildren.exists_covers c hc
  exact hspan.within hts hc ha hb

/-- Wherever phrases stand, all that is inside them nests. -/
theorem Placed.nests (hts : Segments offset cs ts) {us : List Phrase} (h : Placed ts i j us) :
    ∀ t ∈ us, ∀ u ∈ t.nodes, u.Nests ts := by
  induction h with
  | nil => simp
  | cons _ hs hcs _ ihcs ih =>
      refine List.forall_mem_cons.mpr ⟨fun u hu => ?_, ih⟩
      rcases Phrase.mem_nodes_node.mp hu with rfl | ⟨c, hc, hu⟩
      · exact Fills.nests hts ⟨hs, hcs⟩
      · exact ihcs c hc u hu

end Query

/-- A text that is read has tokens, and what it is read as runs from the start of the first to
the end of the last one.  The span of every phrase inside begins and ends with tokens, lies
within that of the phrase around it and stands behind those of the phrases before it. -/
theorem Query.Phrase.spans_nest {source : String} {t : Phrase}
    (h : Phrase.ofText source = .ok t ∨ Phrase.ruleOfText source = .ok t) :
    ∃ ts first last, Query.scan source = .ok ts ∧ ts.head? = some first ∧
      ts.getLast? = some last ∧ t.span = ⟨first.span.start, last.span.stop⟩ ∧
      ∀ u ∈ t.nodes, u.Nests ts := by
  have hfills : ∃ ts, Query.scan source = .ok ts ∧ Query.Fills ts 0 ts.length t := by
    rcases h with h | h
    · exact Query.Grammar.fills_of_read (fun _ _ hinner => Query.Grammar.fills_statement hinner) h
    · exact Query.Grammar.fills_of_read (fun _ _ hinner => Query.Grammar.fills_rule hinner) h
  obtain ⟨ts, hscan, hfills⟩ := hfills
  have hts : Query.Segments 0 source.toList ts :=
    (Query.cut_of_scanFrom _ _ (Query.scan_eq_ok_iff.mp hscan)).segments
  obtain ⟨first, last, hfirst, hlast, hspan⟩ := hfills.1.bounds hts
  refine ⟨ts, first, last, hscan, ?_, ?_, hspan, hfills.placed.nests hts t (by simp)⟩
  · rw [List.head?_eq_getElem?, hfirst]
  · rw [List.getLast?_eq_getElem?, hlast]

/-- A plus in front leaves no trace, and a negation shares the span of its test.  The blank in
front of the first token belongs to no phrase. -/
theorem Query.Phrase.spans_nest_signed :
    ∃ t, Phrase.ofText " SELECT d FROM Document d WHERE +d.n * (2) - 1 IS NOT NULL AND d.a <= 1"
        = .ok t ∧ t.span = ⟨1, 71⟩ ∧
      ∃ ts first last,
        Query.scan " SELECT d FROM Document d WHERE +d.n * (2) - 1 IS NOT NULL AND d.a <= 1"
          = .ok ts ∧ ts.head? = some first ∧ ts.getLast? = some last ∧
        t.span = ⟨first.span.start, last.span.stop⟩ ∧ ∀ u ∈ t.nodes, u.Nests ts := by
  have hfound : (Phrase.ofText
      " SELECT d FROM Document d WHERE +d.n * (2) - 1 IS NOT NULL AND d.a <= 1").toOption.any
      fun t => t.span = ⟨1, 71⟩ := by decide +kernel
  obtain ⟨t, ht, hspan⟩ := Query.Scope.ok_of_any hfound
  exact ⟨t, ht, of_decide_eq_true hspan, Query.Phrase.spans_nest (Or.inl ht)⟩

end RowGuard
