import RowGuard.Proofs.Pieces

/-!
# Texts as sequences of longest pieces

A text is cut into tokens from the left: each is the longest piece that denotes one, and
what lies between them is blank.  The spans of the tokens tell this of the whole text, so
nothing of it is lost.  Where cutting fails there is no way to cut the text into longest
pieces at all, whatever the doubled quotes of a string that is not closed are taken for.
Only indexes that are too large are refused although they are pieces.
-/

namespace RowGuard.Query

open Scan

/-! ## Bytes -/

theorem byteLength_append (cs ds : List Char) :
    byteLength (cs ++ ds) = byteLength cs + byteLength ds := by
  induction cs with
  | nil => exact (Nat.zero_add _).symm
  | cons c cs ih => simp only [byteLength, List.cons_append, List.foldr_cons] at ih ⊢; omega

theorem byteLength_pos {cs : List Char} (h : cs ≠ []) : 0 < byteLength cs := by
  cases cs with
  | nil => exact absurd rfl h
  | cons c cs => exact Nat.add_pos_left c.utf8Size_pos _

/-- Of two ways to cut a text the one that stops first stops inside the other's front. -/
theorem exists_append_of_byteLength_le {front rest before after : List Char}
    (h : front ++ rest = before ++ after) (hle : byteLength front ≤ byteLength before) :
    ∃ mid, before = front ++ mid ∧ rest = mid ++ after := by
  rcases List.append_eq_append_iff.mp h with ⟨mid, hbefore, hrest⟩ | ⟨mid, hfront, hafter⟩
  · exact ⟨mid, hbefore, hrest⟩
  · rw [hfront, byteLength_append] at hle
    obtain rfl : mid = [] := by
      by_contra hmid
      have := byteLength_pos hmid
      omega
    exact ⟨[], by simpa using hfront.symm, by simpa using hafter.symm⟩

/-! ## Cutting step by step -/

/-- The characters from byte `offset` on, cut into longest pieces; blanks are passed over. -/
inductive Cut : Nat → List Char → List Lexeme → Prop
  | done {offset : Nat} : Cut offset [] []
  | blank {offset : Nat} {c : Char} {cs : List Char} {ts : List Lexeme} : isBlank c →
      Cut (offset + c.utf8Size) cs ts → Cut offset (c :: cs) ts
  | piece {offset : Nat} {piece rest : List Char} {token : Token} {ts : List Lexeme} :
      IsLongest (piece ++ rest) piece token → Cut (offset + byteLength piece) rest ts →
      Cut offset (piece ++ rest) (⟨token, ⟨offset, offset + byteLength piece⟩⟩ :: ts)

theorem isBlank_eq_false_of_denotes {c : Char} {cs : List Char} {token : Token}
    (h : Denotes (c :: cs) token) : isBlank c = false := by
  refine Bool.eq_false_iff.mpr fun hblank => ?_
  rw [denotes_cons_iff] at h
  simp only [isBlank, Bool.or_eq_true, decide_eq_true_eq] at hblank
  have hmark : (c :: cs, token) ∈ marks := by
    rcases hblank with (((rfl | rfl) | rfl) | rfl) | rfl <;> exact h
  rcases hblank with (((rfl | rfl) | rfl) | rfl) | rfl <;> simp [marks] at hmark

theorem IsLongest.exists_cons {c : Char} {cs piece : List Char} {token : Token}
    (h : IsLongest (c :: cs) piece token) : ∃ more, piece = c :: more ∧ isBlank c = false := by
  cases hpiece : piece with
  | nil => exact absurd hpiece h.denotes.ne_nil
  | cons d more =>
      obtain ⟨hfront, hdenotes, -⟩ := h
      rw [hpiece] at hfront hdenotes
      obtain ⟨rfl, -⟩ := List.cons_prefix_cons.mp hfront
      exact ⟨more, rfl, isBlank_eq_false_of_denotes hdenotes⟩

theorem Cut.eq_nil {offset : Nat} {ts : List Lexeme} (h : Cut offset [] ts) : ts = [] := by
  generalize hcs : ([] : List Char) = cs at h
  cases h with
  | done => rfl
  | blank => cases hcs
  | piece hlongest =>
      exact absurd (List.append_eq_nil_iff.mp hcs.symm).1 hlongest.denotes.ne_nil

theorem Cut.of_blank {offset : Nat} {c : Char} {cs : List Char} {ts : List Lexeme}
    (h : Cut offset (c :: cs) ts) (hc : isBlank c) : Cut (offset + c.utf8Size) cs ts := by
  generalize hinput : c :: cs = input at h
  cases h with
  | done => cases hinput
  | blank _ h =>
      cases hinput
      exact h
  | piece hlongest =>
      rw [← hinput] at hlongest
      obtain ⟨_, -, hfalse⟩ := hlongest.exists_cons
      rw [hc] at hfalse
      cases hfalse

/-- Where no blank stands the longest piece begins, and the text behind it is cut in turn. -/
theorem Cut.exists_piece {offset : Nat} {c : Char} {cs : List Char} {ts : List Lexeme}
    (h : Cut offset (c :: cs) ts) (hc : isBlank c = false) :
    ∃ piece rest token us, c :: cs = piece ++ rest ∧ IsLongest (c :: cs) piece token ∧
      ts = ⟨token, ⟨offset, offset + byteLength piece⟩⟩ :: us ∧
      Cut (offset + byteLength piece) rest us := by
  generalize hinput : c :: cs = input at h
  cases h with
  | done => cases hinput
  | blank hblank =>
      cases hinput
      rw [hc] at hblank
      cases hblank
  | piece hlongest h => exact ⟨_, _, _, _, rfl, hlongest, rfl, h⟩

theorem Cut.of_longest {offset : Nat} {piece rest : List Char} {token : Token}
    {ts : List Lexeme} (h : Cut offset (piece ++ rest) ts)
    (hlongest : IsLongest (piece ++ rest) piece token) :
    ∃ us, ts = ⟨token, ⟨offset, offset + byteLength piece⟩⟩ :: us ∧
      Cut (offset + byteLength piece) rest us := by
  cases hpiece : piece with
  | nil => exact absurd hpiece hlongest.denotes.ne_nil
  | cons c more =>
      rw [hpiece] at hlongest h
      obtain ⟨_, -, hc⟩ := hlongest.exists_cons
      obtain ⟨piece', rest', token', us, hinput, hlongest', rfl, hus⟩ := h.exists_piece hc
      obtain ⟨rfl, rfl⟩ := hlongest.unique hlongest'
      obtain rfl : rest = rest' := by simpa using hinput
      exact ⟨us, rfl, hus⟩

theorem isLongest_append_munch {c : Char} {cs : List Char} {token : Token} {n : Nat}
    (h : munch c cs = (some token, n)) :
    c :: cs = (c :: cs.take n) ++ cs.drop n ∧
      IsLongest ((c :: cs.take n) ++ cs.drop n) (c :: cs.take n) token := by
  have hsplit : c :: cs = (c :: cs.take n) ++ cs.drop n := by
    rw [List.cons_append, List.take_append_drop]
  refine ⟨hsplit, ?_⟩
  rw [← hsplit]
  exact isLongest_munch h

theorem Cut.cons {offset : Nat} {c : Char} {cs : List Char} {ts : List Lexeme}
    {token : Token} {n : Nat} (hmunch : munch c cs = (some token, n))
    (h : Cut (offset + byteLength (c :: cs.take n)) (cs.drop n) ts) :
    Cut offset (c :: cs) (⟨token, ⟨offset, offset + byteLength (c :: cs.take n)⟩⟩ :: ts) := by
  obtain ⟨hsplit, hlongest⟩ := isLongest_append_munch hmunch
  have hcut := Cut.piece hlongest h
  rwa [← hsplit] at hcut

/-- What is cut off at the front of a text is the first token of every way to cut it. -/
theorem Cut.of_munch {offset : Nat} {c : Char} {cs : List Char} {ts : List Lexeme}
    {token : Token} {n : Nat} (h : Cut offset (c :: cs) ts)
    (hmunch : munch c cs = (some token, n)) :
    ∃ us, ts = ⟨token, ⟨offset, offset + byteLength (c :: cs.take n)⟩⟩ :: us ∧
      Cut (offset + byteLength (c :: cs.take n)) (cs.drop n) us := by
  obtain ⟨hsplit, hlongest⟩ := isLongest_append_munch hmunch
  rw [hsplit] at h
  exact h.of_longest hlongest

/-- A text is cut in one way only. -/
theorem Cut.unique {offset : Nat} {cs : List Char} {ts us : List Lexeme} (h : Cut offset cs ts)
    (h' : Cut offset cs us) : ts = us := by
  induction h generalizing us with
  | done => exact h'.eq_nil.symm
  | blank hc _ ih => exact ih (h'.of_blank hc)
  | piece hlongest _ ih =>
      obtain ⟨us', rfl, hus⟩ := h'.of_longest hlongest
      rw [ih hus]

/-- A string that is not closed cannot be cut: if the first of two quotes is taken for its
end, the second one begins a string that is not closed either. -/
theorem not_cut_of_unclosed {offset : Nat} {cs : List Char} {ts : List Lexeme}
    (hcs : stringTail cs = none) : ¬Cut offset ('\'' :: cs) ts := by
  intro h
  obtain ⟨piece, rest, token, us, hinput, hlongest, -, hrest⟩ := h.exists_piece rfl
  obtain ⟨more, rfl, -⟩ := hlongest.exists_cons
  obtain ⟨body, hbody, rfl, -⟩ := denotes_cons_iff.mp hlongest.denotes
  have hbehind : cs = body ++ '\'' :: rest := by simpa using hinput
  rw [hbehind, stringTail_append hbody, Option.map_eq_none_iff] at hcs
  rcases rest with - | ⟨d, rest⟩
  · cases hcs
  by_cases hd : d = '\''
  · subst hd
    rw [stringTail_quote_quote, Option.map_eq_none_iff] at hcs
    have hshorter : rest.length < cs.length := by
      rw [hbehind, List.length_append, List.length_cons, List.length_cons]
      omega
    exact not_cut_of_unclosed hcs hrest
  · rw [stringTail_quote (by simpa using hd)] at hcs
    cases hcs
termination_by cs.length

/-! ## Scanning is cutting -/

theorem cut_of_scanFrom (offset : Nat) (cs : List Char) {ts : List Lexeme}
    (h : scanFrom offset cs = .ok ts) : Cut offset cs ts := by
  match cs with
  | [] =>
      rw [scanFrom] at h
      cases h
      exact .done
  | c :: rest =>
      rw [scanFrom] at h
      split at h
      · exact .blank ‹_› (cut_of_scanFrom _ rest h)
      · simp only at h
        split at h
        · cases h
        · rename_i token hfound
          obtain ⟨us, hus, h⟩ := Scope.ok_of_bind h
          cases h
          exact .cons (n := (munch c rest).2) (Prod.ext hfound rfl)
            (cut_of_scanFrom _ (rest.drop _) hus)
termination_by cs.length
decreasing_by all_goals simp only [List.length_cons, List.length_drop]; omega

/-- An index among the tokens does not fit. -/
def HasOversized (ts : List Lexeme) : Prop :=
  ∃ t ∈ ts, ∃ index, t.token = .positional index ∧ indexLimit ≤ index

theorem HasOversized.cons {ts : List Lexeme} (h : HasOversized ts) (t : Lexeme) :
    HasOversized (t :: ts) := by
  obtain ⟨u, hu, h⟩ := h
  exact ⟨u, List.mem_cons_of_mem t hu, h⟩

/-- Where cutting off fails, the text is cut only if an index does not fit. -/
theorem hasOversized_of_scanFrom (offset : Nat) (cs : List Char)
    {failure : Source.Span × String} (h : scanFrom offset cs = .error failure)
    {ts : List Lexeme} (hcut : Cut offset cs ts) : HasOversized ts := by
  match cs with
  | [] =>
      rw [scanFrom] at h
      cases h
  | c :: rest =>
      rw [scanFrom] at h
      split at h
      · exact hasOversized_of_scanFrom _ rest h (hcut.of_blank ‹_›)
      rename_i hblank
      have hc : isBlank c = false := Bool.eq_false_iff.mpr hblank
      simp only at h
      split at h
      · rename_i hnone
        rcases refused_of_munch (n := (munch c rest).2) (Prod.ext hnone rfl) with
          ⟨rfl, hunclosed⟩ | ⟨piece, index, hindex, hlongest⟩ | hrefused
        · exact absurd hcut (not_cut_of_unclosed hunclosed)
        · obtain ⟨piece', _, token, us, -, hlongest', rfl, -⟩ := hcut.exists_piece hc
          obtain ⟨-, rfl⟩ := hlongest.unique hlongest'
          exact ⟨_, List.mem_cons_self, index, rfl, hindex⟩
        · obtain ⟨piece, _, token, _, -, hlongest, -⟩ := hcut.exists_piece hc
          exact absurd hlongest (hrefused piece token)
      · rename_i token hfound
        obtain ⟨us, rfl, hus⟩ := hcut.of_munch (n := (munch c rest).2) (Prod.ext hfound rfl)
        cases hscan : scanFrom (offset + byteLength (c :: rest.take (munch c rest).2))
            (rest.drop (munch c rest).2) with
        | ok => simp [hscan] at h
        | error => exact (hasOversized_of_scanFrom _ (rest.drop _) hscan hus).cons _
termination_by cs.length
decreasing_by all_goals simp only [List.length_cons, List.length_drop]; omega

theorem scanFrom_of_cut {offset : Nat} {cs : List Char} {ts : List Lexeme}
    (h : Cut offset cs ts) (hfit : ¬HasOversized ts) : scanFrom offset cs = .ok ts := by
  cases hscan : scanFrom offset cs with
  | ok us => rw [h.unique (cut_of_scanFrom _ _ hscan)]
  | error => exact absurd (hasOversized_of_scanFrom _ _ hscan h) hfit

/-! ## The spans of a cut text -/

/-- The tokens of a text tell all of it.  None is empty, and each ends before the next one
begins.  What stands at a token's span is the longest piece that denotes a token there, and
it denotes this token; positions are those of bytes, and pieces are made of whole
characters.  A character that belongs to no span is blank. -/
structure Segments (offset : Nat) (cs : List Char) (ts : List Lexeme) : Prop where
  nonempty : ∀ t ∈ ts, t.span.start < t.span.stop
  ordered : ts.Pairwise fun t u => t.span.stop ≤ u.span.start
  pieces : ∀ t ∈ ts, ∃ before piece after, cs = before ++ (piece ++ after) ∧
    t.span = ⟨offset + byteLength before, offset + byteLength before + byteLength piece⟩ ∧
    IsLongest (piece ++ after) piece t.token
  gaps : ∀ before c after, cs = before ++ c :: after →
    (∀ t ∈ ts, offset + byteLength before < t.span.start ∨
      t.span.stop ≤ offset + byteLength before) → isBlank c

/-- Spans of what follows some characters, told from where these begin. -/
theorem Segments.pieces_append {offset : Nat} (front : List Char) {rest : List Char}
    {ts : List Lexeme} (h : Segments (offset + byteLength front) rest ts) : ∀ t ∈ ts,
    offset + byteLength front ≤ t.span.start ∧ ∃ before piece after,
      front ++ rest = before ++ (piece ++ after) ∧
      t.span = ⟨offset + byteLength before, offset + byteLength before + byteLength piece⟩ ∧
      IsLongest (piece ++ after) piece t.token := by
  intro t ht
  obtain ⟨before, piece, after, rfl, hspan, hlongest⟩ := h.pieces t ht
  refine ⟨by rw [hspan]; exact Nat.le_add_right _ _, front ++ before, piece, after,
    (List.append_assoc _ _ _).symm, ?_, hlongest⟩
  rw [hspan, byteLength_append, Nat.add_assoc]

theorem Segments.blank {offset : Nat} {c : Char} {cs : List Char} {ts : List Lexeme}
    (hc : isBlank c) (h : Segments (offset + c.utf8Size) cs ts) :
    Segments offset (c :: cs) ts where
  nonempty := h.nonempty
  ordered := h.ordered
  pieces t ht := (Segments.pieces_append [c] h t ht).2
  gaps := by
    intro before d after hcs hoff
    cases before with
    | nil =>
        cases hcs
        exact hc
    | cons e before =>
        obtain ⟨rfl, hbehind⟩ := List.cons.inj hcs
        refine h.gaps before d after hbehind fun t ht => ?_
        have := hoff t ht
        rwa [show byteLength (c :: before) = c.utf8Size + byteLength before from rfl,
          ← Nat.add_assoc] at this

theorem Segments.piece {offset : Nat} {piece rest : List Char} {token : Token}
    {ts : List Lexeme} (hlongest : IsLongest (piece ++ rest) piece token)
    (h : Segments (offset + byteLength piece) rest ts) :
    Segments offset (piece ++ rest)
      (⟨token, ⟨offset, offset + byteLength piece⟩⟩ :: ts) where
  nonempty := by
    have := byteLength_pos hlongest.denotes.ne_nil
    exact List.forall_mem_cons.mpr ⟨by simpa using this, h.nonempty⟩
  ordered := List.pairwise_cons.mpr ⟨fun t ht => (h.pieces_append piece t ht).1, h.ordered⟩
  pieces := List.forall_mem_cons.mpr
    ⟨⟨[], piece, rest, rfl, rfl, hlongest⟩, fun t ht => (h.pieces_append piece t ht).2⟩
  gaps := by
    intro before c after hcs hoff
    obtain ⟨hhead, hoff⟩ := List.forall_mem_cons.mp hoff
    have hbehind : byteLength piece ≤ byteLength before := by
      simp only [] at hhead
      omega
    obtain ⟨mid, rfl, hrest⟩ := exists_append_of_byteLength_le hcs hbehind
    refine h.gaps mid c after hrest fun t ht => ?_
    have := hoff t ht
    rwa [byteLength_append, ← Nat.add_assoc] at this

theorem Cut.segments {offset : Nat} {cs : List Char} {ts : List Lexeme} (h : Cut offset cs ts) :
    Segments offset cs ts := by
  induction h with
  | done => exact ⟨by simp, .nil, by simp, by simp⟩
  | blank hc _ ih => exact ih.blank hc
  | piece hlongest _ ih => exact ih.piece hlongest

/-- The tokens behind the front of a text tell the rest of it. -/
theorem Segments.behind {offset : Nat} (front : List Char) {rest : List Char} {ts : List Lexeme}
    (us : List Lexeme) (h : Segments offset (front ++ rest) (us ++ ts))
    (hbefore : ∀ u ∈ us, u.span.stop ≤ offset + byteLength front)
    (hbehind : ∀ t ∈ ts, offset + byteLength front ≤ t.span.start) :
    Segments (offset + byteLength front) rest ts where
  nonempty t ht := h.nonempty t (List.mem_append_right us ht)
  ordered := (List.pairwise_append.mp h.ordered).2.1
  pieces := by
    intro t ht
    obtain ⟨before, piece, after, hcs, hspan, hlongest⟩ := h.pieces t (List.mem_append_right us ht)
    have hle := hbehind t ht
    rw [hspan] at hle
    obtain ⟨mid, rfl, hrest⟩ := exists_append_of_byteLength_le hcs (Nat.le_of_add_le_add_left hle)
    refine ⟨mid, piece, after, hrest, ?_, hlongest⟩
    rw [hspan, byteLength_append, ← Nat.add_assoc]
  gaps := by
    intro before c after hrest hoff
    refine h.gaps (front ++ before) c after (by rw [hrest, List.append_assoc]) ?_
    rw [byteLength_append, ← Nat.add_assoc]
    intro t ht
    rcases List.mem_append.mp ht with hu | ht
    · have := hbefore t hu
      omega
    · exact hoff t ht

/-- Where no token begins, a blank stands. -/
theorem Segments.of_late {offset : Nat} {c : Char} {cs : List Char} {ts : List Lexeme}
    (h : Segments offset (c :: cs) ts) (hlate : ∀ t ∈ ts, t.span.start ≠ offset) :
    isBlank c ∧ Segments (offset + c.utf8Size) cs ts := by
  have hbehind : ∀ t ∈ ts, offset + c.utf8Size ≤ t.span.start := by
    intro t ht
    obtain ⟨before, piece, after, hcs, hspan, -⟩ := h.pieces t ht
    cases before with
    | nil => exact absurd (by rw [hspan]; rfl) (hlate t ht)
    | cons d before =>
        obtain ⟨rfl, -⟩ := List.cons.inj hcs
        rw [hspan]
        exact Nat.add_le_add_left (Nat.le_add_right _ _) offset
  refine ⟨h.gaps [] c cs rfl fun t ht => Or.inl ?_,
    Segments.behind [c] [] h (by simp) hbehind⟩
  have := hbehind t ht
  have := c.utf8Size_pos
  simp only [byteLength, List.foldr_nil]
  omega

/-- Where the first token begins, its piece stands. -/
theorem Segments.of_cons {offset : Nat} {cs : List Char} {t : Lexeme} {ts : List Lexeme}
    (h : Segments offset cs (t :: ts)) (hstart : t.span.start = offset) :
    ∃ piece rest, cs = piece ++ rest ∧ t.span = ⟨offset, offset + byteLength piece⟩ ∧
      IsLongest (piece ++ rest) piece t.token ∧ Segments (offset + byteLength piece) rest ts := by
  obtain ⟨before, piece, rest, rfl, hspan, hlongest⟩ := h.pieces t List.mem_cons_self
  obtain rfl : before = [] := by
    by_contra hbefore
    have := byteLength_pos hbefore
    rw [hspan] at hstart
    simp only at hstart
    omega
  refine ⟨piece, rest, rfl, hspan, hlongest, ?_⟩
  have hstop : t.span.stop = offset + byteLength piece := by rw [hspan]; rfl
  refine Segments.behind piece [t] h
    (List.forall_mem_singleton.mpr (Nat.le_of_eq hstop)) fun u hu => ?_
  rw [← hstop]
  exact (List.pairwise_cons.mp h.ordered).1 u hu

/-- Spans that tell a text are those of cutting it. -/
theorem Segments.cut {offset : Nat} {cs : List Char} {ts : List Lexeme}
    (h : Segments offset cs ts) : Cut offset cs ts := by
  match cs, ts with
  | [], [] => exact .done
  | [], t :: ts =>
      obtain ⟨before, piece, after, hcs, -, hlongest⟩ := h.pieces t List.mem_cons_self
      exact absurd (by simp_all) hlongest.denotes.ne_nil
  | c :: cs, [] =>
      obtain ⟨hc, h⟩ := h.of_late (by simp)
      exact .blank hc h.cut
  | c :: cs, t :: ts =>
      by_cases hstart : t.span.start = offset
      · obtain ⟨piece, rest, hsplit, hspan, hlongest, h⟩ := h.of_cons hstart
        have hshorter : rest.length < (c :: cs).length := by
          have := List.length_pos_of_ne_nil hlongest.denotes.ne_nil
          rw [hsplit, List.length_append]
          omega
        rw [hsplit, show t = ⟨t.token, ⟨offset, offset + byteLength piece⟩⟩ by rw [← hspan]]
        exact .piece hlongest h.cut
      · have hlate : ∀ u ∈ t :: ts, u.span.start ≠ offset := by
          refine List.forall_mem_cons.mpr ⟨hstart, fun u hu => ?_⟩
          have hstop := (List.pairwise_cons.mp h.ordered).1 u hu
          have hnonempty := h.nonempty t List.mem_cons_self
          obtain ⟨before, _, _, -, hspan, -⟩ := h.pieces t List.mem_cons_self
          have hfrom : offset ≤ t.span.start := by
            rw [hspan]
            exact Nat.le_add_right _ _
          omega
        obtain ⟨hc, h⟩ := h.of_late hlate
        exact .blank hc h.cut
termination_by cs.length
decreasing_by
  · exact Nat.lt_succ_self _
  · exact hshorter
  · exact Nat.lt_succ_self _

theorem segments_iff_cut {offset : Nat} {cs : List Char} {ts : List Lexeme} :
    Segments offset cs ts ↔ Cut offset cs ts :=
  ⟨Segments.cut, Cut.segments⟩

theorem scan_eq_ok_iff {source : String} {ts : List Lexeme} :
    scan source = .ok ts ↔ scanFrom 0 source.toList = .ok ts := by
  unfold scan
  cases scanFrom 0 source.toList <;> simp

theorem exists_of_scan_eq_error {source : String} {failure : Source.SyntaxError}
    (h : scan source = .error failure) : ∃ e, scanFrom 0 source.toList = .error e := by
  unfold scan at h
  cases hscan : scanFrom 0 source.toList with
  | ok => simp [hscan] at h
  | error e => exact ⟨e, rfl⟩

/-- A text has the tokens whose spans tell it, if their indexes fit.  Where it has none, no
tokens tell it but for some with an index that does not fit. -/
theorem scan_tells_longest_pieces (source : String) :
    (∀ ts, scan source = .ok ts ↔ Segments 0 source.toList ts ∧
      ∀ t ∈ ts, ∀ index, t.token = .positional index → index < indexLimit) ∧
    ∀ failure, scan source = .error failure → ∀ ts, Segments 0 source.toList ts →
      ∃ t ∈ ts, ∃ index, t.token = .positional index ∧ indexLimit ≤ index := by
  constructor
  · intro ts
    rw [scan_eq_ok_iff, segments_iff_cut]
    constructor
    · intro h
      refine ⟨cut_of_scanFrom _ _ h, fun t ht index hindex => ?_⟩
      have hlegal := legal_of_scanFrom _ _ h t ht
      rw [hindex] at hlegal
      exact hlegal
    · rintro ⟨hcut, hfit⟩
      refine scanFrom_of_cut hcut ?_
      rintro ⟨t, ht, index, hindex, hlarge⟩
      exact absurd (hfit t ht index hindex) (Nat.not_lt.mpr hlarge)
  · intro failure h ts hsegments
    obtain ⟨_, hscan⟩ := exists_of_scan_eq_error h
    exact hasOversized_of_scanFrom _ _ hscan hsegments.cut

/-- A letter behind a number is no exponent without digits, and a doubled quote does not
close a string. -/
theorem scan_tells_longest_pieces_price :
    Segments 0 "a<=1.5e 'it''s'".toList
      [⟨.word "a", ⟨0, 1⟩⟩, ⟨.lessOrEqual, ⟨1, 3⟩⟩, ⟨.decimal "1.5", ⟨3, 6⟩⟩, ⟨.word "e", ⟨6, 7⟩⟩,
        ⟨.string "'it''s'", ⟨8, 15⟩⟩] ∧
      (∃ failure, scan "'a''b" = .error failure) ∧
      ∀ ts, Segments 0 "'a''b".toList ts →
        ∃ t ∈ ts, ∃ index, t.token = .positional index ∧ indexLimit ≤ index := by
  have hprice : scan "a<=1.5e 'it''s'" = .ok
      [⟨.word "a", ⟨0, 1⟩⟩, ⟨.lessOrEqual, ⟨1, 3⟩⟩, ⟨.decimal "1.5", ⟨3, 6⟩⟩, ⟨.word "e", ⟨6, 7⟩⟩,
        ⟨.string "'it''s'", ⟨8, 15⟩⟩] := by decide +kernel
  have hopen : scan "'a''b" =
      .error (.atSpan "'a''b" ⟨0, 5⟩ "a valid token" "''a''b'") := by decide +kernel
  exact ⟨(((scan_tells_longest_pieces _).1 _).mp hprice).1, ⟨_, hopen⟩,
    (scan_tells_longest_pieces _).2 _ hopen⟩

end RowGuard.Query
