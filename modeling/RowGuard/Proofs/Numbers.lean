import RowGuard.Proofs.Orders
import RowGuard.Proofs.Roundings

/-!
# Numbers in any form

One number may be given as an integer or as a decimal, and as a decimal with any zeros behind its
digits.  Comparing two values goes by their numbers.  So does calculating: on integers the result
is the exact one, an integer where one can hold it, and otherwise it is the exact one, rounded.
An integer never needs to be rounded, so both ways give one number, and results from the same
numbers are alike.  About quotients and roots this is said as far as they are rounded once, as
every quotient of an integer is.
-/

namespace RowGuard

open Query (ArithmeticOperator)

/-! ## Numbers -/

theorem fitsInteger_iff {n : ℤ} : fitsInteger n ↔ -2 ^ 63 ≤ n ∧ n < 2 ^ 63 := by
  rw [fitsInteger, Bool.and_eq_true, decide_eq_true_iff, decide_eq_true_iff]
  rfl

theorem toInt_ofInt {n : ℤ} (h : fitsInteger n) : (Int64.ofInt n).toInt = n :=
  have ⟨hlow, hhigh⟩ := fitsInteger_iff.mp h
  Int64.toInt_ofInt_of_le hlow hhigh

theorem fitsInteger_toInt (n : Int64) : fitsInteger n.toInt :=
  fitsInteger_iff.mpr ⟨n.le_toInt, n.toInt_lt⟩

namespace Value

/-- The number that a value is. -/
def number? (v : Value) : Option ℚ := v.toDecimal?.map Decimal.toRat

/-- One value, or one number in two forms. -/
inductive Alike : Value → Value → Prop
  | refl (v : Value) : Alike v v
  | numbers {a b : Value} {q : ℚ} : a.number? = some q → b.number? = some q → Alike a b

variable {a b c d : Value} {q : ℚ}

theorem number?_eq_some : a.number? = some q ↔ ∃ x, a.toDecimal? = some x ∧ x.toRat = q :=
  Option.map_eq_some_iff

theorem number?_eq_none : a.number? = none ↔ a.toDecimal? = none := Option.map_eq_none_iff

@[simp]
theorem number?_integer (n : Int64) : (integer n).number? = some (n.toInt : ℚ) := by
  simp [number?, toDecimal?]

@[simp]
theorem number?_decimal (x : Decimal) : (decimal x).number? = some x.toRat := rfl

/-- A number is an integer or a decimal. -/
theorem eq_of_number (h : a.number? = some q) :
    (∃ n : Int64, a = integer n ∧ (n.toInt : ℚ) = q) ∨ ∃ x, a = decimal x ∧ x.toRat = q := by
  cases a with
  | integer n => exact Or.inl ⟨n, rfl, by simpa using h⟩
  | decimal x => exact Or.inr ⟨x, rfl, by simpa using h⟩
  | _ => cases h

theorem isNull_of_number (h : a.number? = some q) : a.isNull = false := by
  obtain ⟨n, rfl, -⟩ | ⟨x, rfl, -⟩ := eq_of_number h <;> rfl

theorem rank?_of_number (h : a.number? = some q) : a.rank? = some (.number q) := by
  obtain ⟨n, rfl, rfl⟩ | ⟨x, rfl, rfl⟩ := eq_of_number h
  · simp [Value.rank?, toDecimal?]
  · rfl

theorem Alike.number? (h : Alike a b) : a.number? = b.number? := by
  cases h with
  | refl => rfl
  | numbers ha hb => rw [ha, hb]

/-- What is no number is like itself only. -/
theorem Alike.eq_of_number (h : Alike a b) (ha : a.number? = none) : a = b := by
  cases h with
  | refl => rfl
  | numbers hb _ => cases ha.symm.trans hb

theorem Alike.isNull (h : Alike a b) : a.isNull = b.isNull := by
  cases h with
  | refl => rfl
  | numbers ha hb => rw [isNull_of_number ha, isNull_of_number hb]

theorem Alike.rank? (h : Alike a b) : a.rank? = b.rank? := by
  cases h with
  | refl => rfl
  | numbers ha hb => rw [rank?_of_number ha, rank?_of_number hb]

theorem Alike.compare? (hab : Alike a b) (hcd : Alike c d) : a.compare? c = b.compare? d := by
  rw [compare?_eq, compare?_eq, hab.rank?, hcd.rank?]

/-- A number is equal to itself in any form, and to nothing else. -/
theorem same_of_number (w : World) (ha : a.number? = some q) (b : Value) :
    (w.same a b ↔ b.number? = some q) ∧ (w.same b a ↔ b.number? = some q) := by
  obtain ⟨n, rfl, rfl⟩ | ⟨x, rfl, rfl⟩ := eq_of_number ha <;> cases b <;>
    simp [World.same, agree, toDecimal?, Decimal.same_iff, Value.number?] <;> exact eq_comm

theorem Alike.same (w : World) (hab : Alike a b) (hcd : Alike c d) :
    w.same a c = w.same b d := by
  have hleft : ∀ v, w.same a v = w.same b v := by
    intro v
    cases hab with
    | refl => rfl
    | numbers ha hb =>
        exact Bool.eq_iff_iff.mpr ((same_of_number w ha v).1.trans (same_of_number w hb v).1.symm)
  have hright : ∀ v, w.same v c = w.same v d := by
    intro v
    cases hcd with
    | refl => rfl
    | numbers hc hd =>
        exact Bool.eq_iff_iff.mpr ((same_of_number w hc v).2.trans (same_of_number w hd v).2.symm)
  rw [hleft, hright]

/-- The value is the whole number, and an integer if one can hold it. -/
def IsWhole (v : Value) (n : ℤ) : Prop :=
  v.number? = some (n : ℚ) ∧ ((∃ m, v = .integer m) ↔ fitsInteger n)

theorem isWhole_ofInt (n : ℤ) : (Value.ofInt n).IsWhole n := by
  unfold Value.ofInt IsWhole
  split
  · rename_i h
    simp [toInt_ofInt h, h]
  · rename_i h
    simp [h]

end Value

/-! ## Outcomes -/

/-- Outcomes that are faults or undefined alike, or have results in a relation. -/
inductive Outcome.Parallels {α β : Type} (R : α → β → Prop) :
    Except Fault (Option α) → Except Fault (Option β) → Prop
  | fault (f : Fault) : Parallels R (.error f) (.error f)
  | undefined : Parallels R (.ok none) (.ok none)
  | value {a : α} {b : β} : R a b → Parallels R (.ok (some a)) (.ok (some b))

open Outcome (Parallels)

theorem Outcome.Parallels.refl {α : Type} {R : α → α → Prop} (hR : ∀ a, R a a)
    (r : Except Fault (Option α)) : Parallels R r r := by
  rcases r with f | _ | a
  · exact .fault f
  · exact .undefined
  · exact .value (hR a)

theorem Eval.parallels_bind {α β γ δ : Type} {R : α → β → Prop} {S : γ → δ → Prop} {x : Eval α}
    {y : Eval β} {f : α → Eval γ} {g : β → Eval δ} (h : Parallels R x.run.outcome y.run.outcome)
    (hnext : ∀ a b, x.run.outcome = .ok (some a) → y.run.outcome = .ok (some b) → R a b →
      Parallels S (f a).run.outcome (g b).run.outcome) :
    Parallels S (x >>= f).run.outcome (y >>= g).run.outcome := by
  rw [outcome_bind, outcome_bind]
  generalize x.run.outcome = r at h hnext ⊢
  generalize y.run.outcome = r' at h hnext ⊢
  cases h with
  | fault f => exact .fault f
  | undefined => exact .undefined
  | value hab => exact hnext _ _ rfl rfl hab

/-! ## Operations -/

namespace Arithmetic

/-- What an operator stands for. -/
def exact {K : Type*} [Add K] [Sub K] [Mul K] [Div K] (op : ArithmeticOperator) (x y : K) : K :=
  match op with
  | .add => x + y
  | .subtract => x - y
  | .multiply => x * y
  | .divide => x / y

/-- Results that are alike. -/
abbrev Alike : Result → Result → Prop := Parallels Value.Alike

variable {w : World} {a b a' b' : Value} {x y : ℚ} {op : ArithmeticOperator}

theorem Alike.give {q : ℚ} (ha : a.number? = some q) (hb : b.number? = some q) :
    Alike (give a) (give b) := .value (.numbers ha hb)

theorem cast_exact (hop : op ≠ .divide) (m n : ℤ) :
    ((exact op m n : ℤ) : ℚ) = exact op (m : ℚ) (n : ℚ) := by
  cases op with
  | divide => exact absurd rfl hop
  | _ => simp [exact]

theorem natAbs_toInt_le (n : Int64) : n.toInt.natAbs ≤ 2 ^ 63 := by
  have hlow := n.le_toInt
  have hhigh := n.toInt_lt
  omega

theorem natAbs_exact_le (hop : op ≠ .divide) (m n : Int64) :
    (exact op m.toInt n.toInt).natAbs ≤ 10 ^ Decimal.precision := by
  have hm := natAbs_toInt_le m
  have hn := natAbs_toInt_le n
  refine le_trans ?_ (by decide +kernel : 2 ^ 126 ≤ 10 ^ Decimal.precision)
  cases op with
  | add => exact (Int.natAbs_add_le _ _).trans (by omega)
  | subtract => exact (Int.natAbs_sub_le _ _).trans (by omega)
  | multiply =>
      calc
        (m.toInt * n.toInt).natAbs = m.toInt.natAbs * n.toInt.natAbs := Int.natAbs_mul _ _
        _ ≤ 2 ^ 63 * 2 ^ 63 := Nat.mul_le_mul hm hn
        _ = 2 ^ 126 := by norm_num
  | divide => exact absurd rfl hop

theorem onDecimals_eq (hop : op ≠ .divide) (x y : Decimal) : ∃ z, onDecimals op x y =
    Arithmetic.give (.decimal z) ∧ z.toRat = rounded (exact op x.toRat y.toRat) := by
  cases op with
  | add => exact ⟨_, rfl, Decimal.toRat_add x y⟩
  | subtract => exact ⟨_, rfl, Decimal.toRat_sub x y⟩
  | multiply => exact ⟨_, rfl, Decimal.toRat_mul x y⟩
  | divide => exact absurd rfl hop

theorem whole?_eq (hop : op ≠ .divide) (m n : Int64) : whole? op m n =
    if fitsInteger (exact op m.toInt n.toInt) then some (Int64.ofInt (exact op m.toInt n.toInt))
    else none := by
  cases op with
  | divide => exact absurd rfl hop
  | _ => rfl

theorem binary_of_decimals (w : World) {d e : Decimal} (hwhole : wholeOf? op a b = none)
    (ha : a.toDecimal? = some d) (hb : b.toDecimal? = some e) :
    binary w op a b = onDecimals op d e := by
  have hnull : (a.isNull || b.isNull) = false := by
    rw [Value.isNull_of_number (Value.number?_eq_some.mpr ⟨d, ha, rfl⟩),
      Value.isNull_of_number (Value.number?_eq_some.mpr ⟨e, hb, rfl⟩)]
    rfl
  simp only [binary, hnull, hwhole, decimal, ha, hb]
  rfl

/-- Operations on integers do not overflow. -/
theorem binary_integers (w : World) (hop : op ≠ .divide) (m n : Int64) :
    ∃ v, binary w op (.integer m) (.integer n) = Arithmetic.give v ∧
      v.IsWhole (exact op m.toInt n.toInt) := by
  by_cases hfits : fitsInteger (exact op m.toInt n.toInt)
  · refine ⟨.integer (Int64.ofInt (exact op m.toInt n.toInt)), ?_, ?_⟩
    · simp [binary, Value.isNull, wholeOf?, whole?_eq hop, hfits]
    · simp [Value.IsWhole, toInt_ofInt hfits, hfits]
  · obtain ⟨z, hz, hnumber⟩ := onDecimals_eq hop (.ofInt m.toInt) (.ofInt n.toInt)
    have hwhole : wholeOf? op (.integer m) (.integer n) = none := by
      rw [wholeOf?, whole?_eq hop, if_neg hfits]
    refine ⟨.decimal z, (binary_of_decimals w hwhole rfl rfl).trans hz, ?_⟩
    rw [Decimal.toRat_ofInt, Decimal.toRat_ofInt, ← cast_exact hop,
      rounded_intCast (natAbs_exact_le hop m n)] at hnumber
    simp [Value.IsWhole, hnumber, hfits]

/-- The number of a result is the rounded result of the numbers. -/
theorem binary_numbers (w : World) (hop : op ≠ .divide) (ha : a.number? = some x)
    (hb : b.number? = some y) :
    ∃ v, binary w op a b = Arithmetic.give v ∧ v.number? = some (rounded (exact op x y)) := by
  by_cases hintegers : ∃ m n, a = .integer m ∧ b = .integer n
  · obtain ⟨m, n, rfl, rfl⟩ := hintegers
    obtain ⟨v, hv, hnumber, -⟩ := binary_integers w hop m n
    rw [Value.number?_integer, Option.some.injEq] at ha hb
    refine ⟨v, hv, ?_⟩
    rw [hnumber, ← ha, ← hb, ← cast_exact hop, rounded_intCast (natAbs_exact_le hop m n)]
  · obtain ⟨d, hd, rfl⟩ := Value.number?_eq_some.mp ha
    obtain ⟨e, he, rfl⟩ := Value.number?_eq_some.mp hb
    obtain ⟨z, hz, hnumber⟩ := onDecimals_eq hop d e
    have hwhole : wholeOf? op a b = none := by
      unfold wholeOf?
      split
      · exact absurd ⟨_, _, rfl, rfl⟩ hintegers
      · rfl
    exact ⟨.decimal z, (binary_of_decimals w hwhole hd he).trans hz, by simp [hnumber]⟩

/-! ## Division and remainders -/

theorem binary_divide (w : World) {d e : Decimal} (ha : a.toDecimal? = some d)
    (hb : b.toDecimal? = some e) : binary w .divide a b =
      if e.toRat = 0 then Arithmetic.undefined else Arithmetic.give (.decimal (d.div e)) := by
  have hwhole : wholeOf? .divide a b = none := by
    unfold wholeOf?
    split <;> rfl
  rw [binary_of_decimals w hwhole ha hb]
  simp only [onDecimals, Decimal.isZero_iff]

theorem divide_by_zero (w : World) (ha : a.number? = some x) (hb : b.number? = some 0) :
    binary w .divide a b = Arithmetic.undefined := by
  obtain ⟨d, hd, -⟩ := Value.number?_eq_some.mp ha
  obtain ⟨e, he, hzero⟩ := Value.number?_eq_some.mp hb
  rw [binary_divide w hd he, if_pos hzero]

theorem fitsInteger_tmod (m n : Int64) : fitsInteger (Int.tmod m.toInt n.toInt) := by
  obtain ⟨hlow, hhigh⟩ := fitsInteger_iff.mp (fitsInteger_toInt m)
  have hle : (Int.tmod m.toInt n.toInt).natAbs ≤ m.toInt.natAbs := by
    rw [Int.natAbs_tmod]
    exact Nat.mod_le _ _
  have hnonneg := Int.tmod_nonneg (a := m.toInt) n.toInt
  have hnonpos := Int.tmod_nonneg (a := -m.toInt) n.toInt
  rw [Int.neg_tmod] at hnonpos
  rw [fitsInteger_iff]
  omega

/-- The remainder of integers is an integer, also where the quotient overflows. -/
theorem modulo_integers (w : World) (m : Int64) {n : Int64} (hn : n ≠ 0) :
    ∃ r : Int64, modulo w (.integer m) (.integer n) = Arithmetic.give (.integer r) ∧
      r.toInt = Int.tmod m.toInt n.toInt := by
  have hfits := fitsInteger_tmod m n
  refine ⟨Int64.ofInt (Int.tmod m.toInt n.toInt), ?_, toInt_ofInt hfits⟩
  simp [modulo, Value.isNull, hn, Value.ofInt, hfits]

theorem modulo_of_decimals (w : World) {d e : Decimal}
    (hintegers : ¬∃ m n, a = .integer m ∧ b = .integer n) (ha : a.toDecimal? = some d)
    (hb : b.toDecimal? = some e) : modulo w a b =
      if e.toRat = 0 then Arithmetic.undefined else Arithmetic.give (.decimal (d.rem e)) := by
  have hnull : (a.isNull || b.isNull) = false := by
    rw [Value.isNull_of_number (Value.number?_eq_some.mpr ⟨d, ha, rfl⟩),
      Value.isNull_of_number (Value.number?_eq_some.mpr ⟨e, hb, rfl⟩)]
    rfl
  unfold modulo
  rw [hnull, if_neg Bool.false_ne_true]
  split
  · exact absurd ⟨_, _, rfl, rfl⟩ hintegers
  · simp only [decimal, ha, hb, ← Decimal.isZero_iff]
    rfl

theorem modulo_by_zero (w : World) (ha : a.number? = some x) (hb : b.number? = some 0) :
    modulo w a b = Arithmetic.undefined := by
  by_cases hintegers : ∃ m n, a = .integer m ∧ b = .integer n
  · obtain ⟨m, n, rfl, rfl⟩ := hintegers
    have hn : n = 0 := by
      rw [Value.number?_integer, Option.some.injEq, Int.cast_eq_zero] at hb
      exact Int64.toInt_inj.mp hb
    simp [modulo, Value.isNull, hn]
  · obtain ⟨d, hd, -⟩ := Value.number?_eq_some.mp ha
    obtain ⟨e, he, hzero⟩ := Value.number?_eq_some.mp hb
    rw [modulo_of_decimals w hintegers hd he, if_pos hzero]

theorem modulo_numbers (w : World) (ha : a.number? = some x) (hb : b.number? = some y)
    (hy : y ≠ 0) : ∃ v r, modulo w a b = Arithmetic.give v ∧ Decimal.IsRemainder x y r ∧
      v.number? = some (rounded r) := by
  by_cases hintegers : ∃ m n, a = .integer m ∧ b = .integer n
  · obtain ⟨m, n, rfl, rfl⟩ := hintegers
    rw [Value.number?_integer, Option.some.injEq] at ha hb
    subst ha hb
    have hn : n ≠ 0 := by
      rintro rfl
      exact hy rfl
    obtain ⟨r, hr, htmod⟩ := modulo_integers w m hn
    have hfew : r.toInt.natAbs ≤ 10 ^ Decimal.precision :=
      (natAbs_toInt_le r).trans (by decide +kernel)
    refine ⟨_, _, hr, Decimal.isRemainder_tmod (by exact_mod_cast hy), ?_⟩
    rw [← htmod, rounded_intCast hfew, Value.number?_integer]
  · obtain ⟨d, hd, rfl⟩ := Value.number?_eq_some.mp ha
    obtain ⟨e, he, rfl⟩ := Value.number?_eq_some.mp hb
    obtain ⟨r, hr, hnumber⟩ := Decimal.toRat_rem d hy
    refine ⟨_, r, (modulo_of_decimals w hintegers hd he).trans (if_neg hy), hr, ?_⟩
    rw [Value.number?_decimal, hnumber]

/-! ## One operand -/

theorem negate_number (w : World) (ha : a.number? = some x) :
    ∃ v, negate w a = Arithmetic.give v ∧ v.number? = some (-x) := by
  obtain ⟨n, rfl, rfl⟩ | ⟨d, rfl, rfl⟩ := Value.eq_of_number ha
  · exact ⟨_, rfl, by rw [(Value.isWhole_ofInt _).1]; push_cast; rfl⟩
  · exact ⟨_, rfl, by simp⟩

theorem abs_number (w : World) (ha : a.number? = some x) :
    ∃ v, abs w a = Arithmetic.give v ∧ v.number? = some |x| := by
  obtain ⟨n, rfl, rfl⟩ | ⟨d, rfl, rfl⟩ := Value.eq_of_number ha
  · exact ⟨_, rfl, by rw [(Value.isWhole_ofInt _).1, Int.natCast_natAbs, Int.cast_abs]⟩
  · exact ⟨_, rfl, by simp⟩

theorem sqrt_decimal (w : World) {d : Decimal} (ha : a.toDecimal? = some d) :
    sqrt w a = .ok (d.sqrt?.map Value.decimal) := by
  have hnull := Value.isNull_of_number (Value.number?_eq_some.mpr ⟨d, ha, rfl⟩)
  simp only [sqrt, hnull, decimal, ha]
  rfl

/-! ## Operands that are alike -/

theorem Alike.refl (r : Result) : Alike r r := Parallels.refl .refl r

/-- An operation that gives null beside null, and otherwise refuses the first operand that is no
number. -/
structure TakesNumbers (w : World) (name : String) (f : Value → Value → Result) : Prop where
  left : ∀ a b, a.number? = none → f a b =
    if a.isNull || b.isNull then Arithmetic.give .null
    else .error (.violation (.notNumeric name (w.typeName a)))
  right : ∀ a b q, a.number? = some q → b.number? = none → f a b =
    if b.isNull then Arithmetic.give .null
    else .error (.violation (.notNumeric name (w.typeName b)))

/-- Beside an operand that is no number, the form of the other one does not matter. -/
theorem TakesNumbers.alike {name : String} {f : Value → Value → Result}
    (h : TakesNumbers w name f) (ha : a.Alike a') (hb : b.Alike b')
    (hnumbers : ∀ x y, a.number? = some x → a'.number? = some x → b.number? = some y →
      b'.number? = some y → Alike (f a b) (f a' b')) : Alike (f a b) (f a' b') := by
  cases hx : a.number? with
  | none =>
      obtain rfl := ha.eq_of_number hx
      rw [h.left a b hx, h.left a b' hx, hb.isNull]
      exact Alike.refl _
  | some x =>
      have hx' := ha.number?.symm.trans hx
      cases hy : b.number? with
      | none =>
          obtain rfl := hb.eq_of_number hy
          rw [h.right a b x hx hy, h.right a' b x hx' hy]
          exact Alike.refl _
      | some y => exact hnumbers x y hx hx' hy (hb.number?.symm.trans hy)

theorem binary_takesNumbers (w : World) (op : ArithmeticOperator) :
    TakesNumbers w "arithmetic" (binary w op) where
  left a b ha := by
    rw [Value.number?_eq_none] at ha
    have hwhole : wholeOf? op a b = none := by
      unfold wholeOf?
      split
      · cases ha
      · rfl
    simp only [binary, hwhole, decimal, ha]
    rfl
  right a b q ha hb := by
    obtain ⟨d, hd, -⟩ := Value.number?_eq_some.mp ha
    rw [Value.number?_eq_none] at hb
    have hwhole : wholeOf? op a b = none := by
      unfold wholeOf?
      split
      · cases hb
      · rfl
    simp only [binary, hwhole, decimal, hd, hb, Value.isNull_of_number ha, Bool.false_or]
    rfl

theorem modulo_takesNumbers (w : World) : TakesNumbers w "MOD" (modulo w) where
  left a b ha := by
    rw [Value.number?_eq_none] at ha
    unfold modulo
    split
    · rfl
    · split
      · cases ha
      · simp only [decimal, ha]
        rfl
  right a b q ha hb := by
    obtain ⟨d, hd, -⟩ := Value.number?_eq_some.mp ha
    rw [Value.number?_eq_none] at hb
    unfold modulo
    rw [Value.isNull_of_number ha, Bool.false_or]
    split
    · rfl
    · split
      · cases hb
      · simp only [decimal, hd, hb]
        rfl

theorem binary_alike (w : World) (hop : op ≠ .divide) (ha : a.Alike a') (hb : b.Alike b') :
    Alike (binary w op a b) (binary w op a' b') :=
  (binary_takesNumbers w op).alike ha hb fun x y hx hx' hy hy' => by
    obtain ⟨v, hv, hnumber⟩ := binary_numbers w hop hx hy
    obtain ⟨v', hv', hnumber'⟩ := binary_numbers w hop hx' hy'
    rw [hv, hv']
    exact .give hnumber hnumber'

/-- Division of the decimals is division of the numbers, rounded. -/
def QuotientRounds (a b : Value) : Prop :=
  ∀ d e, a.toDecimal? = some d → b.toDecimal? = some e → e.toRat ≠ 0 →
    (d.div e).toRat = rounded (d.toRat / e.toRat)

theorem divide_alike (w : World) (ha : a.Alike a') (hb : b.Alike b') (hround : QuotientRounds a b)
    (hround' : QuotientRounds a' b') : Alike (binary w .divide a b) (binary w .divide a' b') :=
  (binary_takesNumbers w .divide).alike ha hb fun x y hx hx' hy hy' => by
    obtain ⟨d, hd, rfl⟩ := Value.number?_eq_some.mp hx
    obtain ⟨e, he, rfl⟩ := Value.number?_eq_some.mp hy
    obtain ⟨d', hd', hdd⟩ := Value.number?_eq_some.mp hx'
    obtain ⟨e', he', hee⟩ := Value.number?_eq_some.mp hy'
    rw [binary_divide w hd he, binary_divide w hd' he', hee]
    split
    · exact .undefined
    · rename_i hzero
      refine .give (Value.number?_decimal _) ?_
      rw [Value.number?_decimal, hround d e hd he hzero,
        hround' d' e' hd' he' (by rwa [hee]), hdd, hee]

/-- A dividend without surplus digits is enough. -/
theorem quotientRounds_of_digitCount_le {d : Decimal} (ha : a.toDecimal? = some d)
    (hcount : digitCount d.digits.natAbs ≤ Decimal.precision) (b : Value) :
    QuotientRounds a b := by
  intro d' e hd' _ hzero
  obtain rfl := Option.some.inj (ha.symm.trans hd')
  exact Decimal.toRat_div hcount hzero

theorem quotientRounds_integer (n : Int64) (b : Value) : QuotientRounds (.integer n) b :=
  quotientRounds_of_digitCount_le rfl
    (digitCount_le (by decide) ((natAbs_toInt_le n).trans_lt (by decide +kernel))) b

/-- Surplus digits of a dividend are rounded off in two steps, first to a whole number of units
of the last place that is given, so a zero at the end can tell in the result. -/
theorem exists_divide_not_alike (w : World) : ∃ a a' b : Value, a.Alike a' ∧
    ¬Alike (binary w .divide a b) (binary w .divide a' b) := by
  refine ⟨.decimal ⟨6 * 10 ^ 100 + 28, 0⟩, .decimal ⟨(6 * 10 ^ 100 + 28) * 10, 1⟩, .integer 6,
    .numbers (Value.number?_decimal _) ?_, fun h => ?_⟩
  · rw [Value.number?_decimal, Option.some.injEq, ← Decimal.same_iff]
    decide +kernel
  · have hsix : (Decimal.ofInt (6 : Int64).toInt).toRat ≠ 0 := by
      rw [Decimal.toRat_ofInt]
      decide
    rw [binary_divide w rfl rfl, binary_divide w rfl rfl, if_neg hsix, if_neg hsix] at h
    cases h with
    | value halike =>
        have hsame := halike.number?
        rw [Value.number?_decimal, Value.number?_decimal, Option.some.injEq,
          ← Decimal.same_iff] at hsame
        revert hsame
        decide +kernel

theorem modulo_alike (w : World) (ha : a.Alike a') (hb : b.Alike b') :
    Alike (modulo w a b) (modulo w a' b') :=
  (modulo_takesNumbers w).alike ha hb fun x y hx hx' hy hy' => by
    obtain rfl | hzero := eq_or_ne y 0
    · rw [modulo_by_zero w hx hy, modulo_by_zero w hx' hy']
      exact .undefined
    · obtain ⟨v, r, hv, hr, hnumber⟩ := modulo_numbers w hx hy hzero
      obtain ⟨v', r', hv', hr', hnumber'⟩ := modulo_numbers w hx' hy' hzero
      rw [hv, hv']
      exact .give hnumber (by rw [hnumber', hr.eq hr'])

/-- What gives a number for every number gives one for both forms of it. -/
theorem Alike.of_numbers {f : Value → Result} {g : ℚ → ℚ} (ha : a.Alike a')
    (hf : ∀ {v x}, v.number? = some x → ∃ u, f v = Arithmetic.give u ∧ u.number? = some (g x)) :
    Alike (f a) (f a') := by
  cases ha with
  | refl => exact Alike.refl _
  | numbers hx hx' =>
      obtain ⟨u, hu, hnumber⟩ := hf hx
      obtain ⟨u', hu', hnumber'⟩ := hf hx'
      rw [hu, hu']
      exact .give hnumber hnumber'

theorem negate_alike (w : World) (ha : a.Alike a') : Alike (negate w a) (negate w a') :=
  .of_numbers ha (negate_number w)

theorem abs_alike (w : World) (ha : a.Alike a') : Alike (abs w a) (abs w a') :=
  .of_numbers ha (abs_number w)

/-- The root of the decimal is the root of the number, rounded. -/
def RootRounds (a : Value) : Prop :=
  ∀ d r, a.toDecimal? = some d → d.sqrt? = some r → (r.toRat : ℝ) = rounded √(d.toRat : ℝ)

theorem sqrt_alike (w : World) (ha : a.Alike a') (hround : RootRounds a)
    (hround' : RootRounds a') : Alike (sqrt w a) (sqrt w a') := by
  cases ha with
  | refl => exact Alike.refl _
  | numbers hx hx' =>
      obtain ⟨d, hd, rfl⟩ := Value.number?_eq_some.mp hx
      obtain ⟨d', hd', hdd⟩ := Value.number?_eq_some.mp hx'
      rw [sqrt_decimal w hd, sqrt_decimal w hd']
      cases hroot : d.sqrt? with
      | none =>
          have hneg : d'.sqrt? = none := by
            rwa [Decimal.sqrt?_eq_none_iff, hdd, ← Decimal.sqrt?_eq_none_iff]
          rw [hneg]
          exact .undefined
      | some r =>
          cases hroot' : d'.sqrt? with
          | none =>
              rw [Decimal.sqrt?_eq_none_iff, hdd, ← Decimal.sqrt?_eq_none_iff, hroot] at hroot'
              cases hroot'
          | some r' =>
              refine .give (Value.number?_decimal _) ?_
              have hnumber := hround d r hd hroot
              rw [← hdd, ← hround' d' r' hd' hroot'] at hnumber
              rw [Value.number?_decimal, Rat.cast_injective hnumber]

/-- Roots of decimals without surplus digits are equal, however they are rounded. -/
theorem sqrt_eq_of_digitCount_le (w : World) (h : a.Alike a') {d d' : Decimal}
    (ha : a.toDecimal? = some d) (ha' : a'.toDecimal? = some d')
    (hcount : digitCount d.digits.natAbs ≤ Decimal.rootDigits)
    (hcount' : digitCount d'.digits.natAbs ≤ Decimal.rootDigits) : sqrt w a = sqrt w a' := by
  have hnumbers := h.number?
  rw [Value.number?, Value.number?, ha, ha', Option.map_some, Option.map_some,
    Option.some.injEq] at hnumbers
  rw [sqrt_decimal w ha, sqrt_decimal w ha', Decimal.sqrt?_eq_of_toRat_eq hcount hcount' hnumbers]

end Arithmetic

end RowGuard
