/-
`Exactness.lean` -- evaluation against exact arithmetic.

Where no reals are involved, an expression has a value over the unbounded integers
(`Expr.exactValue?`): a quotient drops its fraction, and nothing has a range. The value that is
computed has 64 bits. The two are compared here, part by part. The parts of an expression
are listed in the order in which they are evaluated, so that each operator comes behind its
operands (`Expr.parts`); a part is representable if its exact value exists and fits.

Either all parts are representable, and then the exact value is the one that is computed;
or there is a first part that is not, and then it is this part that fails, since its own
operands are there (`Expr.Blames`). Nothing that stands behind it is ever looked at, which is
why the first part to fail decides the error alone (`value_exact_or_first_failure`).
-/
import MiniPascal.Proofs.Execution

set_option autoImplicit false

namespace MiniPascal

/-! ## The range -/

/-- The integers of 64 bits. -/
def Fits (n : Int) : Prop := -9223372036854775808 ≤ n ∧ n ≤ 9223372036854775807

instance : DecidablePred Fits := fun n =>
  inferInstanceAs (Decidable (-9223372036854775808 ≤ n ∧ n ≤ 9223372036854775807))

theorem fits_toInt (v : Int64) : Fits v.toInt := by
  have hlow := v.le_toInt
  have hhigh := v.toInt_lt
  unfold Fits
  omega

theorem toInt_ofInt {n : Int} (h : Fits n) : (Int64.ofInt n).toInt = n := by
  unfold Fits at h
  exact Int64.toInt_ofInt_of_le (by omega) (by omega)

/-- An exact result is a value if it fits, and an overflow if it does not. -/
theorem Number.exactly_eq (n : Int) :
    exactly n = if Fits n then .ok (.integer (Int64.ofInt n)) else .error .overflow := by
  have hmin : Int64.minValue.toInt = -9223372036854775808 := rfl
  have hmax : Int64.maxValue.toInt = 9223372036854775807 := rfl
  rw [exactly, ofInt?, hmin, hmax]
  by_cases h : Fits n
  · rw [if_pos h, if_pos (show _ ∧ _ from h)]
  · rw [if_neg h, if_neg (show ¬ (_ ∧ _) from h)]

/-! ## Exact values -/

/-- The operation on the unbounded integers. There is no quotient by zero, and a quotient
drops its fraction; `/` does not give integers. -/
def BinaryOperator.exactValue? : BinaryOperator → Int → Int → Option Int
  | add, a, b => some (a + b)
  | subtract, a, b => some (a - b)
  | multiply, a, b => some (a * b)
  | integerDivide, a, b => if b = 0 then none else some (a.tdiv b)
  | divide, _, _ => none

/-- Only a divisor of zero keeps an operator of integers from having a result. -/
theorem BinaryOperator.eq_zero_of_exactValue?_eq_none {op : BinaryOperator} {a b : Int}
    (hop : op ≠ .divide) (h : op.exactValue? a b = none) : op = .integerDivide ∧ b = 0 := by
  cases op with
  | divide => exact absurd rfl hop
  | integerDivide =>
    rw [exactValue?] at h
    split at h
    · next hzero => exact ⟨rfl, hzero⟩
    · cases h
  | _ => cases h

/-- What a sign makes of an integer. -/
def UnaryOperator.exact : UnaryOperator → Int → Int
  | plus, a => a
  | minus, a => -a

namespace Expr

/-- The value over the unbounded integers, if there is one. -/
def exactValue? (store : Store) : Expr → Option Int
  | literal (.integer value) _ => some value.toInt
  | literal (.real _) _ => none
  | .variable name =>
    match store.get? name.name with
    | some (.integer value) => some value.toInt
    | _ => none
  | binary op left right _ => do
    op.exactValue? (← left.exactValue? store) (← right.exactValue? store)
  | unary op operand _ => do return op.exact (← operand.exactValue? store)

/-- No reals are involved: there is no real literal and no `/`, and no variable is bound to
a real. -/
def Integral (store : Store) : Expr → Prop
  | literal value _ => ∃ v, value = .integer v
  | .variable name => ∀ value, store.get? name.name = some value → ∃ v, value = .integer v
  | binary op left right _ => op ≠ .divide ∧ left.Integral store ∧ right.Integral store
  | unary _ operand _ => operand.Integral store

/-- The expression and everything in it, in the order of evaluation: the left operand, the
right operand, the operator. -/
def parts : Expr → List Expr
  | literal value position => [literal value position]
  | .variable name => [.variable name]
  | binary op left right position =>
    left.parts ++ (right.parts ++ [binary op left right position])
  | unary op operand position => operand.parts ++ [unary op operand position]

/-- All that an exact value of 64 bits takes: every variable is bound, no divisor of `DIV`
is zero, and no part leaves the range. -/
structure Exact (store : Store) (e : Expr) : Prop where
  bound : ∀ name ∈ e.occurrences, ∃ value, store.get? name.name = some value
  divisors : ∀ left right position, binary .integerDivide left right position ∈ e.parts →
    right.exactValue? store ≠ some 0
  fits : ∀ part ∈ e.parts, ∀ n, part.exactValue? store = some n → Fits n

/-- What goes wrong at an expression itself, although its operands have their values. -/
inductive Blames (store : Store) : Expr → Error RuntimeFault → Prop
  | unassigned {name} :
      store.get? name.name = none →
      Blames store (.variable name) ⟨.unassignedVariable name.name, name.position⟩
  | zeroDivisor {left right position} :
      right.exactValue? store = some 0 →
      Blames store (binary .integerDivide left right position) ⟨.divisionByZero, position⟩
  | operation {op left right position n} :
      (binary op left right position).exactValue? store = some n → ¬ Fits n →
      Blames store (binary op left right position) ⟨.overflow, position⟩
  | sign {op operand position n} :
      (unary op operand position).exactValue? store = some n → ¬ Fits n →
      Blames store (unary op operand position) ⟨.overflow, position⟩

/-- The exact value exists and fits. -/
def Representable (store : Store) (e : Expr) : Prop := ∃ n, e.exactValue? store = some n ∧ Fits n

/-- The first of some parts that is not representable is to blame for the error. -/
def FirstFailure (store : Store) (ps : List Expr) (error : Error RuntimeFault) : Prop :=
  ∃ before part after, ps = before ++ part :: after ∧
    (∀ p ∈ before, p.Representable store) ∧ part.Blames store error

/-! ## The first failure -/

variable {store : Store} {e : Expr} {ps qs : List Expr} {error error' : Error RuntimeFault}

/-- There is no exact quotient by zero, whatever is divided. -/
theorem exactValue?_zeroDivisor {left right : Expr} {position : Position}
    (h : right.exactValue? store = some 0) :
    (binary .integerDivide left right position).exactValue? store = none := by
  rw [exactValue?, h]
  cases left.exactValue? store <;> rfl

theorem exactValue?_operation {op : BinaryOperator} {left right : Expr} {position : Position}
    {a b : Int}
    (hleft : left.exactValue? store = some a) (hright : right.exactValue? store = some b) :
    (binary op left right position).exactValue? store = op.exactValue? a b := by
  rw [exactValue?, hleft, hright]
  rfl

theorem exactValue?_sign {op : UnaryOperator} {operand : Expr} {position : Position} {a : Int}
    (h : operand.exactValue? store = some a) :
    (unary op operand position).exactValue? store = some (op.exact a) := by
  rw [exactValue?, h]
  rfl

/-- What is to blame has no exact value that fits. -/
theorem Blames.not_representable (h : e.Blames store error) : ¬ e.Representable store := by
  rintro ⟨n, hn, hfits⟩
  cases h with
  | unassigned hnone =>
    rw [exactValue?, hnone] at hn
    cases hn
  | zeroDivisor hzero =>
    rw [exactValue?_zeroDivisor hzero] at hn
    cases hn
  | operation hm hnot | sign hm hnot =>
    rw [hm] at hn
    cases hn
    exact hnot hfits

/-- A part is to blame for one error only. -/
theorem Blames.unique (h : e.Blames store error) (h' : e.Blames store error') : error = error' := by
  cases h with
  | unassigned | sign =>
    cases h'
    rfl
  | zeroDivisor h =>
    cases h' with
    | zeroDivisor => rfl
    | operation h' =>
      rw [exactValue?_zeroDivisor h] at h'
      cases h'
  | operation h =>
    cases h' with
    | zeroDivisor h' =>
      rw [exactValue?_zeroDivisor h'] at h
      cases h
    | operation => rfl

theorem FirstFailure.append (h : FirstFailure store ps error) (qs : List Expr) :
    FirstFailure store (ps ++ qs) error := by
  obtain ⟨before, part, after, rfl, hbefore, hpart⟩ := h
  exact ⟨before, part, after ++ qs, by simp, hbefore, hpart⟩

theorem FirstFailure.behind (hps : ∀ p ∈ ps, p.Representable store)
    (h : FirstFailure store qs error) : FirstFailure store (ps ++ qs) error := by
  obtain ⟨before, part, after, rfl, hbefore, hpart⟩ := h
  refine ⟨ps ++ before, part, after, by simp, fun p hp => ?_, hpart⟩
  exact (List.mem_append.mp hp).elim (hps p) (hbefore p)

/-- There is one first part, and so there is one error. -/
theorem FirstFailure.unique (h : FirstFailure store ps error) (h' : FirstFailure store ps error') :
    error = error' := by
  obtain ⟨before, part, after, rfl, hbefore, hpart⟩ := h
  obtain ⟨before', part', after', heq, hbefore', hpart'⟩ := h'
  -- if one of the two came first, it would stand among the parts before the other one
  rcases List.append_eq_append_iff.mp heq with ⟨gap, rfl, hgap⟩ | ⟨gap, rfl, hgap⟩
  · cases gap with
    | nil =>
      cases hgap
      exact hpart.unique hpart'
    | cons p gap =>
      cases hgap
      exact absurd (hbefore' part (by simp)) hpart.not_representable
  · cases gap with
    | nil =>
      cases hgap
      exact hpart.unique hpart'
    | cons p gap =>
      cases hgap
      exact absurd (hbefore part' (by simp)) hpart'.not_representable

end Expr

/-! ## Operators -/

/-- On integers an operator divides by zero, or gives its exact result if that fits. -/
theorem Number.binary_integers {op : BinaryOperator} (hop : op ≠ .divide) (a b : Int64) :
    binary op (.integer a) (.integer b) = match op.exactValue? a.toInt b.toInt with
      | some n => exactly n
      | none => .error .divisionByZero := by
  cases op with
  | divide => exact absurd rfl hop
  | integerDivide =>
    have hzero : (b == 0) = true ↔ b.toInt = 0 := by
      rw [beq_iff_eq, ← Int64.toInt_inj, Int64.toInt_zero]
    change (if (b == 0) = true then .error .divisionByZero else exactly (a.toInt.tdiv b.toInt)) = _
    rw [BinaryOperator.exactValue?]
    by_cases h : b.toInt = 0
    · rw [if_pos (hzero.mpr h), if_pos h]
    · rw [if_neg (mt hzero.mp h), if_neg h]
  | _ => rfl

/-- A sign gives its exact result if that fits. -/
theorem Number.unary_integer (op : UnaryOperator) (a : Int64) :
    unary op (.integer a) = exactly (op.exact a.toInt) := by
  cases op with
  | plus => rw [exactly_eq, UnaryOperator.exact, if_pos (fits_toInt a), Int64.ofInt_toInt]; rfl
  | minus => rfl

/-! ## Expressions -/

namespace Expr

variable {store : Store} {e : Expr}

/-- The two ways in which an evaluation can end. -/
inductive Ends (store : Store) (e : Expr) : Prop
  | value {v} :
      e.value store = .ok (.integer v) → e.exactValue? store = some v.toInt →
      (∀ p ∈ e.parts, p.Representable store) → Ends store e
  | failure {error} :
      e.value store = .error error → FirstFailure store e.parts error → Ends store e

/-- The step lemma: where the parts before it are representable, a node is representable and
has its exact value, or it fails and is to blame. -/
theorem ends_of_exact {before : List Expr} {position : Position} {n : Int}
    (hparts : e.parts = before ++ [e]) (hbefore : ∀ p ∈ before, p.Representable store)
    (hvalue : e.value store = Number.located position (Number.exactly n))
    (hexact : e.exactValue? store = some n)
    (hblames : ¬ Fits n → e.Blames store ⟨.overflow, position⟩) : Ends store e := by
  rw [Number.exactly_eq] at hvalue
  by_cases hfits : Fits n
  · rw [if_pos hfits] at hvalue
    refine .value hvalue (by rw [toInt_ofInt hfits, hexact]) fun p hp => ?_
    rw [hparts, List.mem_append, List.mem_singleton] at hp
    rcases hp with hp | rfl
    · exact hbefore p hp
    · exact ⟨n, hexact, hfits⟩
  · rw [if_neg hfits] at hvalue
    exact .failure hvalue ⟨before, e, [], hparts, hbefore, hblames hfits⟩

/-- The induction follows the evaluation: an operand that fails ends it, and otherwise what
its operands left decides about the node. -/
theorem ends (h : e.Integral store) : Ends store e := by
  induction e with
  | literal value position =>
    obtain ⟨v, rfl⟩ := h
    exact .value rfl rfl (List.forall_mem_singleton.mpr ⟨_, rfl, fits_toInt v⟩)
  | «variable» name =>
    cases hget : store.get? name.name with
    | none =>
      have hvalue : (Expr.variable name).value store =
          .error ⟨.unassignedVariable name.name, name.position⟩ := by rw [Expr.value, hget]
      exact .failure hvalue ⟨[], _, [], rfl, List.forall_mem_nil _, .unassigned hget⟩
    | some value =>
      obtain ⟨v, rfl⟩ := h value hget
      have hvalue : (Expr.variable name).value store = .ok (.integer v) := by rw [Expr.value, hget]
      have hexact : (Expr.variable name).exactValue? store = some v.toInt := by
        rw [exactValue?, hget]
      exact .value hvalue hexact (List.forall_mem_singleton.mpr ⟨_, hexact, fits_toInt v⟩)
  | unary op operand position ih =>
    -- the parts of an operand come first, so its failure is the first of the whole
    cases ih h with
    | failure hoperand hfirst =>
      exact .failure (by rw [Expr.value, hoperand]; rfl) (hfirst.append _)
    | @value v hoperand hexact hparts =>
      have hvalue : (unary op operand position).value store =
          Number.located position (Number.exactly (op.exact v.toInt)) := by
        rw [Expr.value, hoperand, ← Number.unary_integer]
        rfl
      exact ends_of_exact rfl hparts hvalue (exactValue?_sign hexact)
        (.sign (exactValue?_sign hexact))
  | binary op left right position ihleft ihright =>
    obtain ⟨hop, hleftIntegral, hrightIntegral⟩ := h
    cases ihleft hleftIntegral with
    | failure hleft hfirst =>
      exact .failure (by rw [Expr.value, hleft]; rfl) (hfirst.append _)
    | @value a hleft hleftExact hleftParts =>
      -- the right operand is reached only now, with nothing failed in front of it
      cases ihright hrightIntegral with
      | failure hright hfirst =>
        exact .failure (by rw [Expr.value, hleft, hright]; rfl)
          ((hfirst.append _).behind hleftParts)
      | @value b hright hrightExact hrightParts =>
        have hbefore : ∀ p ∈ left.parts ++ right.parts, p.Representable store :=
          List.forall_mem_append.mpr ⟨hleftParts, hrightParts⟩
        have hparts : (binary op left right position).parts =
            (left.parts ++ right.parts) ++ [binary op left right position] :=
          (List.append_assoc _ _ _).symm
        have hvalue : (binary op left right position).value store = Number.located position
            (Number.binary op (.integer a) (.integer b)) := by
          rw [Expr.value, hleft, hright]
          rfl
        have hexact : (binary op left right position).exactValue? store =
            op.exactValue? a.toInt b.toInt :=
          exactValue?_operation hleftExact hrightExact
        -- both values are there, so it is the operator that decides
        rw [Number.binary_integers hop] at hvalue
        cases hresult : op.exactValue? a.toInt b.toInt with
        | some n =>
          rw [hresult] at hvalue hexact
          exact ends_of_exact hparts hbefore hvalue hexact (.operation hexact)
        | none =>
          rw [hresult] at hvalue
          obtain ⟨rfl, hzero⟩ := BinaryOperator.eq_zero_of_exactValue?_eq_none hop hresult
          rw [hzero] at hrightExact
          exact .failure hvalue ⟨_, _, [], hparts, hbefore, .zeroDivisor hrightExact⟩

/-- The parts of an expression hold its variables. -/
theorem variable_mem_parts {name : Identifier} (h : name ∈ e.occurrences) :
    .variable name ∈ e.parts := by
  induction e with
  | literal => cases h
  | «variable» own =>
    obtain rfl := List.mem_singleton.mp h
    exact List.mem_singleton_self _
  | unary op operand position ih => exact List.mem_append_left _ (ih h)
  | binary op left right position ihleft ihright =>
    rcases List.mem_append.mp h with h | h
    · exact List.mem_append_left _ (ihleft h)
    · exact List.mem_append_right _ (List.mem_append_left _ (ihright h))

theorem mem_occurrences_of_part {name : Identifier} (h : .variable name ∈ e.parts) :
    name ∈ e.occurrences := by
  induction e with
  | literal => cases List.mem_singleton.mp h
  | «variable» own =>
    cases List.mem_singleton.mp h
    exact List.mem_singleton_self _
  | unary op operand position ih =>
    rcases List.mem_append.mp h with h | h
    · exact ih h
    · cases List.mem_singleton.mp h
  | binary op left right position ihleft ihright =>
    rcases List.mem_append.mp h with h | h
    · exact List.mem_append_left _ (ihleft h)
    rcases List.mem_append.mp h with h | h
    · exact List.mem_append_right _ (ihright h)
    · cases List.mem_singleton.mp h

/-- Representable parts are all that it takes. -/
theorem exact_of_parts (h : ∀ p ∈ e.parts, p.Representable store) : e.Exact store := by
  refine ⟨fun name hname => ?_, fun left right position hmem hzero => ?_, fun p hp n hn => ?_⟩
  · obtain ⟨n, hn, -⟩ := h _ (variable_mem_parts hname)
    rw [exactValue?] at hn
    cases hget : store.get? name.name with
    | some value => exact ⟨value, rfl⟩
    | none =>
      rw [hget] at hn
      cases hn
  · obtain ⟨n, hn, -⟩ := h _ hmem
    rw [exactValue?_zeroDivisor hzero] at hn
    cases hn
  · obtain ⟨m, hm, hfits⟩ := h p hp
    rw [hm] at hn
    cases hn
    exact hfits

/-- Nothing is to blame in an expression that has all it takes. -/
theorem Exact.not_firstFailure (h : e.Exact store) (error : Error RuntimeFault) :
    ¬ FirstFailure store e.parts error := by
  rintro ⟨before, part, after, hparts, -, hpart⟩
  have hmem : part ∈ e.parts := by
    rw [hparts]
    exact List.mem_append_right _ List.mem_cons_self
  cases hpart with
  | unassigned hnone =>
    obtain ⟨value, hvalue⟩ := h.bound _ (mem_occurrences_of_part hmem)
    rw [hnone] at hvalue
    cases hvalue
  | zeroDivisor hzero => exact h.divisors _ _ _ hmem hzero
  | operation hn hnot | sign hn hnot => exact hnot (h.fits _ hmem _ hn)

/-- **Integers are exact, and the first failure is reported.** An expression in which no
reals are involved evaluates to an integer exactly if its variables are bound, no divisor is
zero and the exact value of every part fits; the integer is then its exact value. Otherwise it
evaluates to an error, and the errors it evaluates to are those for which the first part that
fails, in the order of evaluation, is to blame. -/
theorem value_exact_or_first_failure (h : e.Integral store) :
    ((∃ v, e.value store = .ok (.integer v)) ↔ e.Exact store) ∧
      (∀ v, e.value store = .ok (.integer v) → e.exactValue? store = some v.toInt) ∧
      (¬ e.Exact store → ∃ error, e.value store = .error error) ∧
      ∀ error, e.value store = .error error ↔ FirstFailure store e.parts error := by
  cases ends h with
  | @value v hvalue hexact hparts =>
    have hholds : e.Exact store := exact_of_parts hparts
    refine ⟨⟨fun _ => hholds, fun _ => ⟨v, hvalue⟩⟩, fun w hw => ?_, fun hnot => absurd hholds hnot,
      fun error => ⟨fun herror => ?_, fun hfirst => absurd hfirst (hholds.not_firstFailure error)⟩⟩
    · rw [hvalue] at hw
      cases hw
      exact hexact
    · rw [hvalue] at herror
      cases herror
  | @failure error hvalue hfirst =>
    refine ⟨⟨fun ⟨v, hv⟩ => ?_, fun hholds => absurd hfirst (hholds.not_firstFailure error)⟩,
      fun v hv => ?_, fun _ => ⟨error, hvalue⟩, fun error' => ?_⟩
    · rw [hvalue] at hv
      cases hv
    · rw [hvalue] at hv
      cases hv
    · rw [hvalue]
      constructor
      · rintro h
        cases h
        exact hfirst
      · intro hfirst'
        rw [hfirst.unique hfirst']

/-- `(9223372036854775807 + 1) DIV (y DIV 0)`, in which three parts fail where `y` is not
bound. -/
def masked : Expr :=
  binary .integerDivide
    (binary .add (literal (.integer Int64.maxValue) ⟨1, 2⟩) (literal (.integer 1) ⟨1, 24⟩) ⟨1, 22⟩)
    (binary .integerDivide (.variable ⟨"y", ⟨1, 32⟩⟩) (literal (.integer 0) ⟨1, 38⟩) ⟨1, 34⟩)
    ⟨1, 27⟩

/-- The overflow comes first, and what is wrong behind it is not looked at. -/
theorem value_exact_or_first_failure_masked :
    masked.Integral ∅ ∧ masked.value ∅ = .error ⟨.overflow, ⟨1, 22⟩⟩ := by
  have hintegral : masked.Integral ∅ :=
    ⟨nofun, ⟨nofun, ⟨_, rfl⟩, ⟨_, rfl⟩⟩, ⟨nofun, nofun, ⟨_, rfl⟩⟩⟩
  have hfits : ¬ Fits (Int64.maxValue.toInt + 1) := by decide
  have hfirst : FirstFailure ∅ masked.parts ⟨.overflow, ⟨1, 22⟩⟩ := by
    refine ⟨[literal (.integer Int64.maxValue) ⟨1, 2⟩, literal (.integer 1) ⟨1, 24⟩], _, _, rfl,
      fun p hp => ?_, .operation rfl hfits⟩
    simp only [List.mem_cons, List.not_mem_nil, or_false] at hp
    rcases hp with rfl | rfl
    · exact ⟨_, rfl, fits_toInt _⟩
    · exact ⟨_, rfl, fits_toInt _⟩
  exact ⟨hintegral, ((value_exact_or_first_failure hintegral).2.2.2 _).mpr hfirst⟩

end Expr

end MiniPascal
