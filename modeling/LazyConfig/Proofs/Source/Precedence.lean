-- The grammar with one rule for each level of binary operators. Each rule reads what the next
-- tighter one reads and then the operators of its own level, which group to the left. The other
-- rules are those of the grammar that climbs, with the loosest rule for a whole expression inside.
-- Main statement: climbing reads what the rules of the levels read, from any level on.
import LazyConfig.Source.Grammar

namespace LazyConfig.Grammar

/-! ## One rule for each level -/

/-- Reads the operators of a level after the operand `left`, each with a right side that is
`tighter`, and groups them to the left. -/
def joinFrom (ops : List BinaryOp) (tighter : Parser Expr) (left : Expr) (ts : List Token) :
    Except Fault (Parsed Expr (ts.length + 1)) :=
  match ts with
  | [] => .ok ⟨left, [], Nat.succ_pos _⟩
  | t :: rest =>
    match binaryOp? t with
    | none => .ok ⟨left, t :: rest, Nat.lt_succ_self _⟩
    | some op =>
      if op ∈ ops then
        match tighter rest with
        | .error e => .error e
        | .ok ⟨right, after, shorter⟩ =>
          match joinFrom ops tighter
            (.binary (left.span.through right.span) op left right) after with
          | .error e => .error e
          | .ok ⟨value, left, shorter'⟩ =>
            .ok ⟨value, left, by simp only [List.length_cons]; omega⟩
      else .ok ⟨left, t :: rest, Nat.lt_succ_self _⟩
  termination_by ts.length
  decreasing_by simp only [List.length_cons]; omega

theorem shorter_of_joinFrom {ts rest after : List Token} (h : rest.length < ts.length)
    (h' : after.length < rest.length + 1) : after.length < ts.length := by omega

/-- Something `tighter`, and the operators of a level after it. -/
def joined (ops : List BinaryOp) (tighter : Parser Expr) : Parser Expr := fun ts =>
  match tighter ts with
  | .error e => .error e
  | .ok ⟨left, rest, shorter⟩ =>
    match joinFrom ops tighter left rest with
    | .error e => .error e
    | .ok ⟨value, after, shorter'⟩ => .ok ⟨value, after, shorter_of_joinFrom shorter shorter'⟩

def multiplicative (atom : Parser Expr) : Parser Expr := joined [.mul, .div, .rem] atom

def additive (atom : Parser Expr) : Parser Expr := joined [.add, .sub] (multiplicative atom)

def relational (atom : Parser Expr) : Parser Expr := joined [.lt, .le, .gt, .ge] (additive atom)

def equality (atom : Parser Expr) : Parser Expr :=
  joined [.eq, .ne, .strictEq, .strictNe] (relational atom)

def conjunction (atom : Parser Expr) : Parser Expr := joined [.and] (equality atom)

def disjunction (atom : Parser Expr) : Parser Expr := joined [.or] (conjunction atom)

/-- The stratified grammar of a level of nesting, from the level inside. -/
def stratifiedInside (inside : Inside) : Grammar where
  expression := disjunction (operand inside)
  unary := operand inside
  chain := callChain inside

/-- The stratified grammar at `depth` with `levels` more levels inside. -/
def stratifiedLevels (limit : Nat) : (levels depth : Nat) → Grammar
  | 0, depth => stratifiedInside (tooDeep limit depth)
  | n + 1, depth => stratifiedInside fun _ => .ok (stratifiedLevels limit n (depth + 1))

/-- The stratified grammar at `depth`, when expressions nest no deeper than `limit`. -/
def stratified (limit depth : Nat) : Grammar := stratifiedLevels limit (limit - depth) depth

/-! ## Where climbing stops -/

variable {atom : Parser Expr} {ops : List BinaryOp} {least : Nat}

/-- The tokens do not go on with an operator that binds at least as tightly as `least`. -/
def Rests (least : Nat) (ts : List Token) : Prop :=
  ∀ t ∈ ts.head?, ∀ op, binaryOp? t = some op → op.precedence < least

theorem climbFrom_of_rests {ts : List Token} (h : Rests least ts) (left : Expr) :
    climbFrom atom least left ts = .ok ⟨left, ts, Nat.lt_succ_self _⟩ := by
  cases ts with
  | nil => simp [climbFrom]
  | cons t rest =>
    unfold climbFrom
    split
    · rfl
    · next op hop => rw [if_pos (h t rfl op hop)]

theorem rests_climbFrom (left : Expr) (ts : List Token) :
    ∀ a, climbFrom atom least left ts = .ok a → Rests least a.rest := by
  cases ts with
  | nil =>
    intro a h
    rw [climbFrom] at h
    cases h
    simp [Rests]
  | cons t rest =>
    intro a h
    unfold climbFrom at h
    split at h
    · next hnone =>
      cases h
      simp [Rests, hnone]
    next op hop =>
    split at h
    · next hlt =>
      cases h
      simpa [Rests, hop] using hlt
    split at h
    · cases h
    next right after shorter hright =>
    split at h
    · cases h
    next hmore =>
    cases h
    have hlt : after.length < (t :: rest).length := Nat.lt_succ_of_lt shorter
    exact rests_climbFrom _ after _ hmore
  termination_by ts.length
  decreasing_by exact hlt

theorem rests_climb {ts : List Token} {a : Parsed Expr ts.length}
    (h : climb atom least ts = .ok a) :
    Rests least a.rest := by
  unfold climb at h
  split at h
  · cases h
  next left rest shorter hleft =>
  split at h
  · cases h
  next hmore =>
  cases h
  exact rests_climbFrom left rest _ hmore

/-! ## One level of climbing -/

/-- Climbing from a level on is climbing from the next one, and then the operators of the level. -/
theorem climbFrom_eq (hops : ∀ op, op ∈ ops ↔ op.precedence = least) (left : Expr)
    (ts : List Token) :
    climbFrom atom least left ts =
      match climbFrom atom (least + 1) left ts with
      | .error e => .error e
      | .ok ⟨value, rest, shorter⟩ =>
        match joinFrom ops (climb atom (least + 1)) value rest with
        | .error e => .error e
        | .ok ⟨value, rest, shorter'⟩ => .ok ⟨value, rest, by omega⟩ := by
  cases ts with
  | nil => simp [climbFrom, joinFrom]
  | cons t rest =>
    cases hop : binaryOp? t with
    | none => simp [climbFrom, joinFrom, hop]
    | some op =>
      have hrests : ∀ k, op.precedence < k → Rests k (t :: rest) := by
        intro k hk
        simpa [Rests, hop] using hk
      rcases Nat.lt_trichotomy op.precedence least with hlt | heq | hgt
      · -- A looser operator ends the operand on both sides.
        have hown : op ∉ ops := fun h => Nat.ne_of_lt hlt ((hops op).mp h)
        rw [climbFrom_of_rests (hrests least hlt),
          climbFrom_of_rests (hrests (least + 1) (Nat.lt_succ_of_lt hlt))]
        simp [joinFrom, hop, hown]
      · -- An operator of the level: its right side leaves no tighter operator behind it.
        have hown : op ∈ ops := (hops op).mpr heq
        rw [climbFrom_of_rests (hrests (least + 1) (by omega))]
        unfold climbFrom joinFrom
        simp only [hop, heq, Nat.lt_irrefl, if_false, hown, if_true]
        cases hright : climb atom (least + 1) rest with
        | error e => rfl
        | ok b =>
          obtain ⟨right, after, shorter⟩ := b
          simp only
          rw [climbFrom_eq hops _ after, climbFrom_of_rests (rests_climb hright)]
          simp only
          cases joinFrom ops (climb atom (least + 1))
            (.binary (left.span.through right.span) op left right) after with
          | error e => rfl
          | ok c => rfl
      · -- A tighter operator belongs to the operand of the level.
        unfold climbFrom
        simp only [hop, Nat.lt_asymm hgt, Nat.not_lt.mpr hgt, if_false]
        cases climb atom (op.precedence + 1) rest with
        | error e => rfl
        | ok b =>
          obtain ⟨right, after, shorter⟩ := b
          simp only
          rw [climbFrom_eq hops _ after]
          cases climbFrom atom (least + 1)
            (.binary (left.span.through right.span) op left right) after with
          | error e => rfl
          | ok c =>
            simp only
            cases joinFrom ops (climb atom (least + 1)) c.value c.rest with
            | error e => rfl
            | ok d => rfl
  termination_by ts.length
  decreasing_by all_goals simp only [List.length_cons]; omega

theorem climb_eq_joined (hops : ∀ op, op ∈ ops ↔ op.precedence = least) :
    climb atom least = joined ops (climb atom (least + 1)) := by
  funext ts
  unfold joined
  rw [climb, climb]
  cases atom ts with
  | error e => rfl
  | ok a =>
    obtain ⟨left, rest, shorter⟩ := a
    simp only
    rw [climbFrom_eq hops left rest]
    cases climbFrom atom (least + 1) left rest with
    | error e => rfl
    | ok b =>
      simp only
      cases joinFrom ops (climb atom (least + 1)) b.value b.rest with
      | error e => rfl
      | ok c => rfl

/-- A level without operators of its own is the next tighter one. -/
theorem joined_nil (tighter : Parser Expr) : joined [] tighter = tighter := by
  funext ts
  unfold joined
  cases tighter ts with
  | error e => rfl
  | ok a =>
    obtain ⟨left, rest, shorter⟩ := a
    have hnone : joinFrom [] tighter left rest = .ok ⟨left, rest, Nat.lt_succ_self _⟩ := by
      cases rest with
      | nil => simp [joinFrom]
      | cons t rest => cases hop : binaryOp? t <;> simp [joinFrom, hop]
    simp only [hnone]

/-! ## All levels of operators -/

section

variable (atom : Parser Expr)

/-- No operator binds more tightly than those of the tightest level. -/
theorem climb_seven : climb atom 7 = atom := by
  funext ts
  rw [climb]
  cases atom ts with
  | error e => rfl
  | ok a =>
    obtain ⟨left, rest, shorter⟩ := a
    have hrests : Rests 7 rest := fun t _ op _ => by cases op <;> decide
    simp only [climbFrom_of_rests hrests]

theorem climb_multiplicative : climb atom 6 = multiplicative atom := by
  have h : ∀ op : BinaryOp, op ∈ [.mul, .div, .rem] ↔ op.precedence = 6 := by
    intro op; cases op <;> decide
  rw [climb_eq_joined h, climb_seven, multiplicative]

theorem climb_additive : climb atom 5 = additive atom := by
  have h : ∀ op : BinaryOp, op ∈ [.add, .sub] ↔ op.precedence = 5 := by
    intro op; cases op <;> decide
  rw [climb_eq_joined h, climb_multiplicative, additive]

theorem climb_relational : climb atom 4 = relational atom := by
  have h : ∀ op : BinaryOp, op ∈ [.lt, .le, .gt, .ge] ↔ op.precedence = 4 := by
    intro op; cases op <;> decide
  rw [climb_eq_joined h, climb_additive, relational]

theorem climb_equality : climb atom 3 = equality atom := by
  have h : ∀ op : BinaryOp, op ∈ [.eq, .ne, .strictEq, .strictNe] ↔ op.precedence = 3 := by
    intro op; cases op <;> decide
  rw [climb_eq_joined h, climb_relational, equality]

theorem climb_conjunction : climb atom 2 = conjunction atom := by
  have h : ∀ op : BinaryOp, op ∈ [.and] ↔ op.precedence = 2 := by
    intro op; cases op <;> decide
  rw [climb_eq_joined h, climb_equality, conjunction]

theorem climb_disjunction : climb atom 1 = disjunction atom := by
  have h : ∀ op : BinaryOp, op ∈ [.or] ↔ op.precedence = 1 := by
    intro op; cases op <;> decide
  rw [climb_eq_joined h, climb_conjunction, disjunction]

/-- A whole expression starts at the loosest level. -/
theorem climb_zero : climb atom 0 = disjunction atom := by
  have h : ∀ op : BinaryOp, op ∈ [] ↔ op.precedence = 0 := by
    intro op; cases op <;> decide
  rw [climb_eq_joined h, climb_disjunction, joined_nil]

end

/-! ## All levels of nesting -/

theorem ofInside_eq_stratifiedInside (inside : Inside) :
    ofInside inside = stratifiedInside inside := by
  rw [ofInside, stratifiedInside, climb_zero]

theorem levels_eq_stratifiedLevels (limit n depth : Nat) :
    levels limit n depth = stratifiedLevels limit n depth := by
  induction n generalizing depth with
  | zero => exact ofInside_eq_stratifiedInside _
  | succ n ih => rw [levels, stratifiedLevels, ih, ofInside_eq_stratifiedInside]

/-- A grammar that climbs reads a whole expression by climbing from its loosest operators on. -/
theorem expression_upTo (limit depth : Nat) :
    (upTo limit depth).expression = climb (upTo limit depth).unary 0 := by
  unfold upTo
  cases limit - depth <;> rfl

/-- At every depth, whatever the limit, the grammar that climbs and the stratified one read the same
from every list of tokens: the same tree with the same tokens left, or the same fault. Where
expressions nest, they go on at the same depth, as each level of nesting is such a grammar. Climbing
from one of the six levels of operators on is the rule of that level. -/
theorem climbing_is_stratified (limit depth : Nat) :
    upTo limit depth = stratified limit depth ∧
      let climbing := climb (upTo limit depth).unary
      let atom := (stratified limit depth).unary
      climbing 0 = (stratified limit depth).expression ∧
      climbing 1 = disjunction atom ∧
      climbing 2 = conjunction atom ∧
      climbing 3 = equality atom ∧
      climbing 4 = relational atom ∧
      climbing 5 = additive atom ∧
      climbing 6 = multiplicative atom := by
  have h : upTo limit depth = stratified limit depth := levels_eq_stratifiedLevels _ _ _
  refine ⟨h, ?_⟩
  rw [← h]
  exact ⟨(expression_upTo limit depth).symm, climb_disjunction _, climb_conjunction _,
    climb_equality _, climb_relational _, climb_additive _, climb_multiplicative _⟩

end LazyConfig.Grammar
