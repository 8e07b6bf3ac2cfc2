/- Pdq.Provider.Expr -- filters, and the equalities the provider reads off them.

A filter is an expression over the columns of a row.  The provider looks at one
shape only, an equality between a column and a literal, either way round, and
looks the literal's text up.  What a filter means is DataFusion's business:
`FilterSemantics` is any evaluation that gives such an equality its SQL meaning
on the cells a Utf8 column can hold. -/
import Pdq.Parquet

namespace Pdq

open Theory

set_option autoImplicit false

inductive Operator where
  | eq
  | notEq
  | lt
  | ltEq
  | gt
  | gtEq
  | and
  | or
  /-- Any other operator. -/
  | other (name : Str)
  deriving DecidableEq, Repr

inductive Expr where
  | column (name : Column)
  | literal (value : ScalarValue)
  | binaryExpr (left : Expr) (op : Operator) (right : Expr)
  /-- Any other expression. -/
  | other (name : Str)
  deriving DecidableEq, Repr

/-- `PdqTableProvider::extract_equality_filter` -/
def extractEqualityFilter : Expr → Option (Column × Str)
  | .binaryExpr (.column column) .eq (.literal scalarValue) => some (column, scalarValue.display)
  | .binaryExpr (.literal scalarValue) .eq (.column column) => some (column, scalarValue.display)
  | _ => none

/-- The filter compares the column with the literal for equality. -/
def Expr.IsEquality (filter : Expr) (column : Column) (value : ScalarValue) : Prop :=
  filter = .binaryExpr (.column column) .eq (.literal value) ∨
    filter = .binaryExpr (.literal value) .eq (.column column)

/-- **What is extracted** are the equalities of a column with a literal. -/
theorem extractEqualityFilter_iff {filter : Expr} {column : Column} {text : Str} :
    extractEqualityFilter filter = some (column, text) ↔
      ∃ value, filter.IsEquality column value ∧ text = value.display := by
  constructor
  · intro extracted
    unfold extractEqualityFilter at extracted
    split at extracted
    · cases extracted
      exact ⟨_, Or.inl rfl, rfl⟩
    · cases extracted
      exact ⟨_, Or.inr rfl, rfl⟩
    · cases extracted
  · rintro ⟨value, rfl | rfl, rfl⟩ <;> rfl

/-- An evaluation of filters on rows. -/
structure FilterSemantics where
  /-- The filter evaluates to true, not to false or to NULL. -/
  holds : Expr → Row → Bool
  /-- A text equals a literal of any string type when the texts are equal; NULL
  equals nothing. -/
  equality_utf8 : ∀ {filter column type literal} {row : Row} {value},
    filter.IsEquality column (.string type literal) → row column = .string .utf8 value →
      (holds filter row = true ↔ ∃ text, value = some text ∧ literal = some text)
  equality_null : ∀ {filter column literal} {row : Row},
    filter.IsEquality column literal → row column = .null → holds filter row = false

/-- Equality of two scalars, true or not. -/
def ScalarValue.equals : ScalarValue → ScalarValue → Bool
  | .string _ (some a), .string _ (some b) => decide (a = b)
  | .boolean (some a), .boolean (some b) => decide (a = b)
  | .int64 (some a), .int64 (some b) => decide (a = b)
  | _, _ => false

/-- Evaluate equalities; every other filter holds of every row. -/
def evaluateEqualities : Expr → Row → Bool
  | .binaryExpr (.column column) .eq (.literal value), row => (row column).equals value
  | .binaryExpr (.literal value) .eq (.column column), row => (row column).equals value
  | _, _ => true

theorem equals_utf8_iff {type : StringType} {value literal : Option Str} :
    (ScalarValue.string .utf8 value).equals (.string type literal) = true ↔
      ∃ text, value = some text ∧ literal = some text := by
  cases value with
  | none => simp [ScalarValue.equals]
  | some a =>
      cases literal with
      | none => simp [ScalarValue.equals]
      | some b => simp [ScalarValue.equals, eq_comm]

def equalitySemantics : FilterSemantics where
  holds := evaluateEqualities
  equality_utf8 := by
    rintro filter column type literal row value (rfl | rfl) held <;>
      simp only [evaluateEqualities, held, equals_utf8_iff]
  equality_null := by
    rintro filter column literal row (rfl | rfl) held <;>
      simp only [evaluateEqualities, held, ScalarValue.equals]

/-- **A row that satisfies an equality with a string holds that string**, in a
column where it holds a text or nothing. -/
theorem cell_of_equality {semantics : FilterSemantics} {filter : Expr} {column : Column}
    {type : StringType} {literal : Option Str} {row : Row}
    (equality : filter.IsEquality column (.string type literal))
    (cell : row column = .null ∨ ∃ value, row column = .string .utf8 value)
    (holds : semantics.holds filter row = true) :
    ∃ text, literal = some text ∧ row column = .string .utf8 (some text) := by
  rcases cell with absent | ⟨value, held⟩
  · rw [semantics.equality_null equality absent] at holds
    cases holds
  · obtain ⟨text, rfl, rfl⟩ := (semantics.equality_utf8 equality held).mp holds
    exact ⟨text, rfl, held⟩

end Pdq
