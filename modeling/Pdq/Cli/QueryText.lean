/- Pdq.Cli.QueryText -- the SQL text of the `query` subcommand.

The subcommand writes the column and the term into the text as they are.  The text
asks for the rows the index was searched for when the column is an identifier that
is read as it is written and the term holds no quote, and only then
(`queryText_denotes_iff`): a quote ends the literal (`quoted_term_refuted`). -/
import Pdq.Provider.Expr
import Pdq.Theory.SqlText

namespace Pdq

open Theory

set_option autoImplicit false

/-! ## The text, and the filter it stands for -/

/-- `format!("SELECT * FROM pdq_table WHERE {column} = '{term}'")` -/
def queryText (column : Column) (term : Str) : Str :=
  "SELECT * FROM pdq_table WHERE ".toList ++ column ++ " = '".toList ++ term ++ "'".toList

/-- The comparison of a column with a string.  It is what a query of the CLI denotes,
and `col(&column).eq(lit(term))` of `QueryEngine::query` where `col` takes the text for
the name of that column: it folds a name to lower case and splits it at dots. -/
def queryFilter (column : Column) (term : Str) : Expr :=
  .binaryExpr (.column column) .eq (.literal (.string .utf8 (some term)))

/-- The provider looks the term up in that column. -/
theorem extractEqualityFilter_queryFilter (column : Column) (term : Str) :
    extractEqualityFilter (queryFilter column term) = some (column, term) := by
  apply extractEqualityFilter_iff.mpr
  exact ⟨_, .inl rfl, rfl⟩

section Denotes

variable (dialect : SqlDialect)

/-- The column a token names in an expression. -/
def columnName : SqlToken → Option Column
  | .word text => if dialect.reserved text = true then none else some text
  | .quotedIdentifier text => some text
  | _ => none

/-- The condition of a `WHERE` clause that is one comparison of a column with a
string. -/
def comparison : List SqlToken → Option Expr
  | [operand, .symbol '=', .string text] =>
      (columnName dialect operand).map fun column => queryFilter column text
  | _ => none

/-- What stands before the condition. -/
def selectTokens : List SqlToken :=
  [.word "select".toList, .symbol '*', .word "from".toList, .word "pdq_table".toList,
    .word "where".toList]

/-- The comparison by which a text selects rows of the table; `none` where it has no
tokens, or other ones. -/
def denotes (text : Str) : Option Expr :=
  (dialect.lex text).bind fun tokens =>
    if tokens.take 5 = selectTokens then comparison dialect (tokens.drop 5) else none

/-! ## The condition decides -/

/-- The tokens of a text are those before the condition and those of the condition. -/
theorem lex_queryText (column : Column) (term : Str) :
    dialect.lex (queryText column term) =
      (dialect.lex (column ++ " = '".toList ++ term ++ "'".toList)).map (selectTokens ++ ·) := by
  have split : queryText column term = "SELECT".toList ++ ' ' :: '*' :: ' ' ::
      ("FROM".toList ++ ' ' :: ("pdq_table".toList ++ ' ' :: ("WHERE".toList ++ ' ' ::
        (column ++ " = '".toList ++ term ++ "'".toList)))) := rfl
  rw [split, SqlDialect.lex_keyword (by decide) (by decide) (by decide),
    SqlDialect.lex_symbol (.inl rfl), SqlDialect.lex_space (by decide),
    SqlDialect.lex_keyword (by decide) (by decide) (by decide),
    SqlDialect.lex_keyword (by decide) (by decide) (by decide),
    SqlDialect.lex_keyword (by decide) (by decide) (by decide)]
  simp only [Option.map_map]
  rfl

theorem denotes_queryText (column : Column) (term : Str) :
    denotes dialect (queryText column term) =
      (dialect.lex (column ++ " = '".toList ++ term ++ "'".toList)).bind (comparison dialect) := by
  rw [denotes, lex_queryText]
  cases dialect.lex (column ++ " = '".toList ++ term ++ "'".toList) with
  | none => rfl
  | some tokens => rfl

end Denotes

section Condition

variable {dialect : SqlDialect} {column : Column} {term : Str}

/-- The one way to denote the filter. -/
theorem comparison_eq_iff {tokens : List SqlToken} :
    comparison dialect tokens = some (queryFilter column term) ↔
      ∃ operand, columnName dialect operand = some column ∧
        tokens = [operand, .symbol '=', .string term] := by
  constructor
  · intro found
    unfold comparison at found
    split at found
    · obtain ⟨named, name, same⟩ := Option.map_eq_some_iff.mp found
      cases same
      exact ⟨_, name, rfl⟩
    · cases found
  · rintro ⟨operand, name, rfl⟩
    rw [comparison, name]
    rfl

/-- What follows an identifier that is read as it is written. -/
theorem lex_of_identifier (identifier : dialect.isIdentifier column = true) :
    dialect.lex (column ++ " = '".toList ++ term ++ "'".toList) =
      (dialect.lex ('\'' :: (term ++ "'".toList))).map fun tokens =>
        SqlToken.word (column.map dialect.fold) :: SqlToken.symbol '=' :: tokens := by
  have split : column ++ " = '".toList ++ term ++ "'".toList =
      column ++ ' ' :: '=' :: ' ' :: '\'' :: (term ++ "'".toList) := by
    rw [List.append_assoc, List.append_assoc]
    rfl
  have stops : dialect.identifierPart ' ' = false := (dialect.separator ' ' (.inl (by decide))).2
  rw [split, SqlDialect.lex_word identifier stops, SqlDialect.lex_space (by decide),
    SqlDialect.lex_symbol (.inr rfl), SqlDialect.lex_space (by decide), Option.map_map]
  rfl

/-- The literal is the term when no quote ends it early. -/
theorem lex_literal_iff :
    dialect.lex ('\'' :: (term ++ "'".toList)) = some [.string term] ↔ '\'' ∉ term := by
  constructor
  · intro found quoted
    have room := SqlDialect.weight_le found
    have counted : 0 < term.count '\'' := List.count_pos_iff.mpr quoted
    simp [SqlToken.weight] at room
    omega
  · intro plain
    rw [SqlDialect.lex_string, show "'".toList = ['\''] from rfl, readQuoted_plain plain]
    rfl

/-- A folded identifier is an identifier. -/
theorem isIdentifier_fold {name : Str} (identifier : dialect.isIdentifier name = true) :
    dialect.isIdentifier (name.map dialect.fold) = true := by
  cases name with
  | nil => cases identifier
  | cons c rest =>
      rw [SqlDialect.isIdentifier, Bool.and_eq_true, List.all_eq_true] at identifier
      rw [List.map_cons, SqlDialect.isIdentifier, Bool.and_eq_true, List.all_map, List.all_eq_true]
      exact ⟨dialect.fold_start c identifier.1, fun part member =>
        dialect.fold_part part (identifier.2 part member)⟩

/-- A quoted identifier in place of the column is never the column: its quotes would
take room that the text does not have. -/
theorem not_quotedIdentifier :
    dialect.lex (column ++ " = '".toList ++ term ++ "'".toList) ≠
      some [.quotedIdentifier column, .symbol '=', .string term] := by
  intro found
  have room := SqlDialect.weight_le found
  simp only [SqlToken.weight, List.map_cons, List.map_nil, List.sum_cons, List.sum_nil,
    List.length_append] at room
  have four : " = '".toList.length = 4 := rfl
  have one : "'".toList.length = 1 := rfl
  cases column with
  | nil =>
      rw [List.nil_append, show " = '".toList = [' ', '=', ' ', '\''] from rfl] at found
      rw [List.cons_append, List.cons_append, SqlDialect.lex_space (by decide),
        List.cons_append, List.cons_append, SqlDialect.lex_symbol (.inr rfl)] at found
      obtain ⟨later, -, same⟩ := Option.map_eq_some_iff.mp found
      cases same
  | cons c tail =>
      rw [List.cons_append, List.cons_append, List.cons_append] at found
      obtain ⟨token, rest', later, reads, after, same⟩ := SqlDialect.reads_of_lex found
      cases reads with
      | separator shorter =>
          -- A separator leaves too little room for the tokens.
          have less := SqlDialect.weight_le after
          rw [← show _ = later from same] at less
          simp only [SqlToken.weight, List.map_cons, List.map_nil, List.sum_cons, List.sum_nil,
            List.length_append, List.length_cons] at less shorter
          omega
      | quotedIdentifier quote read =>
          -- The opening quote is part of the column.
          have doubled : 0 < (c :: tail).count '"' := by simp [quote]
          omega
      | string quote read => cases same
      | word name split => cases same
      | number split => cases same
      | symbol => cases same

/-- The condition is the comparison of the column with the term just when the column
is read as it is written and the term holds no quote. -/
theorem lex_condition_iff :
    (∃ operand, columnName dialect operand = some column ∧
      dialect.lex (column ++ " = '".toList ++ term ++ "'".toList) =
        some [operand, .symbol '=', .string term]) ↔
      dialect.Plain column ∧ '\'' ∉ term := by
  constructor
  · rintro ⟨operand, name, found⟩
    cases operand with
    | word text =>
        have free : dialect.reserved text = false ∧ text = column := by
          rw [columnName] at name
          split at name
          · cases name
          · rename_i free
            exact ⟨by simpa using free, Option.some.inj name⟩
        obtain ⟨free, rfl⟩ := free
        obtain ⟨name', identifier', folds⟩ :=
          SqlDialect.isIdentifier_of_mem_lex found List.mem_cons_self
        have identifier : dialect.isIdentifier text = true := by
          rw [← folds]
          exact isIdentifier_fold identifier'
        rw [lex_of_identifier identifier] at found
        obtain ⟨tokens, literal, same⟩ := Option.map_eq_some_iff.mp found
        injection same with first rest
        injection first with folded
        injection rest with _ last
        rw [last] at literal
        exact ⟨⟨identifier, folded, free⟩, lex_literal_iff.mp literal⟩
    | quotedIdentifier text =>
        cases name
        exact absurd found not_quotedIdentifier
    | string text => cases name
    | number digits => cases name
    | symbol c => cases name
  · rintro ⟨plain, quotes⟩
    refine ⟨.word column, by rw [columnName, plain.free]; rfl, ?_⟩
    rw [lex_of_identifier plain.identifier, lex_literal_iff.mpr quotes, plain.folded]
    rfl

/-- **The text of the query denotes the filter it was given** exactly when the column
is an identifier that is read as it is written and the term holds no quote. -/
theorem queryText_denotes_iff (dialect : SqlDialect) (column : Column) (term : Str) :
    denotes dialect (queryText column term) = some (queryFilter column term) ↔
      dialect.Plain column ∧ '\'' ∉ term := by
  rw [denotes_queryText, Option.bind_eq_some_iff, ← lex_condition_iff]
  constructor
  · rintro ⟨tokens, found, compares⟩
    obtain ⟨operand, name, rfl⟩ := comparison_eq_iff.mp compares
    exact ⟨operand, name, found⟩
  · rintro ⟨operand, name, found⟩
    exact ⟨_, found, comparison_eq_iff.mpr ⟨operand, name, rfl⟩⟩

end Condition

/-! ## A dialect -/

theorem toLower_of_isDigit {c : Char} (digit : c.isDigit = true) : c.toLower = c := by
  have bounds : 48 ≤ c.val.toNat ∧ c.val.toNat ≤ 57 := by
    simpa [Char.isDigit, UInt32.le_iff_toNat_le] using digit
  apply Char.toLower_eq_of_not_isUpper
  intro upper
  have above : 65 ≤ c.val.toNat ∧ c.val.toNat ≤ 90 := by
    simpa [Char.isUpper, UInt32.le_iff_toNat_le] using upper
  omega

def asciiStart (c : Char) : Bool := c.isAlpha || decide (c = '_')

def asciiPart (c : Char) : Bool := c.isAlphanum || decide (c = '_')

theorem ascii_letter (c : Char) (letter : c.isAlpha = true ∨ c = '_') :
    asciiStart c = true ∧ asciiPart c = true := by
  rcases letter with alpha | rfl
  · simp [asciiStart, asciiPart, Char.isAlphanum, alpha]
  · decide

theorem ascii_separator (c : Char) (apart : c.isWhitespace = true ∨ c ∈ ['\'', '"', '*', '=']) :
    asciiStart c = false ∧ asciiPart c = false := by
  rcases apart with space | member
  · simp only [Char.isWhitespace, Bool.or_eq_true, decide_eq_true_eq] at space
    rcases space with ((rfl | rfl) | rfl) | rfl <;> decide
  · simp only [List.mem_cons, List.not_mem_nil, or_false] at member
    rcases member with rfl | rfl | rfl | rfl <;> decide

theorem ascii_fold_start (c : Char) (start : asciiStart c = true) :
    asciiStart c.toLower = true := by
  rw [asciiStart, Bool.or_eq_true, decide_eq_true_eq] at start
  rcases start with alpha | rfl
  · rw [asciiStart, Char.isAlpha_toLower_eq_isAlpha, alpha, Bool.true_or]
  · decide

theorem ascii_fold_part (c : Char) (part : asciiPart c = true) : asciiPart c.toLower = true := by
  rw [asciiPart, Char.isAlphanum, Bool.or_eq_true, Bool.or_eq_true, decide_eq_true_eq] at part
  rcases part with (alpha | digit) | rfl
  · rw [asciiPart, Char.isAlphanum, Char.isAlpha_toLower_eq_isAlpha, alpha, Bool.true_or,
      Bool.true_or]
  · rw [toLower_of_isDigit digit, asciiPart, Char.isAlphanum, digit, Bool.or_true, Bool.true_or]
  · decide

/-- Identifiers of ASCII letters, digits and underscores. -/
def asciiDialect : SqlDialect where
  identifierStart := asciiStart
  identifierPart := asciiPart
  fold := Char.toLower
  reserved text := ["select", "from", "where", "and", "or", "not", "null", "true", "false",
    "case"].any fun keyword => decide (text = keyword.toList)
  letter c letter := ⟨(ascii_letter c letter).1, (ascii_letter c letter).2, rfl⟩
  separator := ascii_separator
  fold_start := ascii_fold_start
  fold_part := ascii_fold_part

example : denotes asciiDialect (queryText "name".toList "alice".toList) =
    some (queryFilter "name".toList "alice".toList) := by
  decide

/-- A quote ends the literal: the text of `O'Brien` has no tokens, a term can bring
its own condition, and a column in capitals is another column. -/
theorem quoted_term_refuted :
    denotes asciiDialect (queryText "name".toList "O'Brien".toList) = none ∧
      asciiDialect.lex (queryText "name".toList "' OR name <> '".toList) =
        some (selectTokens ++ [.word "name".toList, .symbol '=', .string [],
          .word "or".toList, .word "name".toList, .symbol '<', .symbol '>', .string []]) ∧
      denotes asciiDialect (queryText "Name".toList "alice".toList) =
        some (queryFilter "name".toList "alice".toList) ∧
      ¬ ∀ column term, denotes asciiDialect (queryText column term) =
        some (queryFilter column term) := by
  refine ⟨by decide, by decide, by decide, fun always => ?_⟩
  have denoted := always "name".toList "O'Brien".toList
  rw [show denotes asciiDialect (queryText "name".toList "O'Brien".toList) = none by decide]
    at denoted
  cases denoted

end Pdq
