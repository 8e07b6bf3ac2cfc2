/- Pdq.Theory.SqlText -- the tokens of an SQL text.

A string literal ends at the first quote that is not doubled, and so does a quoted
identifier; an unquoted identifier is folded.  `lex_word` and `readQuoted_plain`
say what a text is read as.  `lex_induction` goes the other way, from the tokens
to the text: a token is no longer than its spelling (`weight_le`), and a word
is a folded identifier (`isIdentifier_of_mem_lex`). -/
import Mathlib
import Pdq.Theory.Utf8

namespace Pdq.Theory

set_option autoImplicit false

inductive SqlToken where
  /-- An unquoted identifier or a keyword, folded. -/
  | word (text : Str)
  | quotedIdentifier (text : Str)
  | string (text : Str)
  | number (digits : Str)
  | symbol (c : Char)
  deriving DecidableEq, Repr

/-! ## Dialects -/

/-- The characters of unquoted identifiers, how they fold, and the words that are
none. -/
structure SqlDialect where
  identifierStart : Char → Bool
  identifierPart : Char → Bool
  fold : Char → Char
  reserved : Str → Bool
  letter : ∀ c, c.isAlpha = true ∨ c = '_' →
    identifierStart c = true ∧ identifierPart c = true ∧ fold c = c.toLower
  separator : ∀ c, c.isWhitespace = true ∨ c ∈ ['\'', '"', '*', '='] →
    identifierStart c = false ∧ identifierPart c = false
  fold_start : ∀ c, identifierStart c = true → identifierStart (fold c) = true
  fold_part : ∀ c, identifierPart c = true → identifierPart (fold c) = true

/-! ## Quoted text -/

/-- The text up to the first quote that is not doubled, and what follows it. -/
def readQuoted (quote : Char) : Str → Option (Str × Str)
  | [] => none
  | [c] => if c = quote then some ([], []) else none
  | c :: next :: rest =>
      if c = quote then
        if next = quote then
          (readQuoted quote rest).map fun read => (quote :: read.1, read.2)
        else some ([], next :: rest)
      else (readQuoted quote (next :: rest)).map fun read => (c :: read.1, read.2)

/-- A quoted text takes the room of its characters, of its quotes once more, and of
the closing quote. -/
theorem readQuoted_length {quote : Char} {text read rest : Str}
    (found : readQuoted quote text = some (read, rest)) :
    read.length + read.count quote + 1 + rest.length = text.length := by
  fun_induction readQuoted quote text generalizing read rest with
  | case1 => cases found
  | case2 => cases found; rfl
  | case3 => cases found
  | case4 after ih =>
      obtain ⟨⟨read', rest'⟩, inner, same⟩ := Option.map_eq_some_iff.mp found
      cases same
      have shorter := ih inner
      simp only [List.length_cons, List.count_cons_self]
      omega
  | case5 next after single =>
      cases found
      simp; omega
  | case6 c next after other ih =>
      obtain ⟨⟨read', rest'⟩, inner, same⟩ := Option.map_eq_some_iff.mp found
      cases same
      have shorter := ih inner
      rw [List.count_cons_of_ne other]
      simp only [List.length_cons] at shorter ⊢
      omega

/-- A text without the quote is read as it stands. -/
theorem readQuoted_plain {quote : Char} {text : Str} (plain : quote ∉ text) :
    readQuoted quote (text ++ [quote]) = some (text, []) := by
  induction text with
  | nil => simp [readQuoted]
  | cons c text ih =>
      rw [List.mem_cons, not_or] at plain
      have inner := ih plain.2
      cases text with
      | nil => simp [readQuoted, Ne.symm plain.1]
      | cons next text =>
          rw [List.cons_append, List.cons_append, readQuoted, if_neg (Ne.symm plain.1),
            ← List.cons_append, inner]
          rfl

/-! ## Tokens -/

/-- What follows a block comment. -/
def skipBlock : Str → Option Str
  | '*' :: '/' :: rest => some rest
  | _ :: rest => skipBlock rest
  | [] => none

theorem skipBlock_length {text rest : Str} (found : skipBlock text = some rest) :
    rest.length ≤ text.length := by
  fun_induction skipBlock text with
  | case1 => cases found; simp; omega
  | case2 c text other ih =>
      have shorter := ih found
      simp only [List.length_cons]
      omega
  | case3 => cases found

namespace SqlDialect

variable (dialect : SqlDialect)

/-- A token whose text begins with `c`, or white space or a comment, and what follows
it; `none` where a quoted text or a comment has no end. -/
def next (c : Char) (rest : Str) : Option (Option SqlToken × Str) :=
  if c.isWhitespace = true then some (none, rest)
  else if c = '\'' then
    (readQuoted '\'' rest).map fun read => (some (.string read.1), read.2)
  else if c = '"' then
    (readQuoted '"' rest).map fun read => (some (.quotedIdentifier read.1), read.2)
  else if dialect.identifierStart c = true then
    some (some (.word ((c :: rest.takeWhile dialect.identifierPart).map dialect.fold)),
      rest.dropWhile dialect.identifierPart)
  else if c.isDigit = true then
    some (some (.number (c :: rest.takeWhile Char.isDigit)), rest.dropWhile Char.isDigit)
  else
    match c, rest with
    | '-', '-' :: comment => some (none, comment.dropWhile fun c => decide (c ≠ '\n'))
    | '/', '*' :: comment => (skipBlock comment).map fun rest => (none, rest)
    | c, rest => some (some (.symbol c), rest)

/-- `lex` with a bound on the tokens and separators. -/
def lexWith : Nat → Str → Option (List SqlToken)
  | _, [] => some []
  | 0, _ :: _ => none
  | fuel + 1, c :: rest =>
      match dialect.next c rest with
      | none => none
      | some (token, rest') => (lexWith fuel rest').map (token.toList ++ ·)

/-- The tokens of a text. -/
def lex (text : Str) : Option (List SqlToken) := dialect.lexWith text.length text

/-- The characters an unquoted identifier is made of. -/
def isIdentifier : Str → Bool
  | [] => false
  | c :: rest => dialect.identifierStart c && rest.all dialect.identifierPart

/-- The name of an unquoted identifier that is read as it is written. -/
structure Plain (name : Str) : Prop where
  identifier : dialect.isIdentifier name = true
  folded : name.map dialect.fold = name
  free : dialect.reserved name = false

end SqlDialect

/-- The least room a token takes in a text. -/
def SqlToken.weight : SqlToken → Nat
  | .word text => text.length
  | .quotedIdentifier text => text.length + text.count '"' + 2
  | .string text => text.length + text.count '\'' + 2
  | .number digits => digits.length
  | .symbol _ => 1

/-! ## What is read, and how much room it takes -/

namespace SqlDialect

variable {dialect : SqlDialect} {c : Char} {rest rest' : Str}

/-- What can be read at a character. -/
inductive Reads (dialect : SqlDialect) (c : Char) (rest : Str) : Option SqlToken → Str → Prop where
  | separator {rest' : Str} (shorter : rest'.length ≤ rest.length) : Reads dialect c rest none rest'
  | string {text rest' : Str} (quote : c = '\'')
      (read : readQuoted '\'' rest = some (text, rest')) :
      Reads dialect c rest (some (.string text)) rest'
  | quotedIdentifier {text rest' : Str} (quote : c = '"')
      (read : readQuoted '"' rest = some (text, rest')) :
      Reads dialect c rest (some (.quotedIdentifier text)) rest'
  | word {tail rest' : Str} (name : dialect.isIdentifier (c :: tail) = true)
      (split : tail ++ rest' = rest) :
      Reads dialect c rest (some (.word ((c :: tail).map dialect.fold))) rest'
  | number {digits rest' : Str} (split : digits ++ rest' = rest) :
      Reads dialect c rest (some (.number (c :: digits))) rest'
  | symbol : Reads dialect c rest (some (.symbol c)) rest

theorem reads_of_next {token : Option SqlToken}
    (found : dialect.next c rest = some (token, rest')) : Reads dialect c rest token rest' := by
  unfold next at found
  split at found
  · cases found
    exact .separator le_rfl
  split at found
  · rename_i quote
    obtain ⟨⟨text, after⟩, read, same⟩ := Option.map_eq_some_iff.mp found
    cases same
    exact .string quote read
  split at found
  · rename_i quote
    obtain ⟨⟨text, after⟩, read, same⟩ := Option.map_eq_some_iff.mp found
    cases same
    exact .quotedIdentifier quote read
  split at found
  · rename_i start
    cases found
    refine .word ?_ List.takeWhile_append_dropWhile
    rw [isIdentifier, start, Bool.true_and]
    exact List.all_takeWhile
  split at found
  · cases found
    exact .number List.takeWhile_append_dropWhile
  split at found
  · rename_i comment _ _
    cases found
    apply Reads.separator
    exact (List.dropWhile_suffix _).length_le.trans (Nat.le_succ _)
  · rename_i comment _ _
    obtain ⟨after, read, same⟩ := Option.map_eq_some_iff.mp found
    cases same
    exact .separator ((skipBlock_length read).trans (Nat.le_succ _))
  · cases found
    exact .symbol

theorem Reads.shorter {token : Option SqlToken} (reads : Reads dialect c rest token rest') :
    rest'.length ≤ rest.length := by
  cases reads with
  | separator shorter => exact shorter
  | string quote read => have room := readQuoted_length read; omega
  | quotedIdentifier quote read => have room := readQuoted_length read; omega
  | word name split => simp [← split]
  | number split => simp [← split]
  | symbol => exact le_rfl

theorem Reads.weight {token : SqlToken} (reads : Reads dialect c rest (some token) rest') :
    token.weight + rest'.length ≤ rest.length + 1 := by
  cases reads with
  | string quote read =>
      have room := readQuoted_length read
      simp only [SqlToken.weight]
      omega
  | quotedIdentifier quote read =>
      have room := readQuoted_length read
      simp only [SqlToken.weight]
      omega
  | word name split =>
      simp only [SqlToken.weight, ← split, List.length_map, List.length_cons, List.length_append]
      omega
  | number split =>
      simp only [SqlToken.weight, ← split, List.length_cons, List.length_append]
      omega
  | symbol => simp only [SqlToken.weight]; omega

/-! ## The equations of `lex` -/

theorem lexWith_of_le {text : Str} {fuel : Nat} (enough : text.length ≤ fuel) :
    dialect.lexWith fuel text = dialect.lex text := by
  suffices same : ∀ fuel fuel' text, List.length text ≤ fuel → List.length text ≤ fuel' →
      dialect.lexWith fuel text = dialect.lexWith fuel' text from
    same fuel text.length text enough le_rfl
  intro fuel
  induction fuel with
  | zero =>
      intro fuel' text enough _
      rw [List.length_eq_zero_iff.mp (Nat.le_zero.mp enough)]
      cases fuel' <;> rfl
  | succ fuel ih =>
      intro fuel' text enough enough'
      cases text with
      | nil => cases fuel' <;> rfl
      | cons c rest =>
          cases fuel' with
          | zero => exact absurd enough' (by simp)
          | succ fuel' =>
              cases found : dialect.next c rest with
              | none => simp only [lexWith, found]
              | some read =>
                  obtain ⟨token, rest'⟩ := read
                  have shorter := (reads_of_next found).shorter
                  simp only [List.length_cons] at enough enough'
                  simp only [lexWith, found]
                  rw [ih fuel' rest' (by omega) (by omega)]

theorem lex_of_next {token : Option SqlToken} (found : dialect.next c rest = some (token, rest')) :
    dialect.lex (c :: rest) = (dialect.lex rest').map (token.toList ++ ·) := by
  have shorter := (reads_of_next found).shorter
  rw [lex, List.length_cons, lexWith, found]
  simp only
  rw [lexWith_of_le shorter]

theorem reads_of_lex {tokens : List SqlToken} (found : dialect.lex (c :: rest) = some tokens) :
    ∃ token rest' later, Reads dialect c rest token rest' ∧ dialect.lex rest' = some later ∧
      tokens = token.toList ++ later := by
  cases read : dialect.next c rest with
  | none =>
      rw [lex, List.length_cons, lexWith, read] at found
      cases found
  | some read' =>
      obtain ⟨token, rest'⟩ := read'
      rw [lex_of_next read] at found
      obtain ⟨later, after, same⟩ := Option.map_eq_some_iff.mp found
      exact ⟨token, rest', later, reads_of_next read, after, same.symm⟩

/-- **What holds of the empty text, and of a text whenever it holds of what follows
its first token or separator**, holds of every text that has tokens. -/
theorem lex_induction {P : Str → List SqlToken → Prop} (nil : P [] [])
    (step : ∀ {c rest token rest' tokens}, Reads dialect c rest token rest' →
      dialect.lex rest' = some tokens → P rest' tokens → P (c :: rest) (token.toList ++ tokens))
    {text : Str} {tokens : List SqlToken} (found : dialect.lex text = some tokens) :
    P text tokens := by
  induction size : text.length using Nat.strong_induction_on generalizing text tokens with
  | _ size ih =>
      cases text with
      | nil =>
          cases found
          exact nil
      | cons c rest =>
          obtain ⟨token, rest', later, reads, after, rfl⟩ := reads_of_lex found
          have shorter := reads.shorter
          rw [List.length_cons] at size
          exact step reads after (ih rest'.length (by omega) after rfl)

/-- The tokens of a text are no longer than the text. -/
theorem weight_le {text : Str} {tokens : List SqlToken} (found : dialect.lex text = some tokens) :
    (tokens.map SqlToken.weight).sum ≤ text.length := by
  refine lex_induction (P := fun text tokens => (tokens.map SqlToken.weight).sum ≤ text.length)
    le_rfl (fun {c rest token rest' tokens} reads _ ih => ?_) found
  cases token with
  | none =>
      have shorter := reads.shorter
      simp only [Option.toList_none, List.nil_append, List.length_cons]
      omega
  | some token =>
      have room := reads.weight
      simp only [Option.toList_some, List.singleton_append, List.map_cons, List.sum_cons,
        List.length_cons]
      omega

/-- Every word of a text is a folded identifier. -/
theorem isIdentifier_of_mem_lex {text : Str} {tokens : List SqlToken}
    (found : dialect.lex text = some tokens) {w : Str} (member : SqlToken.word w ∈ tokens) :
    ∃ name, dialect.isIdentifier name = true ∧ name.map dialect.fold = w := by
  refine lex_induction (P := fun _ tokens => SqlToken.word w ∈ tokens →
    ∃ name, dialect.isIdentifier name = true ∧ name.map dialect.fold = w)
    (fun absent => by cases absent) (fun {c rest token rest' tokens} reads _ ih member => ?_)
    found member
  rcases List.mem_append.mp member with here | later
  · cases token with
    | none => cases here
    | some token =>
        obtain rfl : SqlToken.word w = token := List.mem_singleton.mp here
        cases reads with
        | word name split => exact ⟨_, name, rfl⟩
  · exact ih later

/-! ## Texts with known tokens -/

theorem lex_space (space : c.isWhitespace = true) : dialect.lex (c :: rest) = dialect.lex rest := by
  have found : dialect.next c rest = some (none, rest) := by
    unfold next
    rw [if_pos space]
  rw [lex_of_next found]
  simp

theorem lex_string : dialect.lex ('\'' :: rest) =
    (readQuoted '\'' rest).bind fun read =>
      (dialect.lex read.2).map (SqlToken.string read.1 :: ·) := by
  have found : dialect.next '\'' rest =
      (readQuoted '\'' rest).map fun read => (some (.string read.1), read.2) := rfl
  cases read : readQuoted '\'' rest with
  | none =>
      rw [read] at found
      rw [lex, List.length_cons, lexWith, found]
      rfl
  | some read' =>
      rw [read] at found
      rw [lex_of_next found]
      rfl

theorem lex_word {name : Str} (identifier : dialect.isIdentifier name = true)
    (stops : dialect.identifierPart c = false) :
    dialect.lex (name ++ c :: rest) =
      (dialect.lex (c :: rest)).map (SqlToken.word (name.map dialect.fold) :: ·) := by
  cases name with
  | nil => cases identifier
  | cons first tail =>
      rw [isIdentifier, Bool.and_eq_true, List.all_eq_true] at identifier
      obtain ⟨start, parts⟩ := identifier
      have space : ¬ first.isWhitespace = true := by
        intro space
        rw [(dialect.separator first (.inl space)).1] at start
        cases start
      have quote : first ∉ ['\'', '"', '*', '='] := by
        intro quote
        rw [(dialect.separator first (.inr quote)).1] at start
        cases start
      simp only [List.mem_cons, not_or] at quote
      have found : dialect.next first (tail ++ c :: rest) =
          some (some (.word ((first :: tail).map dialect.fold)), c :: rest) := by
        unfold next
        rw [if_neg space, if_neg quote.1, if_neg quote.2.1, if_pos start,
          List.takeWhile_append_of_pos parts, List.takeWhile_cons_of_neg (by simp [stops]),
          List.dropWhile_append_of_pos parts, List.dropWhile_cons_of_neg (by simp [stops]),
          List.append_nil]
      rw [List.cons_append, lex_of_next found]
      rfl

theorem lex_symbol (special : c = '*' ∨ c = '=') :
    dialect.lex (c :: rest) = (dialect.lex rest).map (SqlToken.symbol c :: ·) := by
  have start := (dialect.separator c (.inr (by rcases special with rfl | rfl <;> simp))).1
  have found : dialect.next c rest = some (some (.symbol c), rest) := by
    unfold next
    rcases special with rfl | rfl <;> simp [start, Char.isWhitespace, Char.isDigit]
  rw [lex_of_next found]
  rfl

/-- Letters and underscores are a word in every dialect. -/
theorem lex_keyword {name : Str}
    (letters : (name.all fun c => c.isAlpha || decide (c = '_')) = true)
    (present : name ≠ []) (space : c.isWhitespace = true) :
    dialect.lex (name ++ c :: rest) =
      (dialect.lex rest).map (SqlToken.word (name.map Char.toLower) :: ·) := by
  simp only [List.all_eq_true, Bool.or_eq_true, decide_eq_true_eq] at letters
  have identifier : dialect.isIdentifier name = true := by
    cases name with
    | nil => exact absurd rfl present
    | cons first tail =>
        rw [isIdentifier, Bool.and_eq_true, List.all_eq_true]
        exact ⟨(dialect.letter first (letters first List.mem_cons_self)).1, fun part member =>
          (dialect.letter part (letters part (List.mem_cons_of_mem first member))).2.1⟩
  have folds : name.map dialect.fold = name.map Char.toLower :=
    List.map_congr_left fun part member => (dialect.letter part (letters part member)).2.2
  rw [lex_word identifier (dialect.separator c (.inl space)).2, lex_space space, folds]

end SqlDialect

end Pdq.Theory
