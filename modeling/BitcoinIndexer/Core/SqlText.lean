import Mathlib.Data.List.Basic
import Mathlib.Data.Nat.Notation

/-!
# Insert statements as text

The part of SQL multi-value `INSERT`s are written in: a scanner that splits text into tokens,
a parser that reads tokens as a sequence of statements, and rules by which a text that is put
together from parts reads as what the parts say.  A value is the list of its tokens.
-/

namespace BitcoinIndexer.SqlText

inductive Token where
  | word (chars : List Char)
  | literal (chars : List Char)
  | leftParen
  | rightParen
  | comma
  | semicolon
  | dot
  | equals
  | typecast
  deriving DecidableEq

/-! ## The scanner -/

def quote : Char := Char.ofNat 39

/-- What has been read of the token in progress; a literal goes on where its closing quote is
followed by another one. -/
inductive Scan where
  | blank
  | word (chars : List Char)
  | literal (chars : List Char)
  | closing (chars : List Char)
  | colon
  deriving DecidableEq

abbrev Scanned := List Token × Scan

def isWordChar (char : Char) : Bool := char.isAlphanum || char = '_'

def punctuation (char : Char) : Option Token :=
  if char = '(' then some .leftParen
  else if char = ')' then some .rightParen
  else if char = ',' then some .comma
  else if char = ';' then some .semicolon
  else if char = '.' then some .dot
  else if char = '=' then some .equals
  else none

/-- A character outside of a token. -/
def start (char : Char) : Option Scanned :=
  if isWordChar char then some ([], .word [char])
  else if char = quote then some ([], .literal [])
  else if char = ':' then some ([], .colon)
  else if char = ' ' then some ([], .blank)
  else (punctuation char).map fun token => ([token], .blank)

def Scan.next : Scan → Char → Option Scanned
  | .blank, char => start char
  | .word chars, char =>
      if isWordChar char then some ([], .word (chars ++ [char]))
      else (start char).map fun found => (.word chars :: found.1, found.2)
  | .literal chars, char =>
      if char = quote then some ([], .closing chars) else some ([], .literal (chars ++ [char]))
  | .closing chars, char =>
      if char = quote then some ([], .literal (chars ++ [quote]))
      else (start char).map fun found => (.literal chars :: found.1, found.2)
  | .colon, char => if char = ':' then some ([.typecast], .blank) else none

def scan : Scan → List Char → Option Scanned
  | state, [] => some ([], state)
  | state, char :: chars =>
      match state.next char with
      | none => none
      | some found => (scan found.2 chars).map fun rest => (found.1 ++ rest.1, rest.2)

/-! ## The parser -/

/-- A list of values, or of names, between parentheses. -/
abbrev Row := List (List Token)

inductive Reading where
  | before
  | inside (depth : ℕ) (fields : Row) (field : List Token)
  | after

/-- Rows separated by commas, and what follows them. -/
def readRows : Reading → List Row → List Token → Option (List Row × List Token)
  | .after, rows, [] => some (rows, [])
  | .after, rows, .comma :: tokens => readRows .before rows tokens
  | .after, rows, token :: tokens => some (rows, token :: tokens)
  | .before, rows, .leftParen :: tokens => readRows (.inside 0 [] []) rows tokens
  | .before, _, _ => none
  | .inside _ _ _, _, [] => none
  | .inside 0 fields field, rows, .comma :: tokens =>
      readRows (.inside 0 (fields ++ [field]) []) rows tokens
  | .inside 0 fields field, rows, .rightParen :: tokens =>
      readRows .after (rows ++ [fields ++ [field]]) tokens
  | .inside (depth + 1) fields field, rows, .rightParen :: tokens =>
      readRows (.inside depth fields (field ++ [.rightParen])) rows tokens
  | .inside depth fields field, rows, .leftParen :: tokens =>
      readRows (.inside (depth + 1) fields (field ++ [.leftParen])) rows tokens
  | .inside depth fields field, rows, token :: tokens =>
      readRows (.inside depth fields (field ++ [token])) rows tokens

structure Statement where
  table : List Char
  columns : List (List Char)
  rows : List Row
  onConflict : List Token
  deriving DecidableEq

def nameOf : List Token → Option (List Char)
  | [.word chars] => some chars
  | _ => none

/-- `INSERT INTO <table>(<columns>) VALUES (..),(..)..<conflict clause>`. -/
def statementOf : List Token → Option Statement
  | .word insert :: .word into :: .word table :: tokens =>
      if insert = "INSERT".toList ∧ into = "INTO".toList then
        match readRows .before [] tokens with
        | some ([columns], .word values :: tokens) =>
            if values = "VALUES".toList then
              match columns.mapM nameOf, readRows .before [] tokens with
              | some columns, some (rows, onConflict) => some ⟨table, columns, rows, onConflict⟩
              | _, _ => none
            else none
        | _ => none
      else none
  | _ => none

/-- Every statement is closed with a semicolon; `read` is what there is of the first one. -/
def statementsOf : List Token → List Token → Option (List Statement)
  | [], [] => some []
  | _ :: _, [] => none
  | read, .semicolon :: tokens =>
      match statementOf read, statementsOf [] tokens with
      | some statement, some statements => some (statement :: statements)
      | _, _ => none
  | read, token :: tokens => statementsOf (read ++ [token]) tokens

def parse (text : List Char) : Option (List Statement) :=
  match scan .blank text with
  | some (tokens, .blank) => statementsOf [] tokens
  | _ => none

/-! ## Rules for the scanner -/

variable {state middle after : Scan} {left right text : List Char} {read tokens more : List Token}
variable {char : Char} {token : Token}

theorem scan_append (hleft : scan state left = some (tokens, middle))
    (hright : scan middle right = some (more, after)) :
    scan state (left ++ right) = some (tokens ++ more, after) := by
  induction left generalizing state tokens with
  | nil =>
      simp only [scan, Option.some.injEq, Prod.mk.injEq] at hleft
      rw [← hleft.1, hleft.2, List.nil_append, List.nil_append, hright]
  | cons char chars ih =>
      rw [scan] at hleft
      rw [List.cons_append, scan]
      cases hnext : state.next char with
      | none => simp [hnext] at hleft
      | some found =>
          rw [hnext] at hleft
          obtain ⟨rest, hrest, heq⟩ := Option.map_eq_some_iff.1 hleft
          rw [Prod.mk.injEq] at heq
          have hchars : scan found.2 (chars ++ right) = some (rest.1 ++ more, after) :=
            ih (by rw [hrest, ← heq.2])
          simp [hchars, ← heq.1]

theorem scan_word {chars : List Char} (hchars : ∀ char ∈ chars, isWordChar char = true) :
    ∀ read, scan (.word read) chars = some ([], .word (read ++ chars)) := by
  induction chars with
  | nil => simp [scan]
  | cons char chars ih =>
      intro read
      have hrest := ih (fun char hmem => hchars char (List.mem_cons_of_mem _ hmem))
      simp [scan, Scan.next, hchars char List.mem_cons_self, hrest]

theorem scan_literal {chars : List Char} (hchars : quote ∉ chars) :
    ∀ read, scan (.literal read) chars = some ([], .literal (read ++ chars)) := by
  induction chars with
  | nil => simp [scan]
  | cons char chars ih =>
      intro read
      rw [List.mem_cons, not_or] at hchars
      simp [scan, Scan.next, Ne.symm hchars.1, ih hchars.2]

/-- The tokens there are if the text ends here or goes on with punctuation. -/
def Scan.ended : Scan → Option (List Token)
  | .blank => some []
  | .word chars => some [.word chars]
  | .closing chars => some [.literal chars]
  | _ => none

theorem next_punctuation {ended : List Token} (hended : state.ended = some ended)
    (hchar : punctuation char = some token) :
    state.next char = some (ended ++ [token], .blank) := by
  have hstart : isWordChar char = false ∧ char ≠ quote ∧
      start char = some ([token], .blank) := by
    unfold punctuation at hchar
    split_ifs at hchar <;> subst char <;> cases hchar <;> decide
  cases state with
  | blank | word | closing =>
      cases hended
      simp [Scan.next, hstart]
  | literal | colon => cases hended

/-- `text` has the tokens `tokens` wherever punctuation follows it. -/
def ReadsAs (text : List Char) (tokens : List Token) : Prop :=
  ∃ read state ended, scan .blank text = some (read, state) ∧ state.ended = some ended ∧
    tokens = read ++ ended

/-- Whatever follows `text`, its tokens are `tokens`. -/
def Complete (text : List Char) (tokens : List Token) : Prop :=
  scan .blank text = some (tokens, .blank)

theorem readsAs_nil : ReadsAs [] [] := ⟨[], .blank, [], rfl, rfl, rfl⟩

theorem Complete.readsAs (h : Complete text tokens) : ReadsAs text tokens :=
  ⟨tokens, .blank, [], h, rfl, (List.append_nil tokens).symm⟩

theorem Complete.append_readsAs (hleft : Complete left tokens) (hright : ReadsAs right more) :
    ReadsAs (left ++ right) (tokens ++ more) := by
  obtain ⟨read, state, ended, hscan, hended, rfl⟩ := hright
  exact ⟨tokens ++ read, state, ended, scan_append hleft hscan, hended,
    (List.append_assoc tokens read ended).symm⟩

theorem Complete.append (hleft : Complete left tokens) (hright : Complete right more) :
    Complete (left ++ right) (tokens ++ more) :=
  scan_append hleft hright

/-- Punctuation ends the token before it. -/
theorem ReadsAs.punctuation (h : ReadsAs text tokens)
    (hchar : punctuation char = some token) : Complete (text ++ [char]) (tokens ++ [token]) := by
  obtain ⟨read, state, ended, hscan, hended, rfl⟩ := h
  have hlast : scan state [char] = some (ended ++ [token], .blank) := by
    simp [scan, next_punctuation hended hchar]
  rw [Complete, scan_append hscan hlast, List.append_assoc]

/-! ## Values -/

theorem readsAs_word {chars : List Char} (hne : chars ≠ [])
    (hchars : ∀ char ∈ chars, isWordChar char = true) : ReadsAs chars [.word chars] := by
  cases chars with
  | nil => exact absurd rfl hne
  | cons char chars =>
      have hrest := scan_word (fun char hmem => hchars char (List.mem_cons_of_mem _ hmem)) [char]
      refine ⟨[], .word (char :: chars), [.word (char :: chars)], ?_, rfl, rfl⟩
      simp [scan, Scan.next, start, hchars char List.mem_cons_self, hrest]

theorem scan_quoted {chars : List Char} (hchars : quote ∉ chars) :
    scan .blank (quote :: (chars ++ [quote])) = some ([], .closing chars) := by
  have hopened : scan .blank [quote] = some ([], .literal []) := rfl
  have hclosed : scan (.literal chars) [quote] = some ([], .closing chars) := rfl
  have hliteral : scan (.literal []) chars = some ([], .literal chars) := scan_literal hchars []
  exact scan_append hopened (scan_append hliteral hclosed)

theorem readsAs_literal {chars : List Char} (hchars : quote ∉ chars) :
    ReadsAs (quote :: (chars ++ [quote])) [.literal chars] :=
  ⟨[], .closing chars, [.literal chars], scan_quoted hchars, rfl, rfl⟩

theorem readsAs_typecast {chars : List Char} (hchars : quote ∉ chars) (char : Char)
    (type : List Char) (hchar : isWordChar char = true)
    (htype : ∀ char ∈ type, isWordChar char = true) :
    ReadsAs (quote :: (chars ++ [quote]) ++ (':' :: ':' :: char :: type))
      [.literal chars, .typecast, .word (char :: type)] := by
  have hcolons : scan (.closing chars) [':', ':'] =
      some ([.literal chars, .typecast], .blank) := rfl
  have hword : scan .blank (char :: type) = some ([], .word (char :: type)) := by
    simp [scan, Scan.next, start, hchar, scan_word htype]
  exact ⟨[.literal chars, .typecast], .word (char :: type), [.word (char :: type)],
    scan_append (scan_quoted hchars) (scan_append hcolons hword), rfl, rfl⟩

/-! ## Lists of parts -/

/-- The parts with a separator between any two of them. -/
def joined {α : Type} (separator : α) : List (List α) → List α
  | [] => []
  | part :: parts => part ++ parts.flatMap (separator :: ·)

theorem joined_append {α : Type} (separator : α) {parts : List (List α)} (hne : parts ≠ [])
    (part : List α) :
    joined separator (parts ++ [part]) = joined separator parts ++ separator :: part := by
  cases parts with
  | nil => exact absurd rfl hne
  | cons first parts => simp [joined]

def rowText (fields : List (List Char)) : List Char := '(' :: (joined ',' fields ++ [')'])

def rowTokens (row : Row) : List Token := .leftParen :: (joined .comma row ++ [.rightParen])

theorem ReadsAs.separated {parts : List (List Char)} {row : Row} (h : ReadsAs text tokens)
    (hparts : List.Forall₂ ReadsAs parts row) :
    ReadsAs (text ++ parts.flatMap (',' :: ·)) (tokens ++ row.flatMap (.comma :: ·)) := by
  induction hparts generalizing text tokens with
  | nil => simpa using h
  | @cons part field parts row hpart _ ih =>
      have hcomma : Complete (text ++ [',']) (tokens ++ [.comma]) := h.punctuation rfl
      simpa using ih (hcomma.append_readsAs hpart)

theorem readsAs_joined {parts : List (List Char)} {row : Row}
    (hparts : List.Forall₂ ReadsAs parts row) :
    ReadsAs (joined ',' parts) (joined .comma row) := by
  cases hparts with
  | nil => exact readsAs_nil
  | cons hpart hrest => exact hpart.separated hrest

/-- A row ends the token before it. -/
theorem ReadsAs.row {fields : List (List Char)} {row : Row} (h : ReadsAs text tokens)
    (hfields : List.Forall₂ ReadsAs fields row) :
    Complete (text ++ rowText fields) (tokens ++ rowTokens row) := by
  have hopened : Complete (text ++ ['(']) (tokens ++ [.leftParen]) := h.punctuation rfl
  have hclosed : Complete (text ++ ['('] ++ joined ',' fields ++ [')'])
      (tokens ++ [.leftParen] ++ joined .comma row ++ [.rightParen]) :=
    (hopened.append_readsAs (readsAs_joined hfields)).punctuation rfl
  simpa [rowText, rowTokens] using hclosed

theorem Complete.rows {texts : List (List (List Char))} {rows : List Row}
    (h : Complete text tokens) (hrows : List.Forall₂ (List.Forall₂ ReadsAs) texts rows) :
    Complete (text ++ (texts.map rowText).flatMap (',' :: ·))
      (tokens ++ (rows.map rowTokens).flatMap (.comma :: ·)) := by
  induction hrows generalizing text tokens with
  | nil => simpa using h
  | @cons fields row texts rows hfields _ ih =>
      have hcomma : Complete (text ++ [',']) (tokens ++ [.comma]) := h.readsAs.punctuation rfl
      simpa using ih (hcomma.readsAs.row hfields)

/-! ## Rules for the parser -/

/-- `tokens` are part of one field. -/
def Balanced (tokens : List Token) : Prop :=
  ∀ fields field rows rest, readRows (.inside 0 fields field) rows (tokens ++ rest) =
    readRows (.inside 0 fields (field ++ tokens)) rows rest

theorem balanced_of_plain
    (h : ∀ token ∈ tokens, token ≠ .comma ∧ token ≠ .leftParen ∧ token ≠ .rightParen) :
    Balanced tokens := by
  induction tokens with
  | nil => simp [Balanced]
  | cons token tokens ih =>
      intro fields field rows rest
      have hrest := ih (fun token hmem => h token (List.mem_cons_of_mem _ hmem)) fields
        (field ++ [token]) rows rest
      have htoken := h token List.mem_cons_self
      rw [List.append_cons field token tokens, ← hrest, List.cons_append]
      cases token with
      | comma => exact absurd rfl htoken.1
      | leftParen => exact absurd rfl htoken.2.1
      | rightParen => exact absurd rfl htoken.2.2
      | _ => rfl

theorem readRows_fields {row : Row} (hrow : ∀ field ∈ row, Balanced field) (hne : row ≠ [])
    (rows : List Row) (rest : List Token) :
    readRows .before rows (rowTokens row ++ rest) = readRows .after (rows ++ [row]) rest := by
  have hfields : ∀ (row : Row), (∀ field ∈ row, Balanced field) → ∀ fields field,
      readRows (.inside 0 fields field) rows
          (row.flatMap (.comma :: ·) ++ .rightParen :: rest) =
        readRows .after (rows ++ [fields ++ field :: row]) rest := by
    intro row
    induction row with
    | nil => intros; rfl
    | cons next row ih =>
        intro hrow fields field
        have hnext := hrow next List.mem_cons_self (fields ++ [field]) [] rows
          (row.flatMap (.comma :: ·) ++ .rightParen :: rest)
        have htail := ih (fun field hmem => hrow field (List.mem_cons_of_mem _ hmem))
          (fields ++ [field]) next
        simpa [readRows, htail] using hnext
  cases row with
  | nil => exact absurd rfl hne
  | cons field row =>
      have hfirst := hrow field List.mem_cons_self [] [] rows
        (row.flatMap (.comma :: ·) ++ .rightParen :: rest)
      have htail := hfields row (fun field hmem => hrow field (List.mem_cons_of_mem _ hmem))
        [] field
      simpa [rowTokens, joined, readRows, htail] using hfirst

theorem readRows_after {onConflict : List Token} (hclause : .comma ∉ onConflict.head?)
    (rows : List Row) : readRows .after rows onConflict = some (rows, onConflict) := by
  cases onConflict with
  | nil => rfl
  | cons token tokens =>
      cases token with
      | comma => simp at hclause
      | _ => rfl

/-- Every value of the rows is one field. -/
structure Plain (rows : List Row) : Prop where
  balanced : ∀ row ∈ rows, ∀ field ∈ row, Balanced field
  closed : ∀ row ∈ rows, ∀ field ∈ row, .semicolon ∉ field
  nonempty : ∀ row ∈ rows, row ≠ []

theorem Plain.tail {row : Row} {rows : List Row} (h : Plain (row :: rows)) : Plain rows where
  balanced := fun row hmem => h.balanced row (List.mem_cons_of_mem _ hmem)
  closed := fun row hmem => h.closed row (List.mem_cons_of_mem _ hmem)
  nonempty := fun row hmem => h.nonempty row (List.mem_cons_of_mem _ hmem)

theorem readRows_rows {rows : List Row} (hrows : Plain rows) (hne : rows ≠ [])
    {onConflict : List Token} (hclause : .comma ∉ onConflict.head?) :
    readRows .before [] (joined .comma (rows.map rowTokens) ++ onConflict) =
      some (rows, onConflict) := by
  have hrest : ∀ rows : List Row, Plain rows → ∀ done,
      readRows .after done ((rows.map rowTokens).flatMap (.comma :: ·) ++ onConflict) =
        some (done ++ rows, onConflict) := by
    intro rows
    induction rows with
    | nil =>
        intro _ done
        simpa using readRows_after hclause done
    | cons row rows ih =>
        intro hrows done
        have hrow := readRows_fields (hrows.balanced row List.mem_cons_self)
          (hrows.nonempty row List.mem_cons_self) done
          ((rows.map rowTokens).flatMap (.comma :: ·) ++ onConflict)
        have htail := ih hrows.tail (done ++ [row])
        simpa [readRows, htail] using hrow
  cases rows with
  | nil => exact absurd rfl hne
  | cons row rows =>
      have hrow := readRows_fields (hrows.balanced row List.mem_cons_self)
        (hrows.nonempty row List.mem_cons_self) []
        ((rows.map rowTokens).flatMap (.comma :: ·) ++ onConflict)
      have htail := hrest rows hrows.tail [row]
      simpa [joined, htail] using hrow

/-! ## Statements -/

/-- What comes before the values. -/
def headTokens (table : List Char) (columns : List (List Char)) : List Token :=
  .word "INSERT".toList :: .word "INTO".toList :: .word table ::
    (rowTokens (columns.map fun column => [.word column]) ++ [.word "VALUES".toList])

def statementTokens (statement : Statement) : List Token :=
  headTokens statement.table statement.columns ++
    (joined .comma (statement.rows.map rowTokens) ++ statement.onConflict)

/-- A statement with columns, with values, and with a clause after them. -/
structure WellFormed (statement : Statement) : Prop where
  columns : statement.columns ≠ []
  rows : statement.rows ≠ []
  plain : Plain statement.rows
  clause : .comma ∉ statement.onConflict.head?
  closed : .semicolon ∉ statement.onConflict

theorem mem_joined {separator : Token} {row : Row} (hmem : token ∈ joined separator row) :
    token = separator ∨ ∃ field ∈ row, token ∈ field := by
  cases row with
  | nil => simp [joined] at hmem
  | cons field row =>
      simp only [joined, List.mem_append, List.mem_flatMap, List.mem_cons] at hmem
      obtain hfirst | ⟨other, hother, heq | hin⟩ := hmem
      · exact .inr ⟨field, List.mem_cons_self, hfirst⟩
      · exact .inl heq
      · exact .inr ⟨other, List.mem_cons_of_mem _ hother, hin⟩

theorem semicolon_not_mem_rowTokens {row : Row} (h : ∀ field ∈ row, .semicolon ∉ field) :
    .semicolon ∉ rowTokens row := by
  intro hmem
  simp only [rowTokens, List.mem_cons, List.mem_append, List.not_mem_nil, reduceCtorEq, false_or,
    or_false] at hmem
  obtain heq | ⟨field, hfield, hin⟩ := mem_joined hmem
  · cases heq
  · exact h field hfield hin

theorem WellFormed.semicolon_not_mem {statement : Statement} (h : WellFormed statement) :
    .semicolon ∉ statementTokens statement := by
  have hcolumns : .semicolon ∉ rowTokens (statement.columns.map fun column => [.word column]) :=
    semicolon_not_mem_rowTokens (by simp)
  have hrows : .semicolon ∉ joined .comma (statement.rows.map rowTokens) := by
    intro hmem
    obtain heq | ⟨field, hfield, hin⟩ := mem_joined hmem
    · cases heq
    · obtain ⟨row, hrow, rfl⟩ := List.mem_map.1 hfield
      exact semicolon_not_mem_rowTokens (h.plain.closed row hrow) hin
  simp [statementTokens, headTokens, hcolumns, hrows, h.closed]

theorem mapM_map {α β γ : Type} {f : β → Option γ} {g : α → β} {h : α → γ}
    (hone : ∀ a, f (g a) = some (h a)) (as : List α) :
    (as.map g).mapM f = some (as.map h) := by
  induction as with
  | nil => rfl
  | cons a as ih => simp [List.mapM_cons, hone, ih]

theorem mapM_nameOf (columns : List (List Char)) :
    (columns.map fun column => [Token.word column]).mapM nameOf = some columns := by
  simpa using mapM_map (f := nameOf) (g := fun column => [Token.word column])
    (h := fun column => column) (fun _ => rfl) columns

theorem statementOf_tokens {statement : Statement} (h : WellFormed statement) :
    statementOf (statementTokens statement) = some statement := by
  have hnamed : ∀ field ∈ statement.columns.map fun column => [Token.word column],
      Balanced field := by
    intro field hmem
    obtain ⟨column, -, rfl⟩ := List.mem_map.1 hmem
    exact balanced_of_plain (by simp)
  have hcolumns := readRows_fields hnamed (by simpa using h.columns) []
    (.word "VALUES".toList ::
      (joined .comma (statement.rows.map rowTokens) ++ statement.onConflict))
  have hrows := readRows_rows h.plain h.rows h.clause
  have hnames := mapM_nameOf statement.columns
  simp only [statementTokens, headTokens, List.cons_append, List.append_assoc, List.nil_append,
    statementOf, hcolumns, readRows, hrows, hnames, and_self, if_true]

theorem statementsOf_closed {statement : Statement} (hclosed : .semicolon ∉ tokens) :
    ∀ read, statementOf (read ++ tokens) = some statement → ∀ rest,
      statementsOf read (tokens ++ .semicolon :: rest) =
        (statementsOf [] rest).map (statement :: ·) := by
  induction tokens with
  | nil =>
      intro read h rest
      rw [List.append_nil] at h
      cases hrest : statementsOf [] rest <;> simp [statementsOf, h, hrest]
  | cons token tokens ih =>
      intro read h rest
      rw [List.mem_cons, not_or] at hclosed
      have htail := ih hclosed.2 (read ++ [token]) (by simpa using h) rest
      cases token with
      | semicolon => exact absurd rfl hclosed.1
      | _ => simpa [statementsOf] using htail

/-- The text of one statement. -/
def Writes (text : List Char) (statement : Statement) : Prop :=
  WellFormed statement ∧ Complete text (statementTokens statement ++ [.semicolon])

theorem writes_statement {opening clause : List Char} {texts : List (List (List Char))}
    {statement : Statement} (h : WellFormed statement)
    (hopening : ReadsAs opening (headTokens statement.table statement.columns))
    (hrows : List.Forall₂ (List.Forall₂ ReadsAs) texts statement.rows)
    (hclause : ReadsAs clause statement.onConflict) :
    Writes (opening ++ joined ',' (texts.map rowText) ++ clause ++ [';']) statement := by
  have hvalues : Complete (opening ++ joined ',' (texts.map rowText))
      (headTokens statement.table statement.columns ++
        joined .comma (statement.rows.map rowTokens)) := by
    have hne := h.rows
    cases statement with
    | mk table columns rows onConflict =>
        cases hrows with
        | nil => exact absurd rfl hne
        | cons hrow hrest => simpa [joined] using (hopening.row hrow).rows hrest
  have htokens : statementTokens statement ++ [.semicolon] =
      headTokens statement.table statement.columns ++
        joined .comma (statement.rows.map rowTokens) ++ statement.onConflict ++ [.semicolon] := by
    simp [statementTokens]
  refine ⟨h, ?_⟩
  rw [htokens]
  exact (hvalues.append_readsAs hclause).punctuation rfl

/-- A text that is written statement by statement is read as these statements. -/
theorem parse_flatten {texts : List (List Char)} {statements : List Statement}
    (h : List.Forall₂ Writes texts statements) : parse texts.flatten = some statements := by
  have hscan : ∃ tokens, Complete texts.flatten tokens ∧
      statementsOf [] tokens = some statements := by
    induction h with
    | nil => exact ⟨[], rfl, rfl⟩
    | @cons text statement texts statements hwrites _ ih =>
        obtain ⟨tokens, hcomplete, hstatements⟩ := ih
        refine ⟨_, hwrites.2.append hcomplete, ?_⟩
        rw [List.append_assoc, List.singleton_append, statementsOf_closed hwrites.1.semicolon_not_mem []
          (statementOf_tokens hwrites.1), hstatements, Option.map_some]
  obtain ⟨tokens, hcomplete, hstatements⟩ := hscan
  rw [parse, hcomplete]
  exact hstatements

end BitcoinIndexer.SqlText
