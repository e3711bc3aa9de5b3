import HyuIte4065.Library.Reading
import Mathlib.Algebra.Order.Ring.Int
import Mathlib.Data.List.Sections

/-!
# Sums over joined tables, in SQL

The statements `SELECT SUM(..), .. FROM .. WHERE .. and ..;`: how they are printed and read, and what
they mean. Words are read in any case, and there may be space before everything but in names and
numbers. Numbers are integers without bounds, and no table has a null.
-/
namespace Sql

open Reading Numerals

abbrev Name := List Char

/-- A column of the table with this alias. -/
structure Column where
  table : Name
  name : Name
  deriving DecidableEq, Repr

inductive Operand where
  | column (column : Column)
  | number (n : Nat)
  deriving DecidableEq, Repr

inductive Test where
  | less | greater | equal
  deriving DecidableEq, Repr

structure Condition where
  left : Column
  test : Test
  right : Operand
  deriving DecidableEq, Repr

/-- The tables come with an alias each. -/
structure Select where
  sums : List Column
  tables : List (Name × Name)
  conditions : List Condition
  deriving DecidableEq, Repr

/-! ### Text -/

def Column.print (column : Column) : List Char := '"' :: column.table ++ '"' :: '.' :: column.name

def Operand.print : Operand → List Char
  | .column c => c.print
  | .number n => natText n

def Test.toChar : Test → Char
  | .less => '<'
  | .greater => '>'
  | .equal => '='

def Condition.print (condition : Condition) : List Char :=
  condition.left.print ++ condition.test.toChar :: condition.right.print

def printSum (column : Column) : List Char := "SUM(".toList ++ column.print ++ [')']

def printTable (table : Name × Name) : List Char := table.1 ++ ' ' :: '"' :: table.2 ++ ['"']

def printSums (sums : List Column) : List Char := "SELECT ".toList ++ ", ".toList.intercalate (sums.map printSum)

def printTables (tables : List (Name × Name)) : List Char :=
  " FROM ".toList ++ ", ".toList.intercalate (tables.map printTable)

def printConditions (conditions : List Condition) : List Char :=
  " WHERE ".toList ++ " and ".toList.intercalate (conditions.map Condition.print)

def Select.print (select : Select) : List Char :=
  printSums select.sums ++ printTables select.tables ++ printConditions select.conditions ++ [';']

def isWordChar (c : Char) : Bool := c.isAlphanum || c = '_'

def isWord (text : List Char) : Bool := text.head?.any Char.isAlpha && text.all isWordChar

def lower (text : List Char) : List Char := text.map Char.toLower

def reserved : List Name := ["select".toList, "from".toList, "where".toList, "and".toList]

def word : Reader Name
  | [] => none
  | c :: text => if c.isAlpha then (lower <$> some1 isWordChar) (c :: text) else none

def keyword (k : Name) : Reader Unit := do
  if (← token word) = k then return () else failure

/-- A name without quotes. -/
def name : Reader Name := do
  let w ← token word
  if w ∈ reserved then failure else return w

def quoted : Reader Name := do
  token (char '"')
  let name ← some1 (· ≠ '"')
  char '"'
  return name

def column : Reader Column := do
  let table ← quoted
  token (char '.')
  return ⟨table, ← name⟩

def sum : Reader Column := do
  keyword "sum".toList
  token (char '(')
  let column ← column
  token (char ')')
  return column

def table : Reader (Name × Name) := do
  let name ← name
  return (name, ← quoted)

def test : Reader Test := token fun text =>
  match text with
  | '<' :: rest => some (.less, rest)
  | '>' :: rest => some (.greater, rest)
  | '=' :: rest => some (.equal, rest)
  | _ => none

def operand : Reader Operand := (.column <$> column) <|> (.number <$> token number)

def condition : Reader Condition := do
  let left ← column
  let test ← test
  return ⟨left, test, ← operand⟩

def sums : Reader (List Column) := do
  keyword "select".toList
  sepBy sum (token (char ','))

def tables : Reader (List (Name × Name)) := do
  keyword "from".toList
  sepBy table (token (char ','))

def conditions : Reader (List Condition) := do
  keyword "where".toList
  sepBy condition (keyword "and".toList)

def select : Reader Select := do
  let sums ← sums
  let tables ← tables
  let conditions ← conditions
  token (char ';')
  return ⟨sums, tables, conditions⟩

def read (text : List Char) : Option Select := whole select text

/-! ### Meaning -/

/-- Every row has a value for each column. -/
structure Table where
  columns : List Name
  rows : List (List Int)

abbrev Database := Name → Option Table

/-- The tables of a statement under their aliases. -/
abbrev Scope := List (Name × Table)

/-- A row of each table. -/
abbrev Tuple := List (List Int)

def Select.scope (select : Select) (db : Database) : Option Scope :=
  if (select.tables.map Prod.snd).Nodup then
    select.tables.mapM fun (name, given) => (db name).map fun table => (given, table)
  else none

/-- Where a tuple has the value of a column. -/
def Scope.locate (scope : Scope) (column : Column) : Option (Nat × Nat) := do
  let i ← scope.findIdx? fun entry => entry.1 = column.table
  let entry ← scope[i]?
  let j ← entry.2.columns.findIdx? fun name => name = column.name
  return (i, j)

def fetch (tuple : Tuple) (place : Nat × Nat) : Int := (tuple.getD place.1 []).getD place.2 0

def Test.holds : Test → Int → Int → Bool
  | .less, a, b => decide (a < b)
  | .greater, a, b => decide (b < a)
  | .equal, a, b => decide (a = b)

def Scope.operand (scope : Scope) : Operand → Option (Tuple → Int)
  | .column c => (scope.locate c).map fun place tuple => fetch tuple place
  | .number n => some fun _ => n

def Scope.condition (scope : Scope) (condition : Condition) : Option (Tuple → Bool) := do
  let left ← scope.locate condition.left
  let right ← scope.operand condition.right
  return fun tuple => condition.test.holds (fetch tuple left) (right tuple)

/-- A sum over no rows is null, which is `none`. A statement with an unknown name has no result. -/
def eval (db : Database) (select : Select) : Option (List (Option Int)) := do
  let scope ← select.scope db
  let places ← select.sums.mapM scope.locate
  let conditions ← select.conditions.mapM scope.condition
  let tuples := (scope.map fun entry => entry.2.rows).sections.filter fun tuple => conditions.all (· tuple)
  return places.map fun place =>
    if tuples = [] then none else some (tuples.map fun tuple => fetch tuple place).sum

def run (db : Database) (text : List Char) : Option (List (Option Int)) := do eval db (← read text)

/-! ### What is printed can be read -/

def IsName (name : Name) : Prop := isWord name = true ∧ lower name = name ∧ name ∉ reserved

/-- What may stand between quotes. -/
def IsAlias (name : Name) : Prop := name ≠ [] ∧ '"' ∉ name

def Column.Fits (column : Column) : Prop := IsAlias column.table ∧ IsName column.name

def Condition.Fits (condition : Condition) : Prop :=
  condition.left.Fits ∧ ∀ column, condition.right = .column column → column.Fits

structure Select.Fits (select : Select) : Prop where
  sums : ∀ column ∈ select.sums, column.Fits
  tables : ∀ table ∈ select.tables, IsName table.1 ∧ IsAlias table.2
  conditions : ∀ condition ∈ select.conditions, condition.Fits

structure Select.Complete (select : Select) : Prop where
  sums : select.sums ≠ []
  tables : select.tables ≠ []
  conditions : select.conditions ≠ []

variable {text rest : List Char} {w k : Name} {c : Column} {cond : Condition} {s : Select} {entry : Name × Name}

theorem isWordChar_of_isDigit {d : Char} (h : d.isDigit = true) : isWordChar d = true := by
  simp only [isWordChar, Char.isAlphanum, h, Bool.or_true, Bool.true_or]

theorem ne_space_of_isAlpha {d : Char} (h : d.isAlpha = true) : d ≠ ' ' := by
  rintro rfl
  cases h

theorem isWord_cons (h : isWord text = true) :
    ∃ d rest, text = d :: rest ∧ d.isAlpha = true ∧ ∀ e ∈ text, isWordChar e = true := by
  obtain ⟨hhead, hall⟩ := Bool.and_eq_true_iff.mp h
  cases text with
  | nil => cases hhead
  | cons d rest => exact ⟨d, rest, rfl, hhead, List.all_eq_true.mp hall⟩

section
variable (n : Nat)

theorem reads_word (h : isWord text = true) :
    Reads (token word) (List.replicate n ' ' ++ text) (lower text) (Apart isWordChar) := by
  obtain ⟨d, rest, rfl, hd, hall⟩ := isWord_cons h
  refine (Reads.token (fun rest' hrest => ?_) (ne_space_of_isAlpha hd)).spaces n
  rw [List.cons_append, word, if_pos hd]
  exact (reads_some1 hall (List.cons_ne_nil d rest)).map lower rest' hrest

theorem reads_keyword (text : List Char) (h : isWord text = true) (hk : lower text = k) :
    Reads (keyword k) (List.replicate n ' ' ++ text) () (Apart isWordChar) := by
  intro rest hrest
  show (token word (List.replicate n ' ' ++ text ++ rest) >>= fun x => (if x.1 = k then Pure.pure () else failure :
    Reader Unit) x.2) = _
  rw [reads_word n h rest hrest]
  show (if lower text = k then Pure.pure () else failure : Reader Unit) rest = _
  rw [if_pos hk]
  rfl

theorem keyword_fails (text : List Char) (h : isWord text = true)
    (hk : lower text ≠ k) (hrest : Apart isWordChar rest) :
    keyword k (List.replicate n ' ' ++ text ++ rest) = none := by
  refine (reads_word n h).bind_fails rest hrest ?_
  rw [if_neg hk]
  rfl

theorem reads_name (h : IsName w) : Reads name (List.replicate n ' ' ++ w) w (Apart isWordChar) := by
  intro rest hrest
  show (token word (List.replicate n ' ' ++ w ++ rest) >>= fun x =>
        (if x.1 ∈ reserved then failure else Pure.pure x.1 :
    Reader Name) x.2) = _
  rw [reads_word n h.1 rest hrest, h.2.1]
  show (if w ∈ reserved then failure else Pure.pure w : Reader Name) rest = _
  rw [if_neg h.2.2]
  rfl

theorem name_fails (text : List Char) (h : isWord text = true) (hreserved : lower text ∈ reserved)
    (hrest : Apart isWordChar rest) : name (List.replicate n ' ' ++ text ++ rest) = none := by
  refine (reads_word n h).bind_fails rest hrest ?_
  rw [if_pos hreserved]
  rfl

theorem reads_symbol (d : Char) (hd : d ≠ ' ') :
    Reads (token (char d)) (List.replicate n ' ' ++ [d]) () fun _ => True :=
  ((reads_char d).token hd).spaces n

theorem reads_quoted (h : IsAlias w) : Reads quoted (List.replicate n ' ' ++ '"' :: w ++ ['"']) w fun _ => True := by
  have hall : ∀ d ∈ w, decide (d ≠ '"') = true := fun d hd => decide_eq_true fun he => h.2 (he ▸ hd)
  unfold quoted
  refine (reads_symbol n '"' (by decide)).seq ((reads_some1 hall h.1).seq ((reads_char '"').yield fun _ => w)
    (fun _ _ => apart_cons (by decide)) rfl) (fun _ _ => trivial) ?_
  simp only [List.append_assoc, List.cons_append, List.nil_append]

theorem quoted_fails (d : Char) (hspace : d ≠ ' ') (hquote : d ≠ '"') :
    quoted (List.replicate n ' ' ++ d :: rest) = none := by
  refine bind_fails ?_
  rw [token_spaces, token_cons hspace]
  exact if_neg hquote

theorem reads_column (h : c.Fits) : Reads column (List.replicate n ' ' ++ c.print) c (Apart isWordChar) := by
  unfold column
  refine (reads_quoted n h.1).seq ((reads_symbol 0 '.' (by decide)).seq
    ((reads_name 0 h.2).yield fun name => (⟨c.table, name⟩ : Column)) (fun _ _ => trivial) rfl) (fun _ _ => trivial) ?_
  simp [Column.print]

theorem reads_sum (h : c.Fits) : Reads sum (List.replicate n ' ' ++ printSum c) c fun _ => True := by
  unfold sum
  refine (reads_keyword n "SUM".toList (by decide) (by decide)).seq ((reads_symbol 0 '(' (by decide)).seq
    ((reads_column 0 h).seq ((reads_symbol 0 ')' (by decide)).yield fun _ => c)
      (fun _ _ => apart_cons (by decide)) rfl)
    (fun _ _ => trivial) rfl) (fun _ _ => apart_cons (by decide)) ?_
  simp [printSum]

theorem reads_table (hname : IsName entry.1) (halias : IsAlias entry.2) :
    Reads table (List.replicate n ' ' ++ printTable entry) entry fun _ => True := by
  unfold table
  refine (reads_name n hname).seq ((reads_quoted 1 halias).yield fun given => (entry.1, given))
    (fun _ _ => apart_cons (by decide)) ?_
  simp [printTable]

end

theorem reads_test (t : Test) : Reads test [t.toChar] t fun _ => True := by
  intro rest _
  cases t <;> rfl

theorem reads_operand {o : Operand} (h : ∀ c, o = .column c → c.Fits) :
    Reads operand o.print o (Apart isWordChar) := by
  cases o with
  | column c => exact ((reads_column 0 (h c rfl)).map Operand.column).orElse
  | number n =>
    obtain ⟨d, digits, hdigits⟩ := List.exists_cons_of_ne_nil (natText_ne_nil n)
    have hd : d.isDigit = true := isDigit_of_mem_natText (hdigits ▸ List.mem_cons_self)
    have hspace : d ≠ ' ' := by
      rintro rfl
      cases hd
    have hquote : d ≠ '"' := by
      rintro rfl
      cases hd
    have hnumber : Reads (token number) (natText n) n (Apart Char.isDigit) := by
      have hread := reads_number n
      rw [hdigits] at hread ⊢
      exact hread.token hspace
    have hends : ∀ rest, Apart isWordChar rest → Apart Char.isDigit rest := by
      intro rest hrest e he
      refine Bool.eq_false_iff.mpr fun hdigit => ?_
      have hword := hrest e he
      rw [isWordChar_of_isDigit hdigit] at hword
      cases hword
    refine ((hnumber.map Operand.number).mono hends).orElse_right fun rest => ?_
    have hfail : column (natText n ++ rest) = none := by
      rw [hdigits]
      exact bind_fails (quoted_fails 0 d hspace hquote)
    show (column (natText n ++ rest) >>= fun x => some (Operand.column x.1, x.2)) = none
    rw [hfail]
    rfl

theorem reads_condition (n : Nat) (h : cond.Fits) :
    Reads condition (List.replicate n ' ' ++ cond.print) cond (Apart isWordChar) := by
  unfold condition
  refine (reads_column n h.1).seq ((reads_test cond.test).seq ((reads_operand h.2).yield
    fun right => (⟨cond.left, cond.test, right⟩ : Condition)) (fun _ _ => trivial) rfl) (fun _ _ => ?_) ?_
  · cases cond.test <;> exact apart_cons (by decide)
  · simp only [Condition.print, List.append_assoc, List.cons_append, List.nil_append]

/-! ### Statements -/

/-- No further element comes. -/
def Last (sep : Reader Unit) (rest : List Char) : Prop := Apart isWordChar rest ∧ sep rest = none

section
variable (h : s.Fits)
include h

theorem reads_sums (hne : s.sums ≠ []) : Reads sums (printSums s.sums) s.sums (Last (token (char ','))) := by
  have hlist : Reads (sepBy sum (token (char ',')))
      (" ".toList ++ ", ".toList.intercalate (s.sums.map printSum)) s.sums
      (Last (token (char ','))) :=
    reads_sepBy [','] [' '] hne (by decide) (fun c hc => reads_sum 1 (h.sums c hc))
      (fun c hc => reads_sum 1 (h.sums c hc))
      (reads_symbol 0 ',' (by decide)) (fun _ _ _ => trivial) (fun _ => trivial) fun _ hrest => ⟨trivial, hrest.2⟩
  exact (reads_keyword 0 "SELECT".toList (by decide) rfl).bind (f := fun _ => _) hlist
    fun _ _ => apart_cons (by decide)

theorem reads_tables (hne : s.tables ≠ []) :
    Reads tables (printTables s.tables) s.tables (Last (token (char ','))) := by
  have hlist : Reads (sepBy table (token (char ','))) (" ".toList ++ ", ".toList.intercalate (s.tables.map printTable))
      s.tables (Last (token (char ','))) :=
    reads_sepBy [','] [' '] hne (by decide) (fun t ht => reads_table 1 (h.tables t ht).1 (h.tables t ht).2)
      (fun t ht => reads_table 1 (h.tables t ht).1 (h.tables t ht).2) (reads_symbol 0 ',' (by decide))
      (fun _ _ _ => trivial) (fun _ => trivial) fun _ hrest => ⟨trivial, hrest.2⟩
  exact (reads_keyword 1 "FROM".toList (by decide) rfl).bind (f := fun _ => _) hlist
    fun _ _ => apart_cons (by decide)

theorem reads_conditions (hne : s.conditions ≠ []) : Reads conditions (printConditions s.conditions) s.conditions
    (Last (keyword "and".toList)) := by
  have hlist : Reads (sepBy condition (keyword "and".toList))
      (" ".toList ++ " and ".toList.intercalate (s.conditions.map Condition.print)) s.conditions
        (Last (keyword "and".toList)) :=
    reads_sepBy " and".toList [' '] hne (by decide) (fun c hc => reads_condition 1 (h.conditions c hc))
      (fun c hc => reads_condition 1 (h.conditions c hc)) (reads_keyword 1 "and".toList (by decide) (by decide))
      (fun _ _ _ => apart_cons (by decide)) (fun _ => apart_cons (by decide)) fun _ hrest => hrest
  exact (reads_keyword 1 "WHERE".toList (by decide) rfl).bind (f := fun _ => _) hlist
    fun _ _ => apart_cons (by decide)

theorem reads_select (hc : s.Complete) : Reads select s.print s fun _ => True := by
  have hend : Reads (token (char ';') >>= fun _ => Pure.pure (⟨s.sums, s.tables, s.conditions⟩ : Select)) [';'] s
      fun _ => True := (reads_symbol 0 ';' (by decide)).yield fun _ => s
  have hconditions := (reads_conditions h hc.conditions).bind
    (f := fun conditions => token (char ';') >>= fun _ => Pure.pure (⟨s.sums, s.tables, conditions⟩ : Select))
    hend fun rest _ => ⟨apart_cons (by decide), rfl⟩
  have htables := (reads_tables h hc.tables).bind (f := fun tables => conditions >>= fun conditions =>
    token (char ';') >>= fun _ => Pure.pure (⟨s.sums, tables, conditions⟩ : Select))
    hconditions fun rest _ => ⟨apart_cons (by decide), rfl⟩
  have hall := (reads_sums h hc.sums).bind (f := fun sums => tables >>= fun tables => conditions >>= fun conditions =>
    token (char ';') >>= fun _ => Pure.pure (⟨sums, tables, conditions⟩ : Select))
    htables fun rest _ => ⟨apart_cons (by decide), rfl⟩
  rw [Select.print, List.append_assoc, List.append_assoc]
  exact hall

/-- A statement that is printed can be read. -/
theorem read_print (hc : s.Complete) : read s.print = some s := (reads_select h hc).whole trivial

end

/-! ### Lists that are empty -/

theorem sums_fails : sums (printSums [] ++ printTables s.tables ++ rest) = none := by
  refine (reads_keyword 0 "SELECT".toList (by decide) rfl).bind_fails (" ".toList ++ (printTables s.tables ++ rest))
    (apart_cons (by decide)) (sepBy_fails (bind_fails ?_))
  exact keyword_fails 2 "FROM".toList (by decide) (by decide) (apart_cons (by decide))

theorem tables_fails : tables (printTables [] ++ printConditions s.conditions ++ rest) = none := by
  refine (reads_keyword 1 "FROM".toList (by decide) rfl).bind_fails
    (" ".toList ++ (printConditions s.conditions ++ rest))
    (apart_cons (by decide)) (sepBy_fails (bind_fails ?_))
  exact name_fails 2 "WHERE".toList (by decide) (by decide) (apart_cons (by decide))

theorem conditions_fails : conditions (printConditions [] ++ [';']) = none := by
  refine (reads_keyword 1 "WHERE".toList (by decide) rfl).bind_fails " ;".toList
    (apart_cons (by decide)) (sepBy_fails (bind_fails (bind_fails ?_)))
  exact quoted_fails 1 ';' (by decide) (by decide)

/-- Without sums, tables or conditions what is printed is no statement. -/
theorem read_print_incomplete (h : s.Fits) (hc : ¬ s.Complete) : read s.print = none := by
  refine whole_fails ?_
  rw [Select.print]
  by_cases hsums : s.sums = []
  · rw [hsums, List.append_assoc]
    exact bind_fails sums_fails
  by_cases htables : s.tables = []
  · rw [htables, List.append_assoc, List.append_assoc]
    refine (reads_sums h hsums).bind_fails _ ⟨apart_cons (by decide), rfl⟩ (bind_fails ?_)
    rw [← List.append_assoc]
    exact tables_fails
  have hconditions : s.conditions = [] := by
    by_contra hconditions
    exact hc ⟨hsums, htables, hconditions⟩
  rw [hconditions, List.append_assoc, List.append_assoc]
  exact (reads_sums h hsums).bind_fails _ ⟨apart_cons (by decide), rfl⟩
    ((reads_tables h htables).bind_fails _ ⟨apart_cons (by decide), rfl⟩ (bind_fails conditions_fails))

end Sql
