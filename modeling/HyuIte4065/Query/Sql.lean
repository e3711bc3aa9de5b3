import HyuIte4065.Query.RoundTrip
import HyuIte4065.Query.Main
import HyuIte4065.Library.Sql
import Mathlib.Algebra.BigOperators.Ring.Finset

/-!
# Queries in SQL

`dumpSQL` of `Parser.cpp` and `main` of `Query2SQL.cpp`. In a database that has the relations as
tables, with the names that `Relation::dumpSQL` gives them, the statement has the sums that the
joiner outputs modulo `2^64`.
-/
namespace Query

open Loops Transition

def wrapRelationName (id : Nat) : Text := '"' :: toText id ++ ['"']

def SelectInfo.dumpSQL (info : SelectInfo) (addSUM : Bool) : Text :=
  let innerPart := wrapRelationName info.binding ++ ".c".toList ++ toText info.colId
  if addSUM then "SUM(".toList ++ innerPart ++ [')'] else innerPart

def FilterInfo.dumpSQL (f : FilterInfo) : Text :=
  f.filterColumn.dumpSQL false ++ f.comparison.toChar :: toText f.constant.toNat

def PredicateInfo.dumpSQL (p : PredicateInfo) : Text := p.left.dumpSQL false ++ '=' :: p.right.dumpSQL false

/-- One turn of the loops, which may write the counter too. -/
def dumpElementSQL {α : Type} (dump : Nat → α → Text) (delimiterSQL : Text) (elements : List α) (i : Nat)
    (ss : Text) : Option Text :=
  (elements[i]?).map fun e => ss ++ dump i e ++ if i < elements.length - 1 then delimiterSQL else []

def dumpIndexedSQL {α : Type} (dump : Nat → α → Text) (delimiterSQL : Text) (elements : List α) (fuel : Nat)
    (ss : Text) : Option Text :=
  Loops.countUp elements.length (dumpElementSQL dump delimiterSQL elements) fuel 0#32 ss

def dumpPartSQL {α : Type} (dump : α → Text) (delimiterSQL : Text) (elements : List α) (fuel : Nat) (ss : Text) :
    Option Text :=
  dumpIndexedSQL (fun _ => dump) delimiterSQL elements fuel ss

/-- `QueryInfo::dumpSQL`; its first two loops are like that of `dumpPartSQL`. -/
def QueryInfo.dumpSQL (query : QueryInfo) (fuel : Nat) : Option Text := do
  let sql ← dumpPartSQL (·.dumpSQL true) ", ".toList query.selections fuel "SELECT ".toList
  let sql ← dumpIndexedSQL (fun i relId => 'r' :: toText relId ++ ' ' :: wrapRelationName i) ", ".toList
    query.relationIds fuel (sql ++ " FROM ".toList)
  let sql ← dumpPartSQL PredicateInfo.dumpSQL " and ".toList query.predicates fuel (sql ++ " WHERE ".toList)
  let sql ← dumpPartSQL FilterInfo.dumpSQL " and ".toList query.filters fuel
    (if query.predicates ≠ [] ∧ query.filters ≠ [] then sql ++ " and ".toList else sql)
  return sql ++ [';']

def SelectInfo.sqlColumn (info : SelectInfo) : Sql.Column := ⟨toText info.binding, 'c' :: toText info.colId⟩

def Comparison.test : Comparison → Sql.Test
  | .less => .less
  | .greater => .greater
  | .equal => .equal

def PredicateInfo.condition (p : PredicateInfo) : Sql.Condition :=
  ⟨p.left.sqlColumn, .equal, .column p.right.sqlColumn⟩

def FilterInfo.condition (f : FilterInfo) : Sql.Condition :=
  ⟨f.filterColumn.sqlColumn, f.comparison.test, .number f.constant.toNat⟩

def QueryInfo.statement (query : QueryInfo) : Sql.Select where
  sums := query.selections.map (·.sqlColumn)
  tables := query.relationIds.mapIdx fun i relId => ('r' :: toText relId, toText i)
  conditions := query.predicates.map (·.condition) ++ query.filters.map (·.condition)

def table (relation : Relation) : Sql.Table where
  columns := (List.range relation.columns.length).map fun cId => 'c' :: toText cId
  rows := (List.range relation.size).map fun row => relation.columns.map fun c => ((c.getD row 0).toNat : Int)

/-- The database has every relation as the table of its number. -/
def Stores (db : Sql.Database) (relations : List Relation) : Prop :=
  ∀ relId relation, relations[relId]? = some relation → db ('r' :: toText relId) = some (table relation)

/-- A query that uses what there is only, and something for each part of the statement. -/
structure Translatable (relations : List Relation) (query : QueryInfo) : Prop where
  relationIds : ∀ relId ∈ query.relationIds, relId < relations.length
  predicates : ∀ p ∈ query.predicates, InRange relations query p.left ∧ InRange relations query p.right
  filters : ∀ f ∈ query.filters, InRange relations query f.filterColumn
  selections : ∀ info ∈ query.selections, InRange relations query info

/-- How the joiner outputs a sum. -/
def printSum : Option Int → String
  | none => "NULL"
  | some sum => toString (sum % 2 ^ 64).toNat

def printSums (sums : List (Option Int)) : String := String.intercalate " " (sums.map printSum) ++ "\n"

section
variable (relations : List Relation) (query : QueryInfo)

/-- The sums as integers; no sum where no tuple qualifies. -/
def sums : List (Option Int) :=
  query.selections.map fun info =>
    if qualifying relations query = [] then none
    else some ((qualifying relations query).map fun rows =>
        ((value relations query (rowOf rows) info).toNat : Int)).sum

/-- A row of the table for a binding. -/
def rowAt (binding row : Nat) : List Int :=
  (boundRelation relations query binding).elim []
    fun relation => relation.columns.map fun c => ((c.getD row 0).toNat : Int)

def tupleOf (rows : List Nat) : Sql.Tuple :=
  List.zipWith (rowAt relations query) (List.range query.relationIds.length) rows

end

variable {relations : List Relation} {query : QueryInfo} {info : SelectInfo} {f : FilterInfo} {p : PredicateInfo}
  {db : Sql.Database} {rows : List Nat} {n m i : Nat}

/-! ### What is written -/

theorem print_sqlColumn : info.sqlColumn.print = info.dumpSQL false := by
  simp [Sql.Column.print, SelectInfo.sqlColumn, SelectInfo.dumpSQL, wrapRelationName]

theorem printSum_sqlColumn : Sql.printSum info.sqlColumn = info.dumpSQL true := by
  simp [Sql.printSum, print_sqlColumn, SelectInfo.dumpSQL]

theorem print_predicate : p.condition.print = p.dumpSQL := by
  simp only [Sql.Condition.print, PredicateInfo.condition, Sql.Operand.print, print_sqlColumn, PredicateInfo.dumpSQL]
  rfl

theorem print_filter : f.condition.print = f.dumpSQL := by
  have htest : f.comparison.test.toChar = f.comparison.toChar := by cases f.comparison <;> rfl
  simp only [Sql.Condition.print, FilterInfo.condition, Sql.Operand.print, print_sqlColumn, htest, FilterInfo.dumpSQL]
  rfl

theorem dumpIndexedSQL_returns {α : Type} (dump : Nat → α → Text) (delimiterSQL : Text) {elements : List α}
    (h : elements.length < 2 ^ 32) (ss : Text) :
    Returns (fun fuel => dumpIndexedSQL dump delimiterSQL elements fuel ss)
      (ss ++ delimiterSQL.intercalate (elements.mapIdx dump)) := by
  have hlength : (elements.mapIdx dump).length = elements.length := List.length_mapIdx
  -- what is written and what is left to write make the whole text
  obtain ⟨text, hret, htext⟩ : ∃ text, Returns (fun fuel => dumpIndexedSQL dump delimiterSQL elements fuel ss)
      text ∧ text ++ delimiterSQL.intercalate ((elements.mapIdx dump).drop elements.length) =
        ss ++ delimiterSQL.intercalate (elements.mapIdx dump) :=
    Returns.countUp h (I := fun i text => text ++ delimiterSQL.intercalate ((elements.mapIdx dump).drop i) =
      ss ++ delimiterSQL.intercalate (elements.mapIdx dump)) (by rw [List.drop_zero]) fun i hi text htext => by
        refine ⟨_, by rw [dumpElementSQL, List.getElem?_eq_getElem hi]; rfl, ?_⟩
        have hdrop : (elements.mapIdx dump).drop i = dump i elements[i] :: (elements.mapIdx dump).drop (i + 1) := by
          rw [List.drop_eq_getElem_cons (by rw [hlength]; exact hi), List.getElem_mapIdx]
        rw [← htext, hdrop, Pieces.intercalate_cons]
        have hlast : (elements.mapIdx dump).drop (i + 1) = [] ↔ ¬i < elements.length - 1 := by
          rw [List.drop_eq_nil_iff, hlength]
          omega
        simp only [hlast, List.append_assoc, ite_not]
  rw [← hlength, List.drop_length, List.intercalate_nil, List.append_nil] at htext
  exact htext ▸ hret

theorem dumpPartSQL_returns {α : Type} (dump : α → Text) (delimiterSQL : Text) {elements : List α}
    (h : elements.length < 2 ^ 32) (ss : Text) : Returns (fun fuel => dumpPartSQL dump delimiterSQL elements fuel ss)
      (ss ++ delimiterSQL.intercalate (elements.map dump)) := by
  have hmap : elements.mapIdx (fun _ => dump) = elements.map dump := by
    refine List.ext_getElem (by simp) fun i _ _ => ?_
    rw [List.getElem_mapIdx, List.getElem_map]
  rw [← hmap]
  exact dumpIndexedSQL_returns (fun _ => dump) delimiterSQL h ss

theorem printTable_alias (i relId : Nat) : Sql.printTable ('r' :: toText relId, toText i) =
    'r' :: toText relId ++ ' ' :: wrapRelationName i := by
  simp [Sql.printTable, wrapRelationName]

theorem print_statement : query.statement.print =
    "SELECT ".toList ++ ", ".toList.intercalate (query.selections.map (·.dumpSQL true)) ++
    (" FROM ".toList ++ ", ".toList.intercalate
      (query.relationIds.mapIdx fun i relId => 'r' :: toText relId ++ ' ' :: wrapRelationName i)) ++
    (" WHERE ".toList ++ " and ".toList.intercalate
      (query.predicates.map PredicateInfo.dumpSQL ++ query.filters.map FilterInfo.dumpSQL)) ++ [';'] := by
  have hsums : query.statement.sums.map Sql.printSum = query.selections.map (·.dumpSQL true) := by
    rw [QueryInfo.statement, List.map_map]
    exact List.map_congr_left fun _ _ => printSum_sqlColumn
  have htables : query.statement.tables.map Sql.printTable =
      query.relationIds.mapIdx fun i relId => 'r' :: toText relId ++ ' ' :: wrapRelationName i := by
    refine List.ext_getElem (by simp [QueryInfo.statement]) fun i _ _ => ?_
    simp only [QueryInfo.statement, List.getElem_map, List.getElem_mapIdx, printTable_alias]
  have hconditions : query.statement.conditions.map Sql.Condition.print =
      query.predicates.map PredicateInfo.dumpSQL ++ query.filters.map FilterInfo.dumpSQL := by
    have hpredicates : ∀ p ∈ query.predicates, p.condition.print = p.dumpSQL := fun _ _ => print_predicate
    have hfilters : ∀ f ∈ query.filters, f.condition.print = f.dumpSQL := fun _ _ => print_filter
    rw [QueryInfo.statement, List.map_append, List.map_map, List.map_map]
    exact congrArg₂ (· ++ ·) (List.map_congr_left hpredicates) (List.map_congr_left hfilters)
  have hselect := congrArg (fun pieces => "SELECT ".toList ++ ", ".toList.intercalate pieces) hsums
  have hfrom := congrArg (fun pieces => " FROM ".toList ++ ", ".toList.intercalate pieces) htables
  have hwhere := congrArg (fun pieces => " WHERE ".toList ++ " and ".toList.intercalate pieces) hconditions
  exact congrArg (· ++ [';']) (congrArg₂ (· ++ ·) (congrArg₂ (· ++ ·) hselect hfrom) hwhere)

theorem dumpSQL_returns (h : query.Countable) : Returns query.dumpSQL query.statement.print := by
  rw [print_statement, Pieces.intercalate_append]
  simp only [ne_eq, List.map_eq_nil_iff]
  unfold QueryInfo.dumpSQL
  generalize "SELECT ".toList = select
  generalize " FROM ".toList = from'
  generalize " WHERE ".toList = where'
  generalize ", ".toList = comma
  generalize " and ".toList = and'
  refine (dumpPartSQL_returns (·.dumpSQL true) comma h.selections select).bind ?_
  refine (dumpIndexedSQL_returns _ comma h.relationIds _).bind ?_
  refine (dumpPartSQL_returns PredicateInfo.dumpSQL and' h.predicates _).bind ?_
  refine (dumpPartSQL_returns FilterInfo.dumpSQL and' h.filters _).bind (.const (congrArg some ?_))
  split <;> simp only [List.append_assoc, List.nil_append]

/-! ### The statement can be read -/

theorem toLower_of_isDigit {c : Char} (h : c.isDigit = true) : c.toLower = c := by
  have hdigit : 48 ≤ c.toNat ∧ c.toNat ≤ 57 := Char.isDigit_iff_toNat.mp h
  refine dif_neg fun hupper => ?_
  have hge : 65 ≤ c.toNat := hupper.1
  omega

theorem isName_numbered {c : Char} (hc : c ∈ ['c', 'r']) (n : Nat) : Sql.IsName (c :: toText n) := by
  have hdigits : ∀ d ∈ toText n, d.isDigit = true := fun d hd =>
    Nat.isDigit_of_mem_toDigits (by decide) (by decide) hd
  obtain ⟨halpha, hword, hlower⟩ : c.isAlpha = true ∧ Sql.isWordChar c = true ∧ c.toLower = c := by
    rcases List.mem_pair.mp hc with rfl | rfl <;> decide
  refine ⟨Bool.and_eq_true_iff.mpr ⟨halpha, List.all_eq_true.mpr fun d hd => ?_⟩, ?_, fun hreserved => ?_⟩
  · rcases List.mem_cons.mp hd with rfl | hd
    · exact hword
    · exact Sql.isWordChar_of_isDigit (hdigits d hd)
  · refine congrArg₂ List.cons hlower ?_
    exact (List.map_congr_left fun d hd => toLower_of_isDigit (hdigits d hd)).trans (List.map_id _)
  · have hhead : some c ∈ Sql.reserved.map List.head? := List.mem_map_of_mem hreserved
    rcases List.mem_pair.mp hc with rfl | rfl <;> revert hhead <;> exact (by decide)

theorem isAlias_toText (n : Nat) : Sql.IsAlias (toText n) := ⟨toText_ne_nil, not_mem_toText (by decide)⟩

theorem sqlColumn_fits (info : SelectInfo) : info.sqlColumn.Fits := ⟨isAlias_toText _, isName_numbered (by decide) _⟩

theorem statement_fits (query : QueryInfo) : query.statement.Fits where
  sums := by
    intro c hc
    obtain ⟨info, -, rfl⟩ := List.mem_map.mp hc
    exact sqlColumn_fits info
  tables := by
    intro t ht
    obtain ⟨i, hi, rfl⟩ := List.mem_mapIdx.mp ht
    exact ⟨isName_numbered (by decide) _, isAlias_toText i⟩
  conditions := by
    intro c hc
    rcases List.mem_append.mp hc with hc | hc
    · obtain ⟨p, -, rfl⟩ := List.mem_map.mp hc
      refine ⟨sqlColumn_fits p.left, ?_⟩
      rintro _ ⟨⟩
      exact sqlColumn_fits p.right
    · obtain ⟨f, -, rfl⟩ := List.mem_map.mp hc
      exact ⟨sqlColumn_fits f.filterColumn, fun _ => nofun⟩

/-- A query that has something for each part of a statement. -/
def Complete (query : QueryInfo) : Prop :=
  query.selections ≠ [] ∧ query.relationIds ≠ [] ∧ (query.predicates ≠ [] ∨ query.filters ≠ [])

theorem statement_complete : query.statement.Complete ↔ Complete query := by
  have hconditions : query.statement.conditions ≠ [] ↔ query.predicates ≠ [] ∨ query.filters ≠ [] := by
    simp only [QueryInfo.statement, ne_eq, List.append_eq_nil_iff, List.map_eq_nil_iff, not_and_or]
  have hsums : query.statement.sums ≠ [] ↔ query.selections ≠ [] := List.map_eq_nil_iff.not
  have htables : query.statement.tables ≠ [] ↔ query.relationIds ≠ [] := List.mapIdx_eq_nil_iff.not
  constructor
  · intro h
    exact ⟨hsums.mp h.sums, htables.mp h.tables, hconditions.mp h.conditions⟩
  · rintro ⟨h, h', h''⟩
    exact ⟨hsums.mpr h, htables.mpr h', hconditions.mpr h''⟩

theorem read_statement (h : Complete query) : Sql.read query.statement.print = some query.statement :=
  Sql.read_print (statement_fits query) (statement_complete.mpr h)

theorem read_statement_incomplete (h : ¬ Complete query) : Sql.read query.statement.print = none :=
  Sql.read_print_incomplete (statement_fits query) (statement_complete.not.mpr h)

/-! ### What the statement means -/

theorem toText_injective : Function.Injective toText := by
  intro n m h
  have hback : Nat.ofDigitChars 10 (toText n) 0 = Nat.ofDigitChars 10 (toText m) 0 := by rw [h]
  rwa [toText, toText, Nat.ofDigitChars_ten_toDigits, Nat.ofDigitChars_ten_toDigits] at hback

/-- A name that only one index of a list has. -/
theorem findIdx?_of_injective {α β : Type} [DecidableEq β] {f : α → β} {g : Nat → β} (hg : Function.Injective g)
    {xs : List α} (h : ∀ j (hj : j < xs.length), f xs[j] = g j) (hi : i < xs.length) :
    xs.findIdx? (fun x => decide (f x = g i)) = some i := by
  refine List.findIdx?_eq_some_iff_getElem.mpr ⟨hi, decide_eq_true (h i hi), fun j hj he => ?_⟩
  have hindex : g j = g i := (h j (hj.trans hi)).symm.trans (of_decide_eq_true he)
  exact hj.ne (hg hindex)

section
variable (relations : List Relation) (query : QueryInfo)

/-- The table that a binding stands for. -/
def tableAt (binding : Nat) : Sql.Table :=
  (boundRelation relations query binding).elim ⟨[], []⟩ table

def tableScope : Sql.Scope := (List.range query.relationIds.length).map fun i => (toText i, tableAt relations query i)

end

theorem rows_tableAt (binding : Nat) : (tableAt relations query binding).rows =
    (List.range (numRows relations query binding)).map (rowAt relations query binding) := by
  rw [tableAt, numRows]
  cases h : boundRelation relations query binding with
  | none => rfl
  | some relation =>
    refine List.map_congr_left fun row _ => ?_
    rw [rowAt, h]
    rfl

theorem Translatable.bound (h : Translatable relations query) (hi : i < query.relationIds.length) :
    ∃ relation, boundRelation relations query i = some relation ∧
      relations[query.relationIds[i]]? = some relation := by
  have hlt : query.relationIds[i] < relations.length := h.relationIds _ (List.getElem_mem hi)
  refine ⟨relations[query.relationIds[i]], ?_, List.getElem?_eq_getElem hlt⟩
  rw [boundRelation, List.getElem?_eq_getElem hi, Option.bind_some, List.getElem?_eq_getElem hlt]

theorem tables_statement (query : QueryInfo) : query.statement.tables =
    (List.range query.relationIds.length).map fun i => ('r' :: toText (query.relationIds.getD i 0), toText i) := by
  refine List.ext_getElem (by simp [QueryInfo.statement]) fun i hi _ => ?_
  have hlt : i < query.relationIds.length := by simpa [QueryInfo.statement] using hi
  simp [QueryInfo.statement, List.getElem?_eq_getElem hlt]

theorem Translatable.scope (h : Translatable relations query) (hdb : Stores db relations) :
    query.statement.scope db = some (tableScope relations query) := by
  have hnames : query.statement.tables.map Prod.snd = (List.range query.relationIds.length).map toText := by
    rw [tables_statement, List.map_map]
    rfl
  have hlookup : ∀ i ∈ List.range query.relationIds.length,
      ((db ('r' :: toText (query.relationIds.getD i 0))).map fun table => (toText i, table)) =
        some (toText i, tableAt relations query i) := by
    intro i hi
    have hi : i < query.relationIds.length := List.mem_range.mp hi
    obtain ⟨relation, hbound, hget⟩ := h.bound hi
    rw [List.getD_eq_getElem _ _ hi, hdb _ _ hget, Option.map_some, tableAt, hbound]
    rfl
  rw [Sql.Select.scope, if_pos (hnames ▸ List.nodup_range.map toText_injective), tables_statement, List.mapM_map]
  exact mapM_eq_some hlookup

theorem locate_sqlColumn (h : InRange relations query info) :
    (tableScope relations query).locate info.sqlColumn = some (info.binding, info.colId) := by
  have hbinding : info.binding < query.relationIds.length := (List.getElem?_eq_some_iff.mp h.resolved).1
  obtain ⟨relation, hbound, -, hcolumn⟩ := h.bound
  have hlength : (tableScope relations query).length = query.relationIds.length := by simp [tableScope]
  have hentry : ∀ j (hj : j < (tableScope relations query).length),
      (tableScope relations query)[j] = (toText j, tableAt relations query j) := by
    intro j hj
    simp [tableScope]
  have htable : (tableScope relations query).findIdx? (fun entry => decide (entry.1 = toText info.binding)) =
      some info.binding :=
    findIdx?_of_injective toText_injective (fun j hj => by rw [hentry]) (hlength ▸ hbinding)
  have hget : (tableScope relations query)[info.binding]? = some (toText info.binding, table relation) := by
    rw [List.getElem?_eq_getElem (hlength ▸ hbinding), hentry, tableAt, hbound]
    rfl
  have hname : (table relation).columns.findIdx? (fun name => decide (name = 'c' :: toText info.colId)) =
      some info.colId := by
    refine findIdx?_of_injective (f := fun name => name) (g := fun cId => 'c' :: toText cId)
      (fun n m he => toText_injective (List.cons.inj he).2) (fun j hj => ?_) ?_
    · simp [table]
    · simpa [table] using hcolumn
  exact Option.bind_eq_some_iff.mpr ⟨_, htable, Option.bind_eq_some_iff.mpr ⟨_, hget,
    Option.bind_eq_some_iff.mpr ⟨_, hname, rfl⟩⟩⟩

/-- What stands in a tuple of rows is what the joiner reads in the columns. -/
theorem fetch_tupleOf (h : InRange relations query info) (hrows : rows.length = query.relationIds.length) :
    Sql.fetch (tupleOf relations query rows) (info.binding, info.colId) =
      ((value relations query (rowOf rows) info).toNat : Int) := by
  have hbinding : info.binding < query.relationIds.length := (List.getElem?_eq_some_iff.mp h.resolved).1
  obtain ⟨relation, hbound, -, hcolumn⟩ := h.bound
  have hrow : (tupleOf relations query rows).getD info.binding [] =
      rowAt relations query info.binding rows[info.binding] := by
    rw [tupleOf, List.getD_eq_getElem _ _ (by simp; omega), List.getElem_zipWith, List.getElem_range]
  have hrowOf : rowOf rows info.binding = rows[info.binding] := List.getD_eq_getElem ..
  rw [Sql.fetch, hrow, rowAt, hbound, value, cell, hbound, hrowOf]
  simp [List.getElem?_eq_getElem hcolumn, List.getD_eq_getElem?_getD]

/-- The conditions as tests of a tuple. -/
def tests (query : QueryInfo) : List (Sql.Tuple → Bool) :=
  query.predicates.map (fun p tuple => decide (Sql.fetch tuple (p.left.binding, p.left.colId) =
    Sql.fetch tuple (p.right.binding, p.right.colId))) ++
  query.filters.map fun f tuple =>
    f.comparison.test.holds (Sql.fetch tuple (f.filterColumn.binding, f.filterColumn.colId)) f.constant.toNat

theorem Translatable.conditions (h : Translatable relations query) :
    query.statement.conditions.mapM (tableScope relations query).condition = some (tests query) := by
  have hpredicates : query.predicates.mapM (fun p => (tableScope relations query).condition p.condition) = some _ :=
    mapM_eq_some (g := fun p tuple => decide (Sql.fetch tuple (p.left.binding, p.left.colId) =
      Sql.fetch tuple (p.right.binding, p.right.colId))) fun p hp => by
        have hleft := locate_sqlColumn (h.predicates p hp).1
        have hright := locate_sqlColumn (h.predicates p hp).2
        refine Option.bind_eq_some_iff.mpr ⟨_, hleft, Option.bind_eq_some_iff.mpr ⟨_, ?_, rfl⟩⟩
        exact Option.map_eq_some_iff.mpr ⟨_, hright, rfl⟩
  have hfilters : query.filters.mapM (fun f => (tableScope relations query).condition f.condition) = some _ :=
    mapM_eq_some (g := fun f tuple => f.comparison.test.holds
      (Sql.fetch tuple (f.filterColumn.binding, f.filterColumn.colId)) f.constant.toNat) fun f hf =>
        Option.bind_eq_some_iff.mpr ⟨_, locate_sqlColumn (h.filters f hf), rfl⟩
  rw [QueryInfo.statement, List.mapM_append, List.mapM_map, List.mapM_map]
  refine Option.bind_eq_some_iff.mpr ⟨_, hpredicates, Option.bind_eq_some_iff.mpr ⟨_, hfilters, rfl⟩⟩

theorem holds_predicate (h : InRange relations query p.left ∧ InRange relations query p.right)
    (hrows : rows.length = query.relationIds.length) :
    decide (Sql.fetch (tupleOf relations query rows) (p.left.binding, p.left.colId) =
      Sql.fetch (tupleOf relations query rows) (p.right.binding, p.right.colId)) =
    p.holds relations query (rowOf rows) := by
  rw [fetch_tupleOf h.1 hrows, fetch_tupleOf h.2 hrows, PredicateInfo.holds]
  refine decide_eq_decide.mpr ?_
  rw [Int.natCast_inj, BitVec.toNat_inj]

theorem holds_filter (h : InRange relations query f.filterColumn) (hrows : rows.length = query.relationIds.length) :
    f.comparison.test.holds (Sql.fetch (tupleOf relations query rows) (f.filterColumn.binding, f.filterColumn.colId))
      f.constant.toNat = f.holds relations query (rowOf rows) := by
  rw [fetch_tupleOf h hrows, FilterInfo.holds]
  cases f.comparison with
  | less => exact decide_eq_decide.mpr (Int.ofNat_lt.trans BitVec.lt_def.symm)
  | greater => exact decide_eq_decide.mpr (Int.ofNat_lt.trans BitVec.lt_def.symm)
  | equal => exact decide_eq_decide.mpr (by rw [Int.natCast_inj, BitVec.toNat_inj])

theorem length_of_crossProduct (h : rows ∈ crossProduct relations query) : rows.length = query.relationIds.length := by
  rw [List.mem_sections_length h, List.length_map, List.length_range]

/-- The tuples that the conditions leave are those of the qualifying rows. -/
theorem Translatable.tuples (h : Translatable relations query) :
    ((tableScope relations query).map fun entry => entry.2.rows).sections.filter
      (fun tuple => (tests query).all (· tuple)) = (qualifying relations query).map (tupleOf relations query) := by
  have hfactors : (tableScope relations query).map (fun entry => entry.2.rows) =
      (List.range query.relationIds.length).map fun b =>
        (List.range (numRows relations query b)).map (rowAt relations query b) := by
    rw [tableScope, List.map_map]
    exact List.map_congr_left fun b _ => rows_tableAt b
  rw [hfactors, Enumerate.sections_map, List.filter_map, qualifying]
  refine congrArg _ (List.filter_congr fun rows hrows => ?_)
  have hlength := length_of_crossProduct hrows
  rw [Function.comp_apply, tests, List.all_append, List.all_map, List.all_map]
  exact congrArg₂ and (all_congr_mem fun p hp => holds_predicate (h.predicates p hp) hlength)
    (all_congr_mem fun f hf => holds_filter (h.filters f hf) hlength)

theorem Translatable.eval (h : Translatable relations query) (hdb : Stores db relations) :
    Sql.eval db query.statement = some (sums relations query) := by
  have hplaces : query.statement.sums.mapM (tableScope relations query).locate =
      some (query.selections.map fun info => (info.binding, info.colId)) := by
    rw [QueryInfo.statement, List.mapM_map]
    exact mapM_eq_some fun info hinfo => locate_sqlColumn (h.selections info hinfo)
  have hsum : ∀ info ∈ query.selections, ((qualifying relations query).map (tupleOf relations query)).map
      (fun tuple => Sql.fetch tuple (info.binding, info.colId)) =
        (qualifying relations query).map fun rows => ((value relations query (rowOf rows) info).toNat : Int) := by
    intro info hinfo
    rw [List.map_map]
    refine List.map_congr_left fun rows hrows => ?_
    exact fetch_tupleOf (h.selections info hinfo) (length_of_crossProduct (List.mem_of_mem_filter hrows))
  refine Option.bind_eq_some_iff.mpr ⟨_, h.scope hdb, Option.bind_eq_some_iff.mpr ⟨_, hplaces,
    Option.bind_eq_some_iff.mpr ⟨_, h.conditions, ?_⟩⟩⟩
  dsimp only
  rw [h.tuples, List.map_map]
  refine congrArg some (List.map_congr_left fun info hinfo => ?_)
  rw [Function.comp_apply, hsum info hinfo]
  simp only [List.map_eq_nil_iff]

/-! ### The sums that the joiner outputs -/

theorem toNat_sum (values : List Value) : values.sum.toNat = (values.map BitVec.toNat).sum % 2 ^ 64 := by
  induction values with
  | nil => rfl
  | cons v values ih =>
    rw [List.sum_cons, BitVec.toNat_add, ih, List.map_cons, List.sum_cons, Nat.add_mod_mod]

theorem answer_eq_sums (relations : List Relation) (query : QueryInfo) :
    answer relations query = printSums (sums relations query) := by
  rw [answer, printSums, sums, List.map_map]
  refine congrArg (fun outputs => String.intercalate " " outputs ++ "\n") (List.map_congr_left fun info _ => ?_)
  rw [Function.comp_apply]
  split
  · rfl
  · rw [printSum, toNat_sum, List.map_map]
    have hsum : (((qualifying relations query).map fun rows =>
          (value relations query (rowOf rows) info).toNat).sum : Int) =
        ((qualifying relations query).map fun rows =>
          ((value relations query (rowOf rows) info).toNat : Int)).sum := by
      rw [Nat.cast_list_sum, List.map_map]
      rfl
    rw [← hsum]
    exact congrArg toString (Int.toNat_natCast _).symm

theorem Translatable.run (h : Translatable relations query) (hc : Complete query) (hdb : Stores db relations) :
    Sql.run db query.statement.print = some (sums relations query) :=
  Option.bind_eq_some_iff.mpr ⟨_, read_statement hc, h.eval hdb⟩

/-- The text of a query is a statement exactly if the query has something for each part of it, and the
statement has the sums of the query before they are taken modulo `2^64`. -/
theorem dumpSQL_means (h : query.Countable) : ∃ sql, Returns query.dumpSQL sql ∧
    ((∃ select, Sql.read sql = some select) ↔ Complete query) ∧
    ∀ relations db, Complete query → Translatable relations query → Stores db relations →
      ∃ results, Sql.run db sql = some results ∧ answer relations query = printSums results := by
  refine ⟨query.statement.print, dumpSQL_returns h, ⟨fun ⟨select, hread⟩ => ?_, fun hc => ⟨_, read_statement hc⟩⟩,
    fun relations db hc ht hdb => ⟨sums relations query, ht.run hc hdb, answer_eq_sums relations query⟩⟩
  by_contra hc
  rw [read_statement_incomplete hc] at hread
  cases hread

theorem countable_parallelEdges : parallelEdges.Countable := ⟨by decide, by decide, by decide, by decide⟩

theorem dumpSQL_means_parallelEdges : ∃ sql, Returns parallelEdges.dumpSQL sql ∧
    ((∃ select, Sql.read sql = some select) ↔ Complete parallelEdges) ∧
    ∀ relations db, Complete parallelEdges → Translatable relations parallelEdges → Stores db relations →
      ∃ results, Sql.run db sql = some results ∧ answer relations parallelEdges = printSums results :=
  dumpSQL_means countable_parallelEdges

/-! ### The two programs -/

theorem Linked.inRange (h : Resolved relations query) {b c : Nat} (hlinked : Linked query b c) :
    ∃ info, InRange relations query info ∧ info.binding = b := by
  obtain ⟨p, hp, ⟨hb, -⟩ | ⟨hb, -⟩⟩ := hlinked
  · exact ⟨p.left, (h.predicates p hp).1, hb⟩
  · exact ⟨p.right, (h.predicates p hp).2, hb⟩

theorem Resolved.complete (h : Resolved relations query) (hsel : query.selections ≠ []) : Complete query := by
  refine ⟨hsel, fun hnil => ?_, .inl h.joined⟩
  obtain ⟨p, hp⟩ := List.exists_mem_of_ne_nil _ h.joined
  have hresolved := (h.predicates p hp).1.resolved
  rw [hnil] at hresolved
  cases hresolved

end Query
