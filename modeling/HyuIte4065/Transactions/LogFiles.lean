import HyuIte4065.Library.Filing
import HyuIte4065.Library.Loops
import HyuIte4065.Library.Numerals
import HyuIte4065.Library.Pieces
import HyuIte4065.Transactions.Rollback
import HyuIte4065.Transactions.Serial

/-!
# What the log files are good for

`flushLog` prints a line into the file of its transaction id: the commit id, the ids of the records,
then their values, a blank behind each number. The values of all lines, stored in the order of the
commit ids, are the records as the committed transactions left them.
-/
namespace Transactions

open Lock Loops Numerals Pieces Replay Transition

/-- The numbers of a line. `Value` is an `int64_t`, the commit id is not signed. -/
def LogLine.words (line : LogLine) : List (List Char) :=
  natText line.commitId.toNat :: (line.recordIds.map natText ++ line.afterValues.map fun value => intText value.toInt)

/-- What `flushLog` prints. -/
def LogLine.text (line : LogLine) : List Char := line.words.flatMap fun word => word ++ [' ']

/-- A file, with the `endl` behind each line. -/
def fileText (lines : List LogLine) : List Char := (lines.map LogLine.text).flatMap fun text => text ++ ['\n']

/-! ### Reading the files back -/

/-- The first half of the numbers behind the commit id are ids of records, the others are values. -/
def readLine (text : List Char) : Option LogLine :=
  match cut ' ' text with
  | [] => none
  | commitId :: words => do
    let recordIds ← (words.take (words.length / 2)).mapM readNat
    let afterValues ← (words.drop (words.length / 2)).mapM readInt
    return ⟨BitVec.ofNat 64 (← readNat commitId), recordIds, afterValues.map (BitVec.ofInt 64)⟩

def readFile (text : List Char) : Option (List LogLine) := (cut '\n' text).mapM readLine

/-- Stores the values of a line. -/
def LogLine.redo (t : Table) (line : LogLine) : Table :=
  (line.recordIds.zip line.afterValues).foldl (fun t entry => Function.update t entry.1 entry.2) t

def redoAll (lines : List LogLine) : Table :=
  (lines.mergeSort fun a b => decide (a.commitId ≤ b.commitId)).foldl LogLine.redo fun _ => 100

def recover (files : List (List Char)) : Option Table := do
  return redoAll (← files.mapM readFile).flatten

variable {s : State} {line : LogLine} {lines : List LogLine} {c : Commit} {cs : List Commit} {t : Table}
  {ids : List TransactionId}

theorem LogLine.cut_text (line : LogLine) : cut ' ' line.text = line.words := by
  refine cut_terminated fun word hword => ?_
  rcases List.mem_cons.mp hword with rfl | hword
  · exact not_mem_natText rfl _
  rcases List.mem_append.mp hword with hword | hword
  · obtain ⟨r, -, rfl⟩ := List.mem_map.mp hword
    exact not_mem_natText rfl r
  · obtain ⟨v, -, rfl⟩ := List.mem_map.mp hword
    exact not_mem_intText rfl (by decide) _

theorem readLine_text (h : line.recordIds.length = line.afterValues.length) : readLine line.text = some line := by
  obtain ⟨commitId, recordIds, afterValues⟩ := line
  have hlen : recordIds.length = afterValues.length := h
  have hhalf : (recordIds.map natText ++ afterValues.map fun value => intText value.toInt).length / 2 =
      (recordIds.map natText).length := by
    rw [List.length_append, List.length_map, List.length_map, ← hlen]
    omega
  have hvalues : (afterValues.map fun value => intText value.toInt).mapM readInt =
      some (afterValues.map BitVec.toInt) := by
    have hread := mapM_print readInt_intText (afterValues.map BitVec.toInt)
    rwa [List.map_map] at hread
  have hback : (afterValues.map BitVec.toInt).map (BitVec.ofInt 64) = afterValues := by
    rw [List.map_map]
    exact List.map_id'' (fun value => BitVec.ofInt_toInt) afterValues
  rw [readLine, LogLine.cut_text, LogLine.words]
  simp only [hhalf, List.take_left, List.drop_left, mapM_print readNat_natText, hvalues, readNat_natText,
    bind_some, hback]
  rw [BitVec.ofNat_toNat, BitVec.setWidth_eq]
  rfl

theorem LogLine.no_newline (line : LogLine) : '\n' ∉ line.text := by
  intro hmem
  obtain ⟨word, hword, hmem⟩ := List.mem_flatMap.mp hmem
  rcases List.mem_append.mp hmem with hmem | hmem
  · rcases List.mem_cons.mp hword with rfl | hword
    · exact not_mem_natText rfl _ hmem
    rcases List.mem_append.mp hword with hword | hword
    · obtain ⟨r, -, rfl⟩ := List.mem_map.mp hword
      exact not_mem_natText rfl r hmem
    · obtain ⟨v, -, rfl⟩ := List.mem_map.mp hword
      exact not_mem_intText rfl (by decide) _ hmem
  · exact absurd (List.mem_singleton.mp hmem) (by decide)

theorem readFile_fileText (h : ∀ line ∈ lines, line.recordIds.length = line.afterValues.length) :
    readFile (fileText lines) = some lines := by
  have hcut : cut '\n' (fileText lines) = lines.map LogLine.text := by
    refine cut_terminated fun text htext => ?_
    obtain ⟨line, -, rfl⟩ := List.mem_map.mp htext
    exact line.no_newline
  rw [readFile, hcut, List.mapM_map]
  refine (mapM_eq_some (g := fun line => line) fun line hline => readLine_text (h line hline)).trans ?_
  rw [List.map_id']

/-! ### Redoing the commits -/

theorem redo_line (c : Commit) (t : Table) : c.line.redo t = result t c.accesses := by
  show ((c.accesses.map (·.key)).zip (c.accesses.map (·.after))).foldl _ t = c.accesses.foldl apply t
  induction c.accesses generalizing t with
  | nil => rfl
  | cons a as ih => exact ih (apply t a)

theorem redo_lines (cs : List Commit) (t : Table) :
    (cs.map (·.line)).foldl LogLine.redo t = result t (cs.flatMap (·.accesses)) := by
  induction cs generalizing t with
  | nil => rfl
  | cons c cs ih =>
    rw [List.map_cons, List.foldl_cons, List.flatMap_cons, result_append, redo_line]
    exact ih (result t c.accesses)

/-- The lines of all files, sorted by commit id, are those of the commits in their order: the ids
are distinct. -/
theorem Ordered.sort_lines (h : Ordered s) (hlines : lines.Perm (s.committed.map (·.line))) :
    lines.mergeSort (fun a b => decide (a.commitId ≤ b.commitId)) = s.inCommitOrder.map (·.line) := by
  have hperm : (lines.mergeSort fun a b => decide (a.commitId ≤ b.commitId)).Perm
      (s.inCommitOrder.map (·.line)) :=
    (List.mergeSort_perm _ _).trans (hlines.trans ((inCommitOrder_perm s).map _).symm)
  have hsorted : (lines.mergeSort fun a b => decide (a.commitId ≤ b.commitId)).Pairwise
      fun a b => a.commitId.toNat ≤ b.commitId.toNat := by
    refine List.Pairwise.imp (fun h => BitVec.le_def.mp (of_decide_eq_true h))
      (List.pairwise_mergeSort ?_ ?_ lines)
    · intro a b c h₁ h₂
      simp only [decide_eq_true_eq, BitVec.le_def] at h₁ h₂ ⊢
      omega
    · intro a b
      simp only [Bool.or_eq_true, decide_eq_true_eq, BitVec.le_def]
      omega
  have hordered : (s.inCommitOrder.map (·.line)).Pairwise fun a b => a.commitId.toNat < b.commitId.toNat :=
    List.pairwise_map.mpr (h.sorted.imp fun hlt => hlt)
  refine List.Perm.eq_of_pairwise ?_ hsorted (hordered.imp Nat.le_of_lt) hperm
  intro a b ha hb hab hba
  obtain ⟨c, hc, rfl⟩ := List.mem_map.mp (hperm.subset ha)
  obtain ⟨d, hd, rfl⟩ := List.mem_map.mp hb
  have hid : c.commitId = d.commitId := BitVec.eq_of_toNat_eq (Nat.le_antisymm hab hba)
  have hsub := (inCommitOrder_perm s).subset
  rw [List.inj_on_of_nodup_map h.distinct (hsub hc) (hsub hd) hid]

/-- At any moment the files of all threads, read back and redone in the order of the commit ids,
give every record the value that the last committed transaction has left. -/
theorem log_recovers (maxExecution : BitVec 64) (client : Client) (s : State)
    (h : Reachable (shortRuns maxExecution client) s) (hlt : s.issued < 2 ^ 64) (hnd : ids.Nodup)
    (hids : ∀ T, (s.db.logger.logPerTxn T).fout ≠ [] → T ∈ ids) :
    ∃ t, recover (ids.map fun T => fileText (s.db.logger.logPerTxn T).fout) = some t ∧
      (∀ r, t r = s.lastCommitted r) ∧ ∀ r, (∀ T, ¬ s.HasAdded T r) → s.db.records r = t r := by
  have hinv := reachable_inv h
  have hordered := reachable_ordered h hlt
  have hread : (ids.map fun T => fileText (s.db.logger.logPerTxn T).fout).mapM readFile =
      some (ids.map fun T => (s.db.logger.logPerTxn T).fout) := by
    rw [List.mapM_map]
    refine mapM_eq_some fun T _ => readFile_fileText fun line hline => ?_
    rw [hinv.fout] at hline
    obtain ⟨c, -, rfl⟩ := List.mem_map.mp hline
    simp [Commit.line]
  have hlines : (ids.map fun T => (s.db.logger.logPerTxn T).fout).flatten.Perm (s.committed.map (·.line)) := by
    have hall : ∀ c ∈ s.committed, c.txnId ∈ ids := by
      intro c hc
      refine hids c.txnId fun hnil => ?_
      have hmem : c.line ∈ (s.db.logger.logPerTxn c.txnId).fout := by
        rw [hinv.fout]
        exact List.mem_map_of_mem (List.mem_filter.mpr ⟨hc, decide_eq_true rfl⟩)
      rw [hnil] at hmem
      cases hmem
    have hflat : (ids.map fun T => (s.db.logger.logPerTxn T).fout).flatten =
        (ids.flatMap fun T => s.committed.filter fun c => decide (c.txnId = T)).map (·.line) := by
      rw [List.map_flatMap, ← List.flatMap_def]
      exact List.flatMap_congr fun T _ => hinv.fout T
    rw [hflat]
    exact (Filing.perm_flatMap_filter Commit.txnId hnd hall).map _
  have hredo : redoAll (ids.map fun T => (s.db.logger.logPerTxn T).fout).flatten = s.committedTable := by
    rw [redoAll, hordered.sort_lines hlines, redo_lines]
    exact (fits_sorted (fun c : Commit => c.commitId.toNat) (fun c hc => (hinv.commits c hc).1)
      hordered.inversions (inCommitOrder_perm s) hordered.sorted hinv.serial).2
  refine ⟨s.committedTable, ?_, fun r => (hinv.lastCommitted r).symm, fun r hr => ?_⟩
  · rw [recover, hread, bind_some, hredo]
    rfl
  · rw [← hinv.lastCommitted]
    exact hinv.recoverable.clean r hr

theorem log_recovers_takingTurns : ∃ s, takingTurns.foldlM (advance twoThreads) (.new 2) = some s ∧
    [1, 2].map (fun T => fileText (s.db.logger.logPerTxn T).fout) =
      ["1 1 2 3 100 201 0 \n".toList, "2 1 3 2 100 101 101 \n".toList] ∧
    ∃ t, recover ([1, 2].map fun T => fileText (s.db.logger.logPerTxn T).fout) = some t ∧
      (∀ r, t r = s.lastCommitted r) ∧ ∀ r, (∀ T, ¬ s.HasAdded T r) → s.db.records r = t r := by
  have hrun : (takingTurns.foldlM (advance twoThreads) (.new 2)).map (fun s => (s.issued,
      s.committed.map (·.txnId), [1, 2].map fun T => fileText (s.db.logger.logPerTxn T).fout)) =
      some (4, [1, 2], ["1 1 2 3 100 201 0 \n".toList, "2 1 3 2 100 101 101 \n".toList]) := by decide +kernel
  obtain ⟨s, hs, he⟩ := Option.map_eq_some_iff.mp hrun
  simp only [Prod.mk.injEq] at he
  obtain ⟨hissued, hcommitted, htexts⟩ := he
  have hreach : Reachable (shortRuns 2 anyClient) s :=
    Reachable.foldlM (fun _ _ _ h => step_advance (fun _ _ _ => trivial) h) (.init rfl) hs
  refine ⟨s, hs, htexts, log_recovers 2 anyClient s hreach (by rw [hissued]; decide) (by decide) fun T hT => ?_⟩
  -- only threads that have committed have lines in their files
  rw [(reachable_inv hreach).fout] at hT
  obtain ⟨line, hline⟩ := List.exists_mem_of_ne_nil _ hT
  obtain ⟨c, hc, -⟩ := List.mem_map.mp hline
  obtain ⟨hmem, htxn⟩ := List.mem_filter.mp hc
  obtain rfl : c.txnId = T := of_decide_eq_true htxn
  rw [← hcommitted]
  exact List.mem_map_of_mem hmem

end Transactions
