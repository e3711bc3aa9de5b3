import HyuIte4065.Library.Numerals
import HyuIte4065.Library.Pieces
import Mathlib.Data.List.TakeWhile

/-!
# Reading text from the left

A reader takes what it needs from the front of a text, or fails. `Reads` says what it makes of a
piece of text in front of any rest that the piece ends before.
-/
namespace Reading

open Numerals

abbrev Reader (α : Type) := StateT (List Char) Option α

variable {α β : Type} {r : Reader α} {f : α → Reader β} {text text' rest : List Char} {a : α} {b : β}
  {ends ends' : List Char → Prop} {p : Char → Bool} {c : Char}

/-! ### Readers -/

/-- The longest piece of such characters, which must not be empty. -/
def some1 (p : Char → Bool) : Reader (List Char) := fun text =>
  if text.takeWhile p = [] then none else some (text.takeWhile p, text.dropWhile p)

def char (c : Char) : Reader Unit
  | [] => none
  | d :: text => if d = c then some ((), text) else none

def number : Reader Nat := do return Nat.ofDigitChars 10 (← some1 Char.isDigit) 0

/-- What stands behind some space. -/
def token (r : Reader α) : Reader α := fun text => r (text.dropWhile (· = ' '))

def many (r : Reader α) : Nat → Reader (List α)
  | 0, text => some ([], text)
  | n + 1, text =>
    match r text with
    | none => some ([], text)
    | some (a, rest) => (many r n rest).map fun (as, rest) => (a :: as, rest)

/-- One or more of them. No reader can succeed more often than the text has characters, if it
takes one each time. -/
def sepBy (r : Reader α) (sep : Reader Unit) : Reader (List α) := do
  let a ← r
  let as ← fun text => many (sep *> r) text.length text
  return a :: as

/-- The whole text is read, but for some space. -/
def whole (r : Reader α) (text : List Char) : Option α :=
  match r text with
  | some (a, rest) => if rest.all (· = ' ') then some a else none
  | none => none

/-! ### What they read -/

def Reads (r : Reader α) (text : List Char) (a : α) (ends : List Char → Prop) : Prop :=
  ∀ rest, ends rest → r (text ++ rest) = some (a, rest)

/-- The next character, if there is one, is none of these. -/
def Apart (p : Char → Bool) (rest : List Char) : Prop := ∀ c, rest.head? = some c → p c = false

theorem apart_cons (h : p c = false) : Apart p (c :: rest) := by
  rintro d ⟨⟩
  exact h

theorem Reads.pure (a : α) : Reads (Pure.pure a) [] a fun _ => True := fun _ _ => rfl

theorem Reads.bind (h : Reads r text a ends) (h' : Reads (f a) text' b ends')
    (hb : ∀ rest, ends' rest → ends (text' ++ rest)) : Reads (r >>= f) (text ++ text') b ends' := by
  intro rest hrest
  show (r (text ++ text' ++ rest) >>= fun x => f x.1 x.2) = some (b, rest)
  rw [List.append_assoc, h _ (hb rest hrest)]
  exact h' rest hrest

/-- The same for a text that is known to be the two pieces. -/
theorem Reads.seq {both : List Char} (h : Reads r text a ends) (h' : Reads (f a) text' b ends')
    (hb : ∀ rest, ends' rest → ends (text' ++ rest)) (hboth : both = text ++ text') : Reads (r >>= f) both b ends' :=
  hboth ▸ h.bind h' hb

theorem Reads.map (g : α → β) (h : Reads r text a ends) : Reads (g <$> r) text (g a) ends := by
  intro rest hrest
  show (r (text ++ rest) >>= fun x => some (g x.1, x.2)) = _
  rw [h rest hrest]
  rfl

/-- The last step of a reader. -/
theorem Reads.yield (h : Reads r text a ends) (g : α → β) : Reads (r >>= fun a => Pure.pure (g a)) text (g a) ends :=
  h.map g

theorem Reads.mono (h : Reads r text a ends) (hmono : ∀ rest, ends' rest → ends rest) : Reads r text a ends' :=
  fun rest hrest => h rest (hmono rest hrest)

theorem Reads.orElse {r' : Reader α} (h : Reads r text a ends) : Reads (r <|> r') text a ends := by
  intro rest hrest
  show (r (text ++ rest) <|> r' (text ++ rest)) = _
  rw [h rest hrest]
  rfl

/-- The second reader, where the first one fails. -/
theorem Reads.orElse_right {r' : Reader α} (h : Reads r' text a ends) (hfail : ∀ rest, r (text ++ rest) = none) :
    Reads (r <|> r') text a ends := by
  intro rest hrest
  show (r (text ++ rest) <|> r' (text ++ rest)) = _
  rw [hfail rest, h rest hrest]
  rfl

theorem takeWhile_apart (hall : ∀ c ∈ text, p c = true) (hrest : Apart p rest) :
    (text ++ rest).takeWhile p = text ∧ (text ++ rest).dropWhile p = rest := by
  have hend : rest.takeWhile p = [] ∧ rest.dropWhile p = rest := by
    cases rest with
    | nil => exact ⟨rfl, rfl⟩
    | cons c rest =>
      have hc : p c = false := hrest c rfl
      exact ⟨List.takeWhile_cons_of_neg (by rw [hc]; decide), List.dropWhile_cons_of_neg (by rw [hc]; decide)⟩
  rw [List.takeWhile_append_of_pos hall, List.dropWhile_append_of_pos hall, hend.1, hend.2, List.append_nil]
  exact ⟨rfl, rfl⟩

theorem reads_some1 (hall : ∀ c ∈ text, p c = true) (hne : text ≠ []) : Reads (some1 p) text text (Apart p) := by
  intro rest hrest
  obtain ⟨htake, hdrop⟩ := takeWhile_apart hall hrest
  rw [some1, htake, hdrop, if_neg hne]

theorem reads_char (c : Char) : Reads (char c) [c] () fun _ => True := fun _ _ => if_pos rfl

theorem reads_number (n : Nat) : Reads number (natText n) n (Apart Char.isDigit) := by
  have h := (reads_some1 (fun _ => isDigit_of_mem_natText) (natText_ne_nil n)).map fun digits =>
    Nat.ofDigitChars 10 digits 0
  rwa [natText, Nat.ofDigitChars_ten_toDigits] at h

theorem token_cons (h : c ≠ ' ') : token r (c :: text) = r (c :: text) := by
  rw [token, List.dropWhile_cons_of_neg (by simpa using h)]

theorem token_spaces (n : Nat) : token r (List.replicate n ' ' ++ text) = token r text := by
  rw [token, List.dropWhile_append_of_pos fun c hc => decide_eq_true (List.eq_of_mem_replicate hc)]
  rfl

theorem Reads.token (h : Reads r (c :: text) a ends) (hc : c ≠ ' ') : Reads (token r) (c :: text) a ends := by
  intro rest hrest
  rw [List.cons_append, token_cons hc]
  exact h rest hrest

theorem Reads.spaces (h : Reads (Reading.token r) text a ends) (n : Nat) :
    Reads (Reading.token r) (List.replicate n ' ' ++ text) a ends := by
  intro rest hrest
  rw [List.append_assoc, token_spaces]
  exact h rest hrest

/-! ### Where they fail -/

theorem bind_fails (h : r text = none) : (r >>= f) text = none := by
  show (r text >>= fun x => f x.1 x.2) = none
  rw [h]
  rfl

theorem Reads.bind_fails (h : Reads r text a ends) (rest : List Char) (hends : ends rest) (hfail : f a rest = none) :
    (r >>= f) (text ++ rest) = none := by
  show (r (text ++ rest) >>= fun x => f x.1 x.2) = none
  rw [h rest hends]
  exact hfail

theorem sepBy_fails {sep : Reader Unit} (h : r text = none) : sepBy r sep text = none := Reading.bind_fails h

theorem whole_fails (h : r text = none) : whole r text = none := by rw [whole, h]

/-! ### Lists -/

/-- Every piece ends before the next one, and the last one where there is no more. -/
theorem reads_many {print : α → List Char} {as : List α} {n : Nat} (hn : as.length ≤ n)
    (hread : ∀ a ∈ as, Reads r (print a) a ends) (hnext : ∀ a ∈ as, ∀ rest, ends (print a ++ rest))
    (hlast : ∀ rest, ends' rest → ends rest ∧ r rest = none) : Reads (many r n) (as.flatMap print) as ends' := by
  induction as generalizing n with
  | nil =>
    intro rest hrest
    cases n with
    | zero => rfl
    | succ n => rw [List.flatMap_nil, List.nil_append, many, (hlast rest hrest).2]
  | cons a as ih =>
    obtain ⟨n, rfl⟩ : ∃ m, n = m + 1 := ⟨n - 1, by rw [List.length_cons] at hn; omega⟩
    have has := ih (Nat.le_of_succ_le_succ hn) (fun b hb => hread b (List.mem_cons_of_mem a hb))
      fun b hb => hnext b (List.mem_cons_of_mem a hb)
    intro rest hrest
    have hend : ends (as.flatMap print ++ rest) := by
      cases as with
      | nil => exact (hlast rest hrest).1
      | cons b as =>
        rw [List.flatMap_cons, List.append_assoc]
        exact hnext b (List.mem_cons_of_mem a List.mem_cons_self) _
    rw [List.flatMap_cons, List.append_assoc, many, hread a List.mem_cons_self _ hend]
    dsimp only
    rw [has rest hrest]
    rfl

theorem length_le_flatMap {print : α → List Char} {as : List α} (h : ∀ a ∈ as, print a ≠ []) :
    as.length ≤ (as.flatMap print).length := by
  induction as with
  | nil => exact Nat.zero_le _
  | cons a as ih =>
    have hpos := List.length_pos_iff.mpr (h a List.mem_cons_self)
    have hle := ih fun b hb => h b (List.mem_cons_of_mem a hb)
    rw [List.flatMap_cons, List.length_append, List.length_cons]
    omega

/-- A list that is printed with a delimiter. The separator takes the first part of the delimiter, and
what is left of it belongs to the next element. -/
theorem reads_sepBy (d gap : List Char) {sep : Reader Unit} {print : α → List Char} {lead : List Char} {as : List α}
    {ends₀ : List Char → Prop} (hne : as ≠ []) (hd : d ≠ []) (hlead : ∀ a ∈ as, Reads r (lead ++ print a) a ends)
    (hgap : ∀ a ∈ as, Reads r (gap ++ print a) a ends) (hsep : Reads sep d () ends₀)
    (hprint : ∀ a ∈ as, ∀ rest, ends₀ (gap ++ print a ++ rest)) (hnext : ∀ rest, ends (d ++ rest))
    (hlast : ∀ rest, ends' rest → ends rest ∧ sep rest = none) :
    Reads (sepBy r sep) (lead ++ (d ++ gap).intercalate (as.map print)) as ends' := by
  obtain ⟨a, as, rfl⟩ := List.exists_cons_of_ne_nil hne
  have hitem : ∀ b ∈ as, Reads (sep *> r) (d ++ (gap ++ print b)) b ends := by
    intro b hb
    have hb' : b ∈ a :: as := List.mem_cons_of_mem a hb
    exact hsep.bind (f := fun _ => r) (hgap b hb') fun rest _ => hprint b hb' rest
  have hmany : Reads (fun text => many (sep *> r) text.length text)
      (as.flatMap fun b => d ++ (gap ++ print b)) as ends' := by
    intro rest hrest
    have hlen : as.length ≤ ((as.flatMap fun b => d ++ (gap ++ print b)) ++ rest).length := by
      have hle : as.length ≤ (as.flatMap fun b => d ++ (gap ++ print b)).length :=
        length_le_flatMap fun b _ => List.append_ne_nil_of_left_ne_nil hd _
      rw [List.length_append]
      omega
    refine reads_many hlen hitem (fun b _ rest => ?_) (fun rest hrest => ?_) rest hrest
    · rw [List.append_assoc]
      exact hnext _
    · have hfail := (hlast rest hrest).2
      exact ⟨(hlast rest hrest).1, Reading.bind_fails (f := fun _ => r) hfail⟩
  have hall : Reads (sepBy r sep) ((lead ++ print a) ++ ((as.flatMap fun b => d ++ (gap ++ print b)) ++ []))
      (a :: as) ends' := by
    refine (hlead a List.mem_cons_self).bind (hmany.bind ((Reads.pure (a :: as)).mono fun _ _ => trivial) ?_) ?_
    · exact fun rest hrest => hrest
    · intro rest hrest
      cases as with
      | nil => exact (hlast rest hrest).1
      | cons b as =>
        rw [List.append_nil, List.flatMap_cons, List.append_assoc, List.append_assoc]
        exact hnext _
  rw [List.append_nil, List.append_assoc] at hall
  rw [List.map_cons, Pieces.intercalate_eq_flatMap, List.flatMap_map]
  simpa only [List.append_assoc] using hall

theorem Reads.whole (h : Reads r text a ends) (hends : ends []) : whole r text = some a := by
  have hread := h [] hends
  rw [List.append_nil] at hread
  rw [Reading.whole, hread]
  rfl

end Reading
