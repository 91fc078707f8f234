/-
This file develops the formatted output and input of numbers and words over plain text.
-/

import Mathlib.Tactic

namespace Fideslib.TextStreams

/-- This is the shortest decimal form of an integer. -/
def decimal : Int → List Char
  | .ofNat n => Nat.toDigits 10 n
  | .negSucc n => '-' :: Nat.toDigits 10 (n + 1)

/-- A scanner that failed once reads nothing more. -/
structure Scanner where
  rest : List Char
  failed : Bool
deriving DecidableEq, Repr

/-- White space is a blank or one of the five control characters between tab and return. -/
def isSpace (c : Char) : Bool := c = ' ' || (9 ≤ c.toNat && c.toNat ≤ 13)

/-- A line ends at the first line feed or with the text, and an empty text has no line. -/
def getline : List Char → Option (List Char × List Char)
  | [] => none
  | text => some (text.takeWhile (· ≠ '\n'), (text.dropWhile (· ≠ '\n')).drop 1)

namespace Scanner

def skipSpace (s : Scanner) : Scanner := { s with rest := s.rest.dropWhile isSpace }

/-- The sign is optional, and the digits go on until another character. -/
def digits (text : List Char) : Bool × List Char × List Char :=
  let negative := text.head? = some '-'
  let body := if text.head? = some '-' ∨ text.head? = some '+' then text.drop 1 else text
  (negative, body.takeWhile Char.isDigit, body.dropWhile Char.isDigit)

/-- A read keeps the old value when nothing is left, and it stores zero without digits and the
closest bound when the number does not fit. -/
def readInt (low high : Int) (old : Int) (s : Scanner) : Int × Scanner :=
  if s.failed then (old, s)
  else
    let text := s.skipSpace.rest
    if text = [] then (old, ⟨[], true⟩)
    else
      let (negative, read, rest) := digits text
      let magnitude : Int := Nat.ofDigitChars 10 read 0
      let value := if negative then -magnitude else magnitude
      if read = [] then (0, ⟨rest, true⟩)
      else if value < low then (low, ⟨rest, true⟩)
      else if high < value then (high, ⟨rest, true⟩)
      else (value, ⟨rest, false⟩)

/-- An unsigned read takes the modulus for a bound and wraps a negative number around. -/
def readNat (modulus : Nat) (old : Nat) (s : Scanner) : Nat × Scanner :=
  if s.failed then (old, s)
  else
    let text := s.skipSpace.rest
    if text = [] then (old, ⟨[], true⟩)
    else
      let (negative, read, rest) := digits text
      let magnitude := Nat.ofDigitChars 10 read 0
      if read = [] then (0, ⟨rest, true⟩)
      else if modulus ≤ magnitude then (modulus - 1, ⟨rest, true⟩)
      else (if negative then (modulus - magnitude) % modulus else magnitude, ⟨rest, false⟩)

/-- A word goes on until the next white space. -/
def readWord (s : Scanner) : Scanner :=
  if s.failed then s
  else
    let text := s.skipSpace.rest
    ⟨text.dropWhile fun c => !isSpace c, text = []⟩

def readChar (s : Scanner) : Scanner :=
  if s.failed then s
  else
    let text := s.skipSpace.rest
    ⟨text.drop 1, text = []⟩

/-- This reads numbers until a read fails. Each number takes a character, so the length of the
text bounds their number. -/
def readWhile {A : Type} (read : Scanner → A × Scanner) : Nat → Scanner → List A
  | 0, _ => []
  | fuel + 1, s =>
      let (value, next) := read s
      if next.failed then [] else value :: readWhile read fuel next

end Scanner

theorem isDigit_of_mem {n : Nat} {c : Char} (listed : c ∈ Nat.toDigits 10 n) : c.isDigit :=
  Nat.isDigit_of_mem_toDigits (by decide) (by decide) listed

theorem isSpace_of_isDigit {c : Char} (digit : c.isDigit) : isSpace c = false := by
  obtain ⟨low, high⟩ := Char.isDigit_iff_toNat.mp digit
  change 48 ≤ c.toNat at low
  have blank : c ≠ ' ' := by
    rintro rfl
    exact absurd digit (by decide)
  have control : ¬c.toNat ≤ 13 := by omega
  simp only [isSpace, blank, control, decide_false, Bool.and_false, Bool.or_false]

/-- The first character of a number is a digit or the sign. -/
theorem decimal_cons (value : Int) :
    ∃ c cs, decimal value = c :: cs ∧ (c.isDigit ∨ c = '-') := by
  cases value with
  | ofNat n =>
      cases digits : Nat.toDigits 10 n with
      | nil => exact absurd digits Nat.toDigits_ne_nil
      | cons c cs =>
          refine ⟨c, cs, digits, .inl ?_⟩
          exact isDigit_of_mem (by rw [digits]; exact List.mem_cons_self)
  | negSucc n => exact ⟨'-', _, rfl, .inr rfl⟩

/-- The digits of a number end where another character follows. -/
theorem span_digits (n : Nat) {rest : List Char}
    (ends : ∀ c, rest.head? = some c → c.isDigit = false) :
    (Nat.toDigits 10 n ++ rest).takeWhile Char.isDigit = Nat.toDigits 10 n ∧
      (Nat.toDigits 10 n ++ rest).dropWhile Char.isDigit = rest := by
  have every : ∀ c ∈ Nat.toDigits 10 n, c.isDigit := fun c listed => isDigit_of_mem listed
  have stop : rest.takeWhile Char.isDigit = [] ∧ rest.dropWhile Char.isDigit = rest := by
    cases rest with
    | nil => exact ⟨rfl, rfl⟩
    | cons c cs =>
        have other : c.isDigit = false := ends c rfl
        simp only [List.takeWhile_cons, List.dropWhile_cons, other, Bool.false_eq_true, if_false,
          and_self]
  rw [List.takeWhile_append_of_pos every, List.dropWhile_append_of_pos every, stop.1, stop.2,
    List.append_nil]
  exact ⟨rfl, rfl⟩

/-- A written number is read as its sign and its digits. -/
theorem digits_decimal (value : Int) {rest : List Char}
    (ends : ∀ c, rest.head? = some c → c.isDigit = false) :
    Scanner.digits (decimal value ++ rest) =
      (decide (value < 0), Nat.toDigits 10 value.natAbs, rest) := by
  cases value with
  | ofNat n =>
      obtain ⟨c, cs, digits, first⟩ := decimal_cons (.ofNat n)
      have digit : c.isDigit := by
        apply isDigit_of_mem
        rw [show Nat.toDigits 10 n = c :: cs from digits]
        exact List.mem_cons_self
      have minus : c ≠ '-' := by
        rintro rfl
        exact absurd digit (by decide)
      have plus : c ≠ '+' := by
        rintro rfl
        exact absurd digit (by decide)
      have head : (decimal (.ofNat n) ++ rest).head? = some c := by
        rw [digits]
        rfl
      have notNegative : ¬(Int.ofNat n < 0) := by
        rw [Int.ofNat_eq_natCast]
        omega
      have body := span_digits n ends
      simp only [Scanner.digits, head, Option.some.injEq, minus, plus, or_self, if_false,
        notNegative, decide_false]
      rw [show decimal (.ofNat n) = Nat.toDigits 10 n from rfl, body.1, body.2]
      rfl
  | negSucc n =>
      have body := span_digits (n + 1) ends
      have negative : Int.negSucc n < 0 := Int.negSucc_lt_zero n
      simp only [Scanner.digits, decimal, List.cons_append, List.head?_cons, true_or, if_true,
        List.drop_succ_cons, List.drop_zero, body.1, body.2, decide_true, negative,
        Int.natAbs_negSucc, Nat.succ_eq_add_one]

/-- White space before a number is skipped. -/
theorem skipSpace_decimal (spaces : List Char) (blank : ∀ c ∈ spaces, isSpace c) (value : Int)
    (rest : List Char) :
    (spaces ++ (decimal value ++ rest)).dropWhile isSpace = decimal value ++ rest := by
  obtain ⟨c, cs, digits, first⟩ := decimal_cons value
  have visible : isSpace c = false := by
    rcases first with digit | rfl
    · exact isSpace_of_isDigit digit
    · decide
  rw [List.dropWhile_append_of_pos blank, digits, List.cons_append, List.dropWhile_cons, visible]
  rfl

theorem decimal_append_ne (value : Int) (rest : List Char) : decimal value ++ rest ≠ [] := by
  obtain ⟨c, cs, digits, _⟩ := decimal_cons value
  rw [digits]
  exact List.cons_ne_nil _ _

/-- A number that fits is read back. -/
theorem readInt_decimal {low high value : Int} (above : low ≤ value) (below : value ≤ high)
    (old : Int) {spaces rest : List Char} (blank : ∀ c ∈ spaces, isSpace c)
    (ends : ∀ c, rest.head? = some c → c.isDigit = false) :
    Scanner.readInt low high old ⟨spaces ++ (decimal value ++ rest), false⟩ =
      (value, ⟨rest, false⟩) := by
  have signed : (if decide (value < 0) = true then -((value.natAbs : Nat) : Int)
      else (value.natAbs : Nat)) = value := by
    simp only [decide_eq_true_eq]
    split_ifs <;> omega
  have small : ¬value < low := by omega
  have large : ¬high < value := by omega
  simp only [Scanner.readInt, Scanner.skipSpace, skipSpace_decimal spaces blank,
    decimal_append_ne, Bool.false_eq_true, if_false, digits_decimal value ends,
    Nat.ofDigitChars_ten_toDigits, Nat.toDigits_ne_nil, signed, small, large]

theorem readNat_decimal {modulus value : Nat} (below : value < modulus) (old : Nat)
    {spaces rest : List Char} (blank : ∀ c ∈ spaces, isSpace c)
    (ends : ∀ c, rest.head? = some c → c.isDigit = false) :
    Scanner.readNat modulus old ⟨spaces ++ (decimal value ++ rest), false⟩ =
      (value, ⟨rest, false⟩) := by
  have notNegative : ¬((value : Int) < 0) := by omega
  have fits : ¬modulus ≤ value := by omega
  simp only [Scanner.readNat, Scanner.skipSpace, skipSpace_decimal spaces blank,
    decimal_append_ne, Bool.false_eq_true, if_false, digits_decimal (value : Int) ends,
    Nat.ofDigitChars_ten_toDigits, Nat.toDigits_ne_nil, notNegative, decide_false,
    Int.natAbs_natCast, fits]

/-- This is a list of numbers, each followed by a blank. -/
def numbers (values : List Int) : List Char := values.flatMap fun value => decimal value ++ [' ']

/-- A read finds the first number of such a list. -/
structure ReadsNumbers {A : Type} (read : Scanner → A × Scanner) (written : A → Int) : Prop where
  number : ∀ (value : A) (spaces rest : List Char), (∀ c ∈ spaces, isSpace c) →
    (∀ c, rest.head? = some c → c.isDigit = false) →
    read ⟨spaces ++ (decimal (written value) ++ rest), false⟩ = (value, ⟨rest, false⟩)
  brace : ∀ rest : List Char, (read ⟨' ' :: '}' :: rest, false⟩).2.failed = true

/-- The numbers up to a closing brace are all read. -/
theorem readWhile_numbers {A : Type} {read : Scanner → A × Scanner} {written : A → Int}
    (reads : ReadsNumbers read written) (values : List A) (rest : List Char) (fuel : Nat)
    (enough : values.length < fuel) :
    Scanner.readWhile read fuel
      ⟨' ' :: (numbers (values.map written) ++ '}' :: rest), false⟩ = values := by
  induction values generalizing fuel with
  | nil =>
      cases fuel with
      | zero => exact absurd enough (Nat.not_lt_zero _)
      | succ fuel =>
          change (if (read ⟨' ' :: '}' :: rest, false⟩).2.failed = true then [] else _) = []
          rw [if_pos (reads.brace rest)]
  | cons value values inductionHypothesis =>
      cases fuel with
      | zero => exact absurd enough (Nat.not_lt_zero _)
      | succ fuel =>
          have first := reads.number value [' ']
            (' ' :: (numbers (values.map written) ++ '}' :: rest))
            (by simp [isSpace]) (by simp)
          have text : ' ' :: (numbers ((value :: values).map written) ++ '}' :: rest) =
              [' '] ++ (decimal (written value) ++
                ' ' :: (numbers (values.map written) ++ '}' :: rest)) := by
            simp only [numbers, List.map_cons, List.flatMap_cons, List.append_assoc,
              List.cons_append, List.nil_append]
          rw [text]
          simp only [Scanner.readWhile, first, Bool.false_eq_true, if_false]
          rw [inductionHypothesis fuel (Nat.lt_of_succ_lt_succ enough)]

/-- A line without a line feed is read with the text after it. -/
theorem getline_append {line : List Char} (plain : '\n' ∉ line) (rest : List Char) :
    getline (line ++ '\n' :: rest) = some (line, rest) := by
  have inside : ∀ c ∈ line, (decide (c ≠ '\n')) = true := by
    intro c listed
    apply decide_eq_true
    rintro rfl
    exact plain listed
  have taken : (line ++ '\n' :: rest).takeWhile (· ≠ '\n') = line := by
    rw [List.takeWhile_append_of_pos inside, List.takeWhile_cons]
    simp
  have dropped : (line ++ '\n' :: rest).dropWhile (· ≠ '\n') = '\n' :: rest := by
    rw [List.dropWhile_append_of_pos inside, List.dropWhile_cons]
    simp
  cases line with
  | nil => rfl
  | cons c line =>
      rw [getline, taken, dropped]
      · rfl
      · exact List.cons_ne_nil _ _

/-- An unsigned read stays below the modulus. -/
theorem readNat_lt {modulus old : Nat} (below : old < modulus) (s : Scanner) :
    (Scanner.readNat modulus old s).1 < modulus := by
  have positive : 0 < modulus := Nat.zero_lt_of_lt below
  simp only [Scanner.readNat]
  split_ifs
  all_goals first
    | exact below
    | exact positive
    | exact Nat.mod_lt _ positive
    | (dsimp only; omega)

end Fideslib.TextStreams
