import Chessh.Verif.Ranks

/-!
# Which texts are accepted

`init_game` accepts the texts of a `Scan`, field by field, when their numbers fit an `int`:
`accepts_iff`. Against Forsyth-Edwards Notation it takes liberties, which `Scan.Strict` rules
out.
-/

namespace Chessh

open Rules (Side Kind Man Square Wing Placement Fen IsFen ClocksValid manOf numeral sideLetter
  rightLetter rightsText clocksText rankSquares ranksText)

/-! ## En passant square and clocks -/

/-- The square whose last move `init_game` sets for the en passant field, when the board field
has led to the row. -/
def passSquare (r : Int) : List Char → Option (Int × Int)
  | ['-'] => some (-1, -1)
  | [file, rank] =>
    (passingColumn file).map fun c => (if rank = '2' then 3 else if rank = '5' then 4 else r, c)
  | _ => none

/-- The numbers of the clocks fit an `int`, and so does the number of turns. -/
def Fits (clocks : Option (List Char × List Char)) : Prop :=
  ∀ half full, clocks = some (half, full) →
    numeral half ≤ intMax ∧ 2 * (numeral full - 1) ≤ intMax

/-- The code and the game behind the clocks. -/
def clocked (g : Game) (x : Int × Int) : Option (List Char × List Char) → Int × Game
  | none => setClock { g with lastBigMove := 0 } x.1 x.2 0 []
  | some (half, full) =>
    setClock { g with lastBigMove := (numeral half : Int) * -1 } x.1 x.2
      (((numeral full : Int) - 1) * 2) []

/-- The en passant field is read as its square. -/
theorem loadPassing_read {g : Game} {r : Int} {passing : List Char} {x : Int × Int}
    (named : passSquare r passing = some x) (rest : List Char) :
    loadPassing g r (passing ++ rest) = loadClock g x.1 x.2 rest := by
  unfold passSquare at named
  split at named
  · cases named
    rfl
  · rename_i file rank
    obtain ⟨c, column, rfl⟩ := Option.map_eq_some_iff.mp named
    have hyphen : file ≠ '-' := by
      rintro rfl
      cases column
    rw [List.cons_append, List.cons_append, List.nil_append]
    unfold loadPassing
    split
    · rename_i empty
      cases empty
    · rename_i same
      exact absurd (List.head_eq_of_cons_eq same) hyphen
    · rename_i same
      cases same
      rw [column]
  · cases named

/-- What the switches over the en passant field let through. -/
theorem loadPassing_some {g after : Game} {r : Int} {text : List Char}
    (read : loadPassing g r text = some (0, after)) :
    ∃ passing rest x, text = passing ++ rest ∧ passSquare r passing = some x ∧
      loadClock g x.1 x.2 rest = some (0, after) := by
  unfold loadPassing at read
  split at read
  · cases read
  · rename_i rest
    exact ⟨['-'], rest, (-1, -1), rfl, rfl, read⟩
  · rename_i file rest hyphen
    split at read
    · cases read
    rename_i c column
    split at read
    · cases read
    rename_i rank rest
    refine ⟨[file, rank], rest, (if rank = '2' then 3 else if rank = '5' then 4 else r, c), rfl,
      ?_, read⟩
    unfold passSquare
    split
    · rename_i same
      cases same
    · rename_i same
      cases same
      rw [column]
      rfl
    · rename_i pair
      exact absurd rfl (pair file rank)

/-- Valid clocks are read when their numbers fit. -/
theorem loadClock_fits {g : Game} {x : Int × Int} {clocks : Option (List Char × List Char)}
    (valid : ClocksValid clocks) (fits : Fits clocks) :
    loadClock g x.1 x.2 (clocksText clocks) = some (clocked g x clocks) := by
  cases clocks with
  | none => rfl
  | some numbers =>
    obtain ⟨⟨someHalf, allHalf⟩, ⟨someFull, allFull⟩, counted⟩ := valid numbers.1 numbers.2 rfl
    have small := fits numbers.1 numbers.2 rfl
    rw [clocksText, loadClock_digits g x.1 x.2 allHalf someHalf allFull someFull,
      if_neg (by omega), if_neg (by omega)]
    rfl

/-- Numbers that do not fit leave no defined result. -/
theorem loadClock_overflow {g : Game} {x : Int × Int} {clocks : Option (List Char × List Char)}
    (valid : ClocksValid clocks) (large : ¬ Fits clocks) :
    loadClock g x.1 x.2 (clocksText clocks) = none := by
  cases clocks with
  | none => exact absurd (fun half full none => by cases none) large
  | some numbers =>
    obtain ⟨⟨someHalf, allHalf⟩, ⟨someFull, allFull⟩, counted⟩ := valid numbers.1 numbers.2 rfl
    rw [clocksText, loadClock_digits g x.1 x.2 allHalf someHalf allFull someFull, if_pos]
    by_contra small
    push Not at small
    refine large fun half full same => ?_
    cases same
    exact small

/-- A text starts with all of its digits. -/
theorem parseInt_cases (s : List Char) :
    parseInt s = some (-1, s) ∨
      ∃ digits rest, s = digits ++ rest ∧ digits ≠ [] ∧ (∀ ch ∈ digits, ch.isDigit = true) ∧
        rest.head?.all (!·.isDigit) = true ∧ parseInt s =
          if intMax < numeral digits then none else some ((numeral digits : Int), rest) := by
  by_cases first : s.head?.any Char.isDigit = true
  swap
  · exact Or.inl (if_neg first)
  have whole : s.takeWhile Char.isDigit ++ s.dropWhile Char.isDigit = s :=
    List.takeWhile_append_dropWhile
  have all : ∀ ch ∈ s.takeWhile Char.isDigit, ch.isDigit = true :=
    List.all_eq_true.mp List.all_takeWhile
  have some_digit : s.takeWhile Char.isDigit ≠ [] := by
    cases s with
    | nil => cases first
    | cons ch s =>
      have digit : ch.isDigit = true := first
      rw [List.takeWhile_cons_of_pos digit]
      exact List.cons_ne_nil _ _
  have ends : (s.dropWhile Char.isDigit).head?.all (!·.isDigit) = true := by
    have stop := List.head?_dropWhile_not Char.isDigit s
    cases next : (s.dropWhile Char.isDigit).head? with
    | none => rfl
    | some ch =>
      rw [next] at stop
      simpa using stop
  have read := parseInt_digits all some_digit ends
  rw [whole] at read
  exact Or.inr ⟨_, _, whole.symm, some_digit, all, ends, read⟩

/-- What the clocks let through. -/
theorem loadClock_some {g after : Game} {r c : Int} {text : List Char}
    (read : loadClock g r c text = some (0, after)) :
    ∃ clocks, text = clocksText clocks ∧ ClocksValid clocks ∧ Fits clocks := by
  unfold loadClock at read
  split at read
  · refine ⟨none, rfl, ?_, ?_⟩
    · intro half full absent
      cases absent
    · intro half full absent
      cases absent
  · rename_i text
    rcases parseInt_cases text with absent | ⟨half, more, rfl, someHalf, allHalf, -, number⟩
    · rw [absent] at read
      simp at read
    rw [number] at read
    by_cases largeHalf : intMax < numeral half
    · rw [if_pos largeHalf] at read
      cases read
    rw [if_neg largeHalf, Option.bind_some, if_neg (by simp only; omega)] at read
    unfold loadFull at read
    split at read
    · rename_i text same
      rcases parseInt_cases text with absent | ⟨full, rest, rfl, someFull, allFull, -, number'⟩
      · rw [absent] at read
        simp at read
      rw [number'] at read
      by_cases largeFull : intMax < numeral full
      · rw [if_pos largeFull] at read
        cases read
      rw [if_neg largeFull, Option.bind_some] at read
      by_cases uncounted : (numeral full : Int) - 1 < 0
      · rw [if_pos uncounted] at read
        cases read
      rw [if_neg uncounted] at read
      by_cases largeTime : (intMax : Int) < ((numeral full : Int) - 1) * 2
      · rw [if_pos largeTime] at read
        cases read
      rw [if_neg largeTime] at read
      have ended : rest = [] := by
        have code : (if rest = [] then (0 : Int) else -1) = 0 :=
          congrArg Prod.fst (Option.some.inj read)
        by_contra more
        rw [if_neg more] at code
        cases code
      subst ended
      have same : more = ' ' :: (full ++ []) := same
      rw [List.append_nil] at same
      refine ⟨some (half, full), by rw [same]; rfl, fun a b pair => ?_, fun a b pair => ?_⟩
      · cases pair
        exact ⟨⟨someHalf, allHalf⟩, ⟨someFull, allFull⟩, by omega⟩
      · cases pair
        omega
    · cases read
  · cases read

/-! ## The whole text -/

/-- The fields of a text, as far as `init_game` tells texts apart. -/
structure Scan where
  /-- The fields up to the rights to castle. -/
  front : Front
  /-- The en passant square. -/
  passing : List Char
  /-- The digits of the two clocks. -/
  clocks : Option (List Char × List Char)

namespace Scan

/-- The text of the fields. -/
def text (q : Scan) : List Char :=
  q.front.text (q.passing ++ clocksText q.clocks)

/-- What the checks of `init_game` let through, where the board field leads to `s` and the en
passant field to `x`. -/
structure Reads (g : Game) (q : Scan) (s x : Int × Int) : Prop where
  /-- The fields up to the rights to castle are let through. -/
  front : q.front.Reads g s
  /-- So is the en passant square. -/
  passing : passSquare s.1 q.passing = some x
  /-- So are the clocks. -/
  clocks : ClocksValid q.clocks

/-- The checks that `init_game` does not make. -/
structure Strict (g : Game) (q : Scan) (s : Int × Int) : Prop where
  /-- There are eight rows, and the last one is full. -/
  ended : s = (7, 8)
  /-- The king of every right is at home. -/
  kings : ∀ right ∈ q.front.rights, menAfter q.front.placement g.placement (0, 0)
    (right.1.homeRow, 4) = some ⟨right.1, .king⟩
  /-- The castling field is a hyphen exactly when there are no rights. -/
  hyphen : q.front.dash = true ↔ q.front.rights = []
  /-- The en passant square is on the third or on the sixth rank. -/
  rank : ∀ file rank, q.passing = [file, rank] → rank = '3' ∨ rank = '6'

end Scan

section Scan

variable {g : Game} {q : Scan} {s x : Int × Int}

/-- Behind the checks only the range of the numbers is left. -/
theorem initGame_scan (reads : q.Reads g s x) :
    initGame g q.text = loadClock (q.front.loaded g) x.1 x.2 (clocksText q.clocks) := by
  rw [Scan.text, initGame_front reads.front, loadPassing_read reads.passing]

/-- A text whose numbers fit is loaded. -/
theorem initGame_fits (reads : q.Reads g s x) (fits : Fits q.clocks) :
    initGame g q.text = some (clocked (q.front.loaded g) x q.clocks) := by
  rw [initGame_scan reads, loadClock_fits reads.clocks fits]

/-- A text whose numbers do not fit has no defined result. -/
theorem initGame_overflow (reads : q.Reads g s x) (large : ¬ Fits q.clocks) :
    initGame g q.text = none := by
  rw [initGame_scan reads, loadClock_overflow reads.clocks large]

/-- The clocks are no reason to refuse. -/
theorem clocked_fst (g : Game) (x : Int × Int) (clocks : Option (List Char × List Char)) :
    (clocked g x clocks).1 = 0 := by
  cases clocks <;> rfl

/-- The accepted texts are those that pass the checks with numbers that fit. -/
theorem accepts_iff {text : List Char} :
    (∃ loaded, initGame g text = some (0, loaded)) ↔
      ∃ q s x, Scan.text q = text ∧ q.Reads g s x ∧ Fits q.clocks := by
  constructor
  · rintro ⟨loaded, accepted⟩
    by_contra unread
    push Not at unread
    by_cases front : ∃ (f : Front) (s : Int × Int) (rest : List Char),
        text = f.text rest ∧ f.Reads g s
    · obtain ⟨f, s, rest, rfl, reads⟩ := front
      rw [initGame_front reads] at accepted
      obtain ⟨passing, clocksPart, x, rfl, named, clock⟩ := loadPassing_some accepted
      obtain ⟨clocks, rfl, valid, fits⟩ := loadClock_some clock
      exact unread ⟨f, passing, clocks⟩ s x rfl ⟨reads, named, valid⟩ fits
    · have refused : ∃ after, initGame g text = some (-1, after) :=
        initGame_refused fun f s rest same reads => front ⟨f, s, rest, same, reads⟩
      obtain ⟨after, refused⟩ := refused
      rw [refused] at accepted
      cases accepted
  · rintro ⟨q, s, x, rfl, reads, fits⟩
    refine ⟨(clocked (q.front.loaded g) x q.clocks).2, ?_⟩
    rw [initGame_fits reads fits]
    exact congrArg some (Prod.ext (clocked_fst _ _ _) rfl)

end Scan

/-! ## The fields are determined by the text -/

/-- A field ends with the first blank. -/
theorem field_inj {field field' rest rest' : List Char} (blank : ' ' ∉ field)
    (blank' : ' ' ∉ field')
    (same : field ++ ' ' :: rest = field' ++ ' ' :: rest') : field = field' ∧ rest = rest' := by
  induction field generalizing field' with
  | nil =>
    cases field' with
    | nil => exact ⟨rfl, List.tail_eq_of_cons_eq same⟩
    | cons ch field' =>
      have first : ' ' = ch := List.head_eq_of_cons_eq same
      exact absurd (first ▸ List.mem_cons_self) blank'
  | cons ch field ih =>
    cases field' with
    | nil =>
      have first : ch = ' ' := List.head_eq_of_cons_eq same
      exact absurd (first ▸ List.mem_cons_self) blank
    | cons ch' field' =>
      obtain ⟨rfl, rfl⟩ := ih (fun mem => blank (List.mem_cons_of_mem _ mem))
        (fun mem => blank' (List.mem_cons_of_mem _ mem)) (List.tail_eq_of_cons_eq same)
      rw [List.head_eq_of_cons_eq same]
      exact ⟨rfl, rfl⟩

/-- The letter of a right names it. -/
theorem rightLetter_inj {right other : Side × Wing} (same : rightLetter right = rightLetter other) :
    right = other := by
  obtain ⟨side, wing⟩ := right
  obtain ⟨side', wing'⟩ := other
  cases side <;> cases wing <;> cases side' <;> cases wing' <;>
    first | rfl | exact absurd same (by decide)

/-- The letter of a right is no hyphen and no blank. -/
theorem rightLetter_ne (right : Side × Wing) :
    rightLetter right ≠ '-' ∧ rightLetter right ≠ ' ' := by
  obtain ⟨side, wing⟩ := right
  cases side <;> cases wing <;> decide

/-- The castling field names the rights. -/
theorem castling_inj {rights rights' : List (Side × Wing)} {dash dash' : Bool}
    (same : rights.map rightLetter ++ (if dash then ['-'] else []) =
      rights'.map rightLetter ++ (if dash' then ['-'] else [])) :
    rights = rights' ∧ dash = dash' := by
  induction rights generalizing rights' with
  | nil =>
    cases rights' with
    | nil => cases dash <;> cases dash' <;> first | exact ⟨rfl, rfl⟩ | cases same
    | cons right rights' =>
      cases dash with
      | false => cases same
      | true => exact absurd (List.head_eq_of_cons_eq same).symm (rightLetter_ne right).1
  | cons right rights ih =>
    cases rights' with
    | nil =>
      cases dash' with
      | false => cases same
      | true => exact absurd (List.head_eq_of_cons_eq same) (rightLetter_ne right).1
    | cons right' rights' =>
      obtain ⟨rfl, rfl⟩ := ih (List.tail_eq_of_cons_eq same)
      rw [rightLetter_inj (List.head_eq_of_cons_eq same)]
      exact ⟨rfl, rfl⟩

/-- The castling field holds no blank. -/
theorem blank_castling (f : Front) : ' ' ∉ f.castling := by
  intro mem
  rcases List.mem_append.mp mem with mem | mem
  · obtain ⟨right, -, blank⟩ := List.mem_map.mp mem
    exact (rightLetter_ne right).2 blank
  · revert mem
    cases f.dash <;> decide

/-- The en passant field is a hyphen or a column with a rank. -/
theorem passSquare_cases {r : Int} {passing : List Char} {x : Int × Int}
    (named : passSquare r passing = some x) :
    passing = ['-'] ∨ ∃ file rank c, passing = [file, rank] ∧ passingColumn file = some c ∧
      x = (if rank = '2' then 3 else if rank = '5' then 4 else r, c) := by
  unfold passSquare at named
  split at named
  · exact Or.inl rfl
  · rename_i file rank
    obtain ⟨c, column, rfl⟩ := Option.map_eq_some_iff.mp named
    exact Or.inr ⟨file, rank, c, rfl, column, rfl⟩
  · cases named

/-- A hyphen is no column. -/
theorem passingColumn_ne {file : Char} {c : Int} (column : passingColumn file = some c) :
    file ≠ '-' := by
  rintro rfl
  cases column

/-- The en passant field ends where it does. -/
theorem passing_inj {r r' : Int} {passing passing' rest rest' : List Char} {x x' : Int × Int}
    (named : passSquare r passing = some x) (named' : passSquare r' passing' = some x')
    (same : passing ++ rest = passing' ++ rest') : passing = passing' ∧ rest = rest' := by
  rcases passSquare_cases named with rfl | ⟨file, rank, c, rfl, column, -⟩ <;>
    rcases passSquare_cases named' with rfl | ⟨file', rank', c', rfl, column', -⟩
  · exact ⟨rfl, List.tail_eq_of_cons_eq same⟩
  · exact absurd (List.head_eq_of_cons_eq same).symm (passingColumn_ne column')
  · exact absurd (List.head_eq_of_cons_eq same) (passingColumn_ne column)
  · exact List.append_inj same rfl

/-- Digits are no blanks. -/
theorem blank_digits {digits : List Char} (all : ∀ ch ∈ digits, ch.isDigit = true) :
    ' ' ∉ digits := by
  intro mem
  exact absurd (all ' ' mem) (by decide)

/-- The clocks are determined by their text. -/
theorem clocksText_inj {clocks clocks' : Option (List Char × List Char)}
    (valid : ClocksValid clocks) (valid' : ClocksValid clocks')
    (same : clocksText clocks = clocksText clocks') : clocks = clocks' := by
  cases clocks with
  | none =>
    cases clocks' with
    | none => rfl
    | some numbers => cases same
  | some numbers =>
    cases clocks' with
    | none => cases same
    | some numbers' =>
      have first := blank_digits (valid numbers.1 numbers.2 rfl).1.2
      have second := blank_digits (valid' numbers'.1 numbers'.2 rfl).1.2
      obtain ⟨half, full⟩ := field_inj first second (List.tail_eq_of_cons_eq same)
      exact congrArg some (Prod.ext half full)

/-- A text is read in one way. -/
theorem Scan.Reads.unique {g : Game} {q q' : Scan} {s s' x x' : Int × Int}
    (reads : q.Reads g s x) (reads' : q'.Reads g s' x') (same : q.text = q'.text) :
    q = q' ∧ s = s' ∧ x = x' := by
  obtain ⟨⟨placement, side, rights, dash⟩, passing, clocks⟩ := q
  obtain ⟨⟨placement', side', rights', dash'⟩, passing', clocks'⟩ := q'
  obtain ⟨board, behind⟩ := field_inj reads.front.blank reads'.front.blank same
  obtain rfl : placement = placement' := board
  have sides : sideLetter side = sideLetter side' := List.head_eq_of_cons_eq behind
  obtain rfl : side = side' := by
    cases side <;> cases side' <;> first | rfl | exact absurd sides (by decide)
  obtain ⟨castling, behind⟩ := field_inj (blank_castling ⟨placement, side, rights, dash⟩)
    (blank_castling ⟨placement, side, rights', dash'⟩)
    (List.tail_eq_of_cons_eq (List.tail_eq_of_cons_eq behind))
  obtain ⟨rfl, rfl⟩ := castling_inj castling
  obtain ⟨rfl, behind⟩ := passing_inj reads.passing reads'.passing behind
  obtain rfl := clocksText_inj reads.clocks reads'.clocks behind
  have walked := reads.front.walked
  have walked' := reads'.front.walked
  rw [walked] at walked'
  obtain rfl := Option.some.inj walked'
  have named := reads.passing
  rw [reads'.passing] at named
  exact ⟨rfl, rfl, (Option.some.inj named).symm⟩

end Chessh
