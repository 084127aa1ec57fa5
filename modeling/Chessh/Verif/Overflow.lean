import Chessh.Client.FenAccess
import Chessh.Verif.Accept

/-!
# Numbers that overflow

A text may hold numbers of any length, and `init_game` goes on with whatever `parse_int` makes of
one that does not fit an `int`. Which texts it may then let through does not depend on the range of
the numbers: `timed_iff` for the clocks and `mayAccept_iff` for whole texts. Where nothing
overflows, `initGameCode` is what `initGame` returns.
-/

namespace Chessh

open Rules (Side Wing ClocksValid numeral sideLetter clocksText)

/-! ## `parse_int` -/

/-- The number that the loop returns is an `int`. -/
theorem digitLoop_le {ret n : Nat} {s rest : List Char} (fits : ret ≤ intMax)
    (read : digitLoop ret s = some (n, rest)) : n ≤ intMax := by
  induction s generalizing ret with
  | nil =>
    cases read
    exact fits
  | cons ch s ih =>
    rw [digitLoop] at read
    split at read
    · split at read
      · cases read
      · rename_i small
        exact ih (by omega) read
    · cases read
      exact fits

namespace Overflow

/-- A sum that would overflow stays at the largest `int`. -/
def saturated : Overflow where
  number s := (digitLoop 0 s).elim (intMax : Int) fun result => result.1
  range s := by
    cases read : digitLoop 0 s with
    | none =>
      rw [Option.elim_none]
      omega
    | some result =>
      have fits := digitLoop_le (Nat.zero_le _) read
      rw [Option.elim_some]
      omega
  exact s n rest read := by rw [read, Option.elim_some]

variable {digits rest s : List Char}

/-- The digits are read up to their end, and their number is returned if it fits. -/
theorem parseInt_digits (o : Overflow) (all : ∀ ch ∈ digits, ch.isDigit = true)
    (some_digit : digits ≠ []) (ends : rest.head?.all (!·.isDigit) = true) :
    (o.parseInt (digits ++ rest)).2 = rest ∧
      (numeral digits ≤ intMax → (o.parseInt (digits ++ rest)).1 = numeral digits) := by
  have stop : rest.dropWhile Char.isDigit = rest := by
    cases rest with
    | nil => rfl
    | cons ch rest => exact List.dropWhile_cons_of_neg (by simpa using ends)
  rw [parseInt, if_pos (head_digits rest all some_digit)]
  refine ⟨(List.dropWhile_append_of_pos all).trans stop, fun fits => ?_⟩
  have read := digitLoop_digits all ends (Nat.zero_le intMax)
  rw [← numeral, if_neg (by omega)] at read
  exact o.exact _ _ _ read

/-- A text starts with all of its digits. -/
theorem parseInt_cases (o : Overflow) (s : List Char) :
    o.parseInt s = (-1, s) ∨
      ∃ digits rest, s = digits ++ rest ∧ digits ≠ [] ∧ (∀ ch ∈ digits, ch.isDigit = true) ∧
        rest.head?.all (!·.isDigit) = true := by
  rcases Chessh.parseInt_cases s with absent | ⟨digits, rest, same, some_digit, all, ends, -⟩
  · left
    rw [parseInt, if_neg]
    intro first
    rw [Chessh.parseInt, if_pos first] at absent
    obtain ⟨result, -, negative⟩ := Option.map_eq_some_iff.mp absent
    have : (result.1 : Int) = -1 := congrArg Prod.fst negative
    omega
  · exact Or.inr ⟨digits, rest, same, some_digit, all, ends⟩

/-- What is not minus one was read from digits. -/
theorem parseInt_present (o : Overflow) (present : (o.parseInt s).1 ≠ -1) :
    ∃ digits rest, s = digits ++ rest ∧ (digits ≠ [] ∧ ∀ ch ∈ digits, ch.isDigit = true) ∧
      rest.head?.all (!·.isDigit) = true ∧ (o.parseInt s).2 = rest := by
  rcases o.parseInt_cases s with absent | ⟨digits, rest, rfl, some_digit, all, ends⟩
  · rw [absent] at present
    exact absurd rfl present
  · exact ⟨digits, rest, rfl, ⟨some_digit, all⟩, ends, (o.parseInt_digits all some_digit ends).1⟩

/-- What is positive was read from digits that are not all zeros. -/
theorem parseInt_positive (o : Overflow) (positive : ¬ (o.parseInt s).1 - 1 < 0) :
    ∃ digits rest, s = digits ++ rest ∧ (digits ≠ [] ∧ ∀ ch ∈ digits, ch.isDigit = true) ∧
      1 ≤ numeral digits ∧ rest.head?.all (!·.isDigit) = true ∧ (o.parseInt s).2 = rest := by
  have present : (o.parseInt s).1 ≠ -1 := by omega
  obtain ⟨digits, rest, rfl, ⟨some_digit, all⟩, ends, behind⟩ := o.parseInt_present present
  refine ⟨digits, rest, rfl, ⟨some_digit, all⟩, ?_, ends, behind⟩
  by_contra zero
  rw [(o.parseInt_digits all some_digit ends).2 (by omega)] at positive
  omega

/-- Without an overflow it is the number that is parsed. -/
theorem parseInt_eq (o : Overflow) {result : Int × List Char}
    (read : Chessh.parseInt s = some result) :
    o.parseInt s = result := by
  rcases Chessh.parseInt_cases s with absent | ⟨digits, rest, rfl, some_digit, all, ends, number⟩
  · rw [absent] at read
    cases read
    rcases o.parseInt_cases s with same | ⟨digits, rest, rfl, some_digit, all, ends⟩
    · exact same
    · have parsed := Chessh.parseInt_digits all some_digit ends
      rw [absent] at parsed
      split at parsed
      · cases parsed
      · have : (-1 : Int) = numeral digits := congrArg Prod.fst (Option.some.inj parsed)
        omega
  · rw [number] at read
    split at read
    · cases read
    · rename_i fits
      cases read
      obtain ⟨behind, value⟩ := o.parseInt_digits all some_digit ends
      exact Prod.ext (value (not_lt.mp fits)) behind

/-- With sums that stay at the largest `int`, a number is zero only if its digits are. -/
theorem saturated_digits (all : ∀ ch ∈ digits, ch.isDigit = true) (some_digit : digits ≠ [])
    (ends : rest.head?.all (!·.isDigit) = true) :
    (saturated.parseInt (digits ++ rest)).1 = min (numeral digits) intMax := by
  have read := digitLoop_digits all ends (Nat.zero_le intMax)
  by_cases fits : numeral digits ≤ intMax
  · rw [(saturated.parseInt_digits all some_digit ends).2 fits]
    omega
  · rw [← numeral, if_pos (by omega)] at read
    rw [parseInt, if_pos (head_digits rest all some_digit)]
    simp only [saturated, read, Option.elim_none]
    omega

end Overflow

/-! ## The clocks -/

/-- The text goes on with a move number, whatever comes behind it. -/
def Counted (text : List Char) : Prop :=
  ∃ full junk, text = ' ' :: (full ++ junk) ∧ (full ≠ [] ∧ ∀ ch ∈ full, ch.isDigit = true) ∧
    1 ≤ numeral full ∧ junk.head?.all (!·.isDigit) = true

/-- There are no clocks, or they are numbers, whatever comes behind them. -/
def Timed (text : List Char) : Prop :=
  text = [] ∨ ∃ half more, text = ' ' :: (half ++ more) ∧
    (half ≠ [] ∧ ∀ ch ∈ half, ch.isDigit = true) ∧ Counted more

namespace Overflow

/-- The call gets past the move number. -/
def CountedBy (o : Overflow) (text : List Char) : Prop :=
  ∃ rest, text = ' ' :: rest ∧ ¬ (o.parseInt rest).1 - 1 < 0

/-- The call gets past the clocks. -/
def TimedBy (o : Overflow) (text : List Char) : Prop :=
  text = [] ∨ ∃ rest, text = ' ' :: rest ∧ (o.parseInt rest).1 ≠ -1 ∧
    o.CountedBy (o.parseInt rest).2

variable {o : Overflow} {text : List Char}

/-- It gets past nothing but a number that is not zero. -/
theorem CountedBy.counted (past : o.CountedBy text) : Counted text := by
  obtain ⟨rest, rfl, positive⟩ := past
  obtain ⟨full, junk, rfl, number, counted, ends, -⟩ := o.parseInt_positive positive
  exact ⟨full, junk, rfl, number, counted, ends⟩

/-- It gets past nothing but numbers. -/
theorem TimedBy.timed (past : o.TimedBy text) : Timed text := by
  rcases past with absent | ⟨rest, rfl, present, counted⟩
  · exact Or.inl absent
  · obtain ⟨half, more, rfl, number, -, behind⟩ := o.parseInt_present present
    rw [behind] at counted
    exact Or.inr ⟨half, more, rfl, number, counted.counted⟩

end Overflow

/-- Some overflow gets past every number that is not zero. -/
theorem Counted.saturated {text : List Char} (counted : Counted text) :
    Overflow.saturated.CountedBy text := by
  obtain ⟨full, junk, rfl, ⟨some_digit, all⟩, positive, ends⟩ := counted
  refine ⟨_, rfl, ?_⟩
  have wide : 1 ≤ intMax := by decide
  rw [Overflow.saturated_digits all some_digit ends]
  omega

/-- What comes behind a number is no digit. -/
theorem Counted.ends {text : List Char} (counted : Counted text) :
    text.head?.all (!·.isDigit) = true := by
  obtain ⟨full, junk, rfl, -⟩ := counted
  rfl

/-- The clocks that an overflow gets past are numbers of any length. -/
theorem timed_iff {text : List Char} : Timed text ↔ ∃ o : Overflow, o.TimedBy text := by
  refine ⟨fun timed => ⟨.saturated, ?_⟩, fun ⟨o, past⟩ => past.timed⟩
  rcases timed with absent | ⟨half, more, rfl, ⟨some_digit, all⟩, counted⟩
  · exact Or.inl absent
  refine Or.inr ⟨_, rfl, ?_, ?_⟩
  · rw [Overflow.saturated_digits all some_digit counted.ends]
    omega
  · rw [(Overflow.saturated.parseInt_digits all some_digit counted.ends).1]
    exact counted.saturated

/-! ## The code -/

section Code

variable {o : Overflow} {g after : Game} {r c code : Int} {text : List Char}

/-- Past the move number everything depends on the end of the text. -/
theorem loadFullCode_eq_zero :
    loadFullCode o text = 0 ↔ ∃ rest, text = ' ' :: rest ∧ ¬ (o.parseInt rest).1 - 1 < 0 ∧
      (o.parseInt rest).2 = [] := by
  unfold loadFullCode
  split
  · rename_i rest
    simp only [List.cons.injEq, true_and, exists_eq_left']
    split
    · simp_all
    · split <;> simp_all
  · simp_all

/-- Clocks are let through by some overflow, whatever their length. -/
theorem loadClockCode_saturated {clocks : Option (List Char × List Char)}
    (valid : ClocksValid clocks) : loadClockCode .saturated (clocksText clocks) = 0 := by
  cases clocks with
  | none => rfl
  | some numbers =>
    obtain ⟨⟨someHalf, allHalf⟩, ⟨someFull, allFull⟩, counted⟩ := valid numbers.1 numbers.2 rfl
    have wide : 1 ≤ intMax := by decide
    have blank : (' ' :: numbers.2).head?.all (!·.isDigit) = true := rfl
    have ended : ([] : List Char).head?.all (!·.isDigit) = true := rfl
    have half := Overflow.saturated.parseInt_digits allHalf someHalf blank
    have full := Overflow.saturated.parseInt_digits allFull someFull ended
    have value := Overflow.saturated_digits allHalf someHalf blank
    have value' := Overflow.saturated_digits allFull someFull ended
    rw [List.append_nil] at full value'
    rw [clocksText, loadClockCode, if_neg (by omega), half.1, loadFullCode_eq_zero]
    exact ⟨_, rfl, by omega, full.1⟩

/-- Nothing else is let through. -/
theorem loadClockCode_zero (read : loadClockCode o text = 0) :
    ∃ clocks, text = clocksText clocks ∧ ClocksValid clocks := by
  unfold loadClockCode at read
  split at read
  · exact ⟨none, rfl, nofun⟩
  · rename_i rest
    split at read
    · cases read
    rename_i present
    obtain ⟨rest', behind, positive, ended⟩ := loadFullCode_eq_zero.mp read
    obtain ⟨half, more, rfl, halfDigits, -, halfBehind⟩ := o.parseInt_present present
    obtain ⟨full, junk, rfl, fullDigits, counted, -, fullBehind⟩ := o.parseInt_positive positive
    obtain rfl : junk = [] := fullBehind.symm.trans ended
    obtain rfl : more = ' ' :: (full ++ []) := halfBehind.symm.trans behind
    refine ⟨some (half, full), by rw [List.append_nil]; rfl, fun a b pair => ?_⟩
    cases pair
    exact ⟨halfDigits, fullDigits, counted⟩
  · cases read

/-- Behind the half-move clock the code is that of `init_game` where nothing overflows. -/
theorem loadFull_code (returns : loadFull g r c text = some (code, after)) :
    loadFullCode o text = code := by
  unfold loadFull at returns
  split at returns
  · rename_i rest
    obtain ⟨full, read, returns⟩ := Option.bind_eq_some_iff.mp returns
    rw [loadFullCode, o.parseInt_eq read]
    split at returns
    · rename_i uncounted
      cases returns
      exact if_pos uncounted
    · rename_i counted
      split at returns
      · cases returns
      · rw [if_neg counted]
        exact congrArg Prod.fst (Option.some.inj returns)
  · rename_i other
    cases returns
    unfold loadFullCode
    split
    · exact absurd rfl (other _)
    · rfl

/-- So it is behind the en passant square. -/
theorem loadClock_code (returns : loadClock g r c text = some (code, after)) :
    loadClockCode o text = code := by
  unfold loadClock at returns
  split at returns
  · exact congrArg Prod.fst (Option.some.inj returns)
  · rename_i rest
    obtain ⟨clock, read, returns⟩ := Option.bind_eq_some_iff.mp returns
    rw [loadClockCode, o.parseInt_eq read]
    split at returns
    · rename_i absent
      cases returns
      exact if_pos absent
    · rename_i present
      rw [if_neg present]
      exact loadFull_code returns
  · rename_i some_text other
    cases returns
    unfold loadClockCode
    split
    · exact absurd rfl some_text
    · exact absurd rfl (other _)
    · rfl

/-- A character that is no hyphen should be a column. -/
theorem loadPassingCode_cons {ch : Char} {rest : List Char} (hyphen : ch ≠ '-') :
    loadPassingCode o (ch :: rest) =
      match passingColumn ch, rest with
      | none, _ => some (-1)
      | some _, [] => none
      | some _, _ :: rest => some (loadClockCode o rest) := by
  conv_lhs => unfold loadPassingCode
  split
  · rename_i empty
    cases empty
  · rename_i same
    exact absurd (List.head_eq_of_cons_eq same) hyphen
  · rename_i same
    cases same
    rfl

/-- So it is behind the rights to castle. -/
theorem loadPassing_code (returns : loadPassing g r text = some (code, after)) :
    loadPassingCode o text = some code := by
  unfold loadPassing at returns
  split at returns
  · cases returns
    rfl
  · rw [loadPassingCode, loadClock_code returns]
  · rename_i ch rest hyphen
    rw [loadPassingCode_cons fun same => hyphen same]
    cases column : passingColumn ch with
    | none =>
      rw [column] at returns
      cases returns
      rfl
    | some file =>
      rw [column] at returns
      cases rest with
      | nil => cases returns
      | cons rank rest => exact congrArg some (loadClock_code returns)

/-- So it is behind the side to move. -/
theorem loadRest_code (returns : loadRest g r text = some (code, after)) :
    loadRestCode o g text = some code := by
  unfold loadRest at returns
  split at returns
  · rename_i rest
    rw [loadRestCode]
    split at returns
    · rename_i granted
      cases returns
      rw [granted]
      rfl
    · rename_i granted
      rw [granted]
      exact loadPassing_code returns
  · rename_i other
    cases returns
    unfold loadRestCode
    split
    · exact absurd rfl (other _)
    · rfl

/-- Where nothing overflows and nothing is read behind the end, the code is that of `init_game`. -/
theorem initGame_code (o : Overflow) (returns : initGame g text = some (code, after)) :
    initGameCode o g text = some code := by
  unfold initGame at returns
  unfold initGameCode
  cases board : loadBoard text g 0 0 with
  | mk loaded stop =>
    rw [board] at returns
    cases stop with
    | none =>
      cases returns
      rfl
    | some stop =>
      obtain ⟨rest, r, c⟩ := stop
      dsimp only at returns ⊢
      split at returns
      · rename_i short
        cases returns
        exact if_pos short
      · rename_i reached
        rw [if_neg reached]
        split at returns
        · exact loadRest_code returns
        · exact loadRest_code returns
        · rename_i white black
          cases returns
          simp only

end Code

/-! ## The whole text -/

/-- `init_game` may return 0 on the text: it does so for some number that an overflow leaves, or the
text is read behind its end. -/
def MayAccept (g : Game) (text : List Char) : Prop :=
  ∃ o : Overflow, ∀ code, initGameCode o g text = some code → code = 0

/-- The text ends behind the column of the en passant square. -/
def CutShort (g : Game) (text : List Char) : Prop :=
  ∃ (f : Front) (s : Int × Int) (file : Char), f.text [file] = text ∧ f.Reads g s ∧
    passingColumn file ≠ none

section Whole

variable {o : Overflow} {g : Game} {text : List Char}

/-- Behind the rights to castle the en passant square and the clocks are left. -/
theorem initGameCode_front {f : Front} {s : Int × Int} (reads : f.Reads g s) (rest : List Char) :
    initGameCode o g (f.text rest) = loadPassingCode o rest := by
  have board := loadBoard_walk reads.blank
    (sideLetter f.side :: ' ' :: (f.castling ++ ' ' :: rest)) g (0, 0)
  have granted := reads.granted rest
  have reached : ¬ (s.1 < 7 ∨ s.2 < 7) := by
    have := reads.row
    have := reads.column
    omega
  rw [reads.walked] at board
  have text : f.text rest = f.placement ++ ' ' :: sideLetter f.side :: ' ' ::
      (f.castling ++ ' ' :: rest) := rfl
  unfold initGameCode
  rw [text, board]
  simp only [Option.map_some, reached, ↓reduceIte]
  cases side : f.side with
  | white =>
    rw [side] at granted
    exact (congrArg (fun read => Option.elim read.2 _ (loadPassingCode o)) granted)
  | black =>
    rw [side] at granted
    exact (congrArg (fun read => Option.elim read.2 _ (loadPassingCode o)) granted)

/-- The en passant field is read as its square. -/
theorem loadPassingCode_read {r : Int} {passing : List Char} {x : Int × Int}
    (named : passSquare r passing = some x) (rest : List Char) :
    loadPassingCode o (passing ++ rest) = some (loadClockCode o rest) := by
  rcases passSquare_cases named with rfl | ⟨file, rank, c, rfl, column, -⟩
  · rfl
  · rw [List.cons_append, List.cons_append, List.nil_append,
      loadPassingCode_cons (passingColumn_ne column), column]

/-- A text is let through behind the rights to castle by an en passant field and clocks, or it is
cut short. -/
theorem loadPassingCode_zero (r : Int) {rest : List Char}
    (read : ∀ code, loadPassingCode o rest = some code → code = 0) :
    (∃ passing clocks x, rest = passing ++ clocksText clocks ∧ passSquare r passing = some x ∧
      ClocksValid clocks) ∨ ∃ file, rest = [file] ∧ passingColumn file ≠ none := by
  cases rest with
  | nil => exact absurd (read (-1) rfl) (by decide)
  | cons ch rest =>
    by_cases hyphen : ch = '-'
    · subst hyphen
      obtain ⟨clocks, rfl, valid⟩ := loadClockCode_zero (read _ rfl)
      exact Or.inl ⟨['-'], clocks, _, rfl, rfl, valid⟩
    rw [loadPassingCode_cons hyphen] at read
    cases column : passingColumn ch with
    | none =>
      rw [column] at read
      exact absurd (read (-1) rfl) (by decide)
    | some c =>
      rw [column] at read
      cases rest with
      | nil => exact Or.inr ⟨ch, rfl, by rw [column]; exact Option.some_ne_none c⟩
      | cons rank rest =>
        obtain ⟨clocks, rfl, valid⟩ := loadClockCode_zero (read _ rfl)
        have named : passSquare r [ch, rank] =
            some (if rank = '2' then 3 else if rank = '5' then 4 else r, c) := by
          unfold passSquare
          split
          · rename_i same
            exact absurd (List.head_eq_of_cons_eq same) hyphen
          · rename_i same
            cases same
            rw [column]
            rfl
          · rename_i pair
            exact absurd rfl (pair ch rank)
        exact Or.inl ⟨[ch, rank], clocks, _, rfl, named, valid⟩

/-- A text that is cut short is read behind its end. -/
theorem CutShort.code (cut : CutShort g text) (o : Overflow) : initGameCode o g text = none := by
  obtain ⟨f, s, file, rfl, reads, column⟩ := cut
  obtain ⟨c, column⟩ := Option.ne_none_iff_exists'.mp column
  rw [initGameCode_front reads, loadPassingCode_cons (passingColumn_ne column), column]

/-- The texts that `init_game` may accept are those that pass its checks with numbers of any length,
and those that are cut short. -/
theorem mayAccept_iff :
    MayAccept g text ↔ (∃ q s x, Scan.text q = text ∧ q.Reads g s x) ∨ CutShort g text := by
  constructor
  · rintro ⟨o, zero⟩
    by_cases front : ∃ (f : Front) (s : Int × Int) (rest : List Char),
        text = f.text rest ∧ f.Reads g s
    · obtain ⟨f, s, rest, rfl, reads⟩ := front
      rw [initGameCode_front reads] at zero
      rcases loadPassingCode_zero s.1 zero with
        ⟨passing, clocks, x, rfl, named, valid⟩ | ⟨file, rfl, column⟩
      · exact Or.inl ⟨⟨f, passing, clocks⟩, s, x, rfl, reads, named, valid⟩
      · exact Or.inr ⟨f, s, file, rfl, reads, column⟩
    · have refused : ∃ after, initGame g text = some (-1, after) :=
        initGame_refused fun f s rest same reads => front ⟨f, s, rest, same, reads⟩
      obtain ⟨after, refused⟩ := refused
      exact absurd (zero (-1) (initGame_code o refused)) (by decide)
  · rintro (⟨q, s, x, rfl, reads⟩ | cut)
    · refine ⟨.saturated, fun code returns => ?_⟩
      rw [Scan.text, initGameCode_front reads.front, loadPassingCode_read reads.passing,
        loadClockCode_saturated reads.clocks] at returns
      exact (Option.some.inj returns).symm
    · exact ⟨.saturated, fun code returns => by rw [cut.code] at returns; cases returns⟩

end Whole

end Chessh
