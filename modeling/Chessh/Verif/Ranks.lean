import Chessh.Verif.Scanner

/-!
# The rows of a position

The cursor of `init_game` reads a row as the squares it describes and puts the men of that row
on the board: `walk_ranks`, `menAfter_ranks`. A board field that leads to the last column is a
text of full rows: `walk_split`.
-/

namespace Chessh

open Rules (Side Kind Man Square Wing Placement Fen manOf numeral rankSquares ranksText)

/-! ## One row -/

/-- The value of a digit. -/
theorem numeral_digit (ch : Char) : numeral [ch] = digitValue ch := by
  rw [numeral, ofDigitChars_digit, Nat.ofDigitChars_nil, Nat.zero_mul, Nat.zero_add]

/-- What a row starts with. -/
theorem rankSquares_cons {ch : Char} {rest : List Char} {squares : List (Option Man)}
    (described : rankSquares (ch :: rest) = some squares) :
    (∃ man more, manOf ch = some man ∧ rankSquares rest = some more ∧
        squares = some man :: more) ∨
      ∃ more, manOf ch = none ∧ ch.isDigit = true ∧ rankSquares rest = some more ∧
        squares = List.replicate (digitValue ch) none ++ more := by
  rw [rankSquares] at described
  split at described
  · rename_i man letter
    obtain ⟨more, described', rfl⟩ := Option.map_eq_some_iff.mp described
    exact Or.inl ⟨man, more, letter, described', rfl⟩
  · rename_i letter
    by_cases digit : ch.isDigit = true
    · rw [if_pos digit, numeral_digit] at described
      obtain ⟨more, described', rfl⟩ := Option.map_eq_some_iff.mp described
      exact Or.inr ⟨more, letter, digit, described', rfl⟩
    · rw [if_neg digit] at described
      cases described

/-- The characters of a row are neither blanks nor strokes. -/
theorem rankSquares_chars {rank : List Char} {squares : List (Option Man)}
    (described : rankSquares rank = some squares) : ∀ ch ∈ rank, ch ≠ ' ' ∧ ch ≠ '/' := by
  induction rank generalizing squares with
  | nil => simp
  | cons ch rest ih =>
    have known : ∃ more, rankSquares rest = some more ∧
        ((manOf ch).isSome ∨ ch.isDigit = true) := by
      rcases rankSquares_cons described with ⟨_, more, letter, more', -⟩ |
        ⟨more, -, digit, more', -⟩
      · exact ⟨more, more', Or.inl (by rw [letter]; rfl)⟩
      · exact ⟨more, more', Or.inr digit⟩
    obtain ⟨more, more', sort⟩ := known
    intro other mem
    rcases List.mem_cons.mp mem with rfl | mem
    · constructor
      · rintro rfl
        revert sort
        decide
      · rintro rfl
        revert sort
        decide
    · exact ih more' other mem

/-- A row leads past the squares it describes. -/
theorem walk_rank {rank : List Char} {squares : List (Option Man)}
    (described : rankSquares rank = some squares) (rest : List Char) {r c : Int}
    (fits : c + squares.length ≤ 8) :
    walk (rank ++ rest) (r, c) = walk rest (r, c + squares.length) := by
  have other := rankSquares_chars described
  induction rank generalizing squares c with
  | nil =>
    cases described
    simp
  | cons ch rank ih =>
    rw [List.cons_append, walk, if_neg (other ch List.mem_cons_self).2]
    have other' := fun d mem => other d (List.mem_cons_of_mem ch mem)
    rcases rankSquares_cons described with
      ⟨man, more, letter, described', rfl⟩ | ⟨more, letter, digit, described', rfl⟩
    · rw [List.length_cons] at fits ⊢
      push_cast at fits ⊢
      rw [letter, if_pos Option.isSome_some, ih described' (by omega) other']
      congr 2
      ring
    · rw [List.length_append, List.length_replicate] at fits ⊢
      push_cast at fits ⊢
      have room : digitValue ch = 0 ∨ c + digitValue ch ≤ 8 := Or.inr (by omega)
      rw [letter, if_neg (by decide), if_pos ⟨digit, room⟩, ih described' (by omega) other']
      congr 2
      ring

/-- The squares of a row from the column on hold what the list says, and the others are kept. -/
def Laid (r c : Int) (squares : List (Option Man)) (board board' : Placement) : Prop :=
  ∀ t, board' t = if t.1 = r ∧ c ≤ t.2 ∧ t.2 < c + squares.length then
    squares[(t.2 - c).toNat]?.join else board t

/-- A man is laid in front. -/
theorem Laid.man {r c : Int} {man : Man} {more : List (Option Man)} {board board' : Placement}
    (laid : Laid r (c + 1) more (Function.update board (r, c) (some man)) board') :
    Laid r c (some man :: more) board board' := by
  intro t
  rw [laid, List.length_cons]
  push_cast
  by_cases here : t = (r, c)
  · subst here
    rw [if_neg (by omega), if_pos (by omega), Function.update_self]
    simp
  rw [Function.update_of_ne here]
  by_cases behind : t.1 = r ∧ c + 1 ≤ t.2 ∧ t.2 < c + 1 + more.length
  · have next : (t.2 - c).toNat = (t.2 - (c + 1)).toNat + 1 := by omega
    rw [if_pos behind, if_pos (by omega), next, List.getElem?_cons_succ]
  · have ahead : ¬ (t.1 = r ∧ t.2 = c) := fun same => here (Prod.ext same.1 same.2)
    rw [if_neg behind, if_neg (by omega)]

/-- Free squares are laid in front. -/
theorem Laid.run {r c : Int} {run : Nat} {more : List (Option Man)} {board board' : Placement}
    (laid : Laid r (c + run) more
      (fun t => if t.1 = r ∧ c ≤ t.2 ∧ t.2 < c + run then none else board t) board') :
    Laid r c (List.replicate run none ++ more) board board' := by
  intro t
  rw [laid, List.length_append, List.length_replicate]
  push_cast
  by_cases behind : t.1 = r ∧ c + run ≤ t.2 ∧ t.2 < c + run + more.length
  · have shift : (t.2 - c).toNat - run = (t.2 - (c + run)).toNat := by omega
    rw [if_pos behind, if_pos (by omega), List.getElem?_append_right
      (by rw [List.length_replicate]; omega), List.length_replicate, shift]
  rw [if_neg behind]
  by_cases free : t.1 = r ∧ c ≤ t.2 ∧ t.2 < c + run
  · have inside : (t.2 - c).toNat < run := by omega
    rw [if_pos free, if_pos (by omega), List.getElem?_append_left
      (by rw [List.length_replicate]; exact inside), List.getElem?_replicate, if_pos inside]
    rfl
  · rw [if_neg free, if_neg (by omega)]

/-- A row puts the men it describes on the board. -/
theorem menAfter_rank {rank : List Char} {squares : List (Option Man)}
    (described : rankSquares rank = some squares) (rest : List Char) (board : Placement)
    {r c : Int} :
    ∃ board', menAfter (rank ++ rest) board (r, c) = menAfter rest board' (r, c + squares.length) ∧
      ∀ t, board' t = if t.1 = r ∧ c ≤ t.2 ∧ t.2 < c + squares.length then
        squares[(t.2 - c).toNat]?.join else board t := by
  have other := rankSquares_chars described
  induction rank generalizing squares c board with
  | nil =>
    cases described
    refine ⟨board, by simp, fun t => ?_⟩
    rw [if_neg (by simp only [List.length_nil]; omega)]
  | cons ch rank ih =>
    rw [List.cons_append, menAfter, if_neg (other ch List.mem_cons_self).2]
    have other' := fun d mem => other d (List.mem_cons_of_mem ch mem)
    rcases rankSquares_cons described with
      ⟨man, more, letter, described', rfl⟩ | ⟨more, letter, digit, described', rfl⟩
    · obtain ⟨board', read, men⟩ := ih described' (Function.update board (r, c) (some man)) other'
        (c := c + 1)
      simp only [letter]
      refine ⟨board', ?_, Laid.man men⟩
      rw [read, List.length_cons]
      push_cast
      congr 2
      ring
    · obtain ⟨board', read, men⟩ := ih described' _ other' (c := c + digitValue ch)
      simp only [letter]
      refine ⟨board', ?_, Laid.run men⟩
      rw [read, List.length_append, List.length_replicate]
      push_cast
      congr 2
      ring

/-! ## The rows of a position -/

/-- More characters of the first row. -/
theorem ranksText_cons (ch : Char) (first : List Char) (ranks : List (List Char)) :
    ranksText ((ch :: first) :: ranks) = ch :: ranksText (first :: ranks) := by
  cases ranks <;> rfl

/-- A board field that ends in the last column consists of full rows. -/
theorem walk_split {text : List Char} {r c r' : Int} (walked : walk text (r, c) = some (r', 8)) :
    ∃ first ranks, text = ranksText (first :: ranks) ∧ r' = r + ranks.length ∧
      (∃ squares, rankSquares first = some squares ∧ c + squares.length = 8) ∧
      ∀ rank ∈ ranks, ∃ squares, rankSquares rank = some squares ∧ squares.length = 8 := by
  induction text generalizing r c with
  | nil =>
    cases walked
    exact ⟨[], [], rfl, by simp, ⟨[], rfl, by simp⟩, by simp⟩
  | cons ch text ih =>
    rw [walk] at walked
    by_cases stroke : ch = '/'
    · rw [if_pos stroke] at walked
      by_cases full : c = 8
      · rw [if_pos full] at walked
        obtain ⟨first, ranks, rfl, row, ⟨squares, described, length⟩, all⟩ := ih walked
        refine ⟨[], first :: ranks, by rw [stroke]; rfl, ?_, ⟨[], rfl, by simpa using full⟩, ?_⟩
        · rw [row, List.length_cons]
          push_cast
          ring
        · intro rank mem
          rcases List.mem_cons.mp mem with rfl | mem
          · exact ⟨squares, described, by omega⟩
          · exact all rank mem
      · rw [if_neg full] at walked
        cases walked
    rw [if_neg stroke] at walked
    cases letter : manOf ch with
    | some man =>
      rw [letter, if_pos Option.isSome_some] at walked
      obtain ⟨first, ranks, rfl, row, ⟨squares, described, length⟩, all⟩ := ih walked
      refine ⟨ch :: first, ranks, (ranksText_cons _ _ _).symm, row, ⟨some man :: squares, ?_, ?_⟩,
        all⟩
      · rw [rankSquares, letter, described]
        rfl
      · rw [List.length_cons]
        push_cast
        omega
    | none =>
      rw [letter, if_neg (by decide)] at walked
      by_cases digit : ch.isDigit = true ∧ (digitValue ch = 0 ∨ c + digitValue ch ≤ 8)
      · rw [if_pos digit] at walked
        obtain ⟨first, ranks, rfl, row, ⟨squares, described, length⟩, all⟩ := ih walked
        refine ⟨ch :: first, ranks, (ranksText_cons _ _ _).symm, row,
          ⟨List.replicate (digitValue ch) none ++ squares, ?_, ?_⟩, all⟩
        · rw [rankSquares, letter]
          simp only
          rw [if_pos digit.1, described, numeral_digit]
          rfl
        · rw [List.length_append, List.length_replicate]
          push_cast
          omega
      · rw [if_neg digit] at walked
        cases walked

/-- The rows are read down to the last one. -/
theorem walk_ranks {first : List Char} {ranks : List (List Char)}
    (all : ∀ rank ∈ first :: ranks, ∃ squares, rankSquares rank = some squares ∧ squares.length = 8)
    (r : Int) : walk (ranksText (first :: ranks)) (r, 0) = some (r + ranks.length, 8) := by
  induction ranks generalizing first r with
  | nil =>
    obtain ⟨squares, described, length⟩ := all first List.mem_cons_self
    have read := @walk_rank first squares described [] r 0 (by omega)
    rw [List.append_nil, length] at read
    rw [ranksText, read]
    simp [walk]
  | cons next ranks ih =>
    obtain ⟨squares, described, length⟩ := all first List.mem_cons_self
    have read :=
      @walk_rank first squares described ('/' :: ranksText (next :: ranks)) r 0 (by omega)
    rw [length] at read
    rw [ranksText, read, walk, if_pos rfl, if_pos (by norm_num),
      ih fun rank mem => all rank (List.mem_cons_of_mem _ mem)]
    rw [List.length_cons]
    push_cast
    congr 2
    ring

/-- A row that has been read holds the men of the position. -/
theorem rankMen {f : Fen} {before ranks : List (List Char)} {first : List Char}
    (parts : f.ranks = before ++ first :: ranks) {squares : List (Option Man)}
    (described : rankSquares first = some squares) (length : squares.length = 8)
    {board board' : Placement}
    (filled : ∀ t : Square, OnBoard t.1 t.2 → t.1 < before.length → board t = f.board t)
    (men : ∀ t : Square, board' t =
      if t.1 = before.length ∧ 0 ≤ t.2 ∧ t.2 < 0 + (squares.length : Int) then
        squares[(t.2 - 0).toNat]?.join else board t)
    {t : Square} (on : OnBoard t.1 t.2) (upTo : t.1 ≤ before.length) : board' t = f.board t := by
  have columns := on.2
  rw [men, length]
  by_cases here : t.1 = before.length
  · have listed : f.ranks[t.1.toNat]? = some first := by
      rw [parts, here, Int.toNat_natCast, List.getElem?_append_right le_rfl, Nat.sub_self]
      rfl
    rw [if_pos (by omega), Fen.board, if_neg (by omega), listed, Option.bind_some, described,
      Option.bind_some, sub_zero]
  · rw [if_neg fun h => here h.1]
    exact filled t on (by omega)

/-- Reading the rows puts the men of the position on the board. -/
theorem menAfter_ranks {f : Fen} {before ranks : List (List Char)} {first : List Char}
    (parts : f.ranks = before ++ first :: ranks)
    (all : ∀ rank ∈ first :: ranks, ∃ squares, rankSquares rank = some squares ∧ squares.length = 8)
    {board : Placement}
    (filled : ∀ t : Square, OnBoard t.1 t.2 → t.1 < before.length → board t = f.board t)
    {t : Square} (on : OnBoard t.1 t.2) (inside : t.1 < f.ranks.length) :
    menAfter (ranksText (first :: ranks)) board (before.length, 0) t = f.board t := by
  induction ranks generalizing before first board with
  | nil =>
    obtain ⟨squares, described, length⟩ := all first List.mem_cons_self
    obtain ⟨board', read, men⟩ := @menAfter_rank first squares described [] board before.length 0
    rw [List.append_nil] at read
    rw [ranksText, read, menAfter]
    exact (rankMen parts described length filled men on (by
      rw [parts, List.length_append, List.length_singleton] at inside
      push_cast at inside
      omega))
  | cons next ranks ih =>
    obtain ⟨squares, described, length⟩ := all first List.mem_cons_self
    obtain ⟨board', read, men⟩ := @menAfter_rank first squares described
      ('/' :: ranksText (next :: ranks)) board before.length 0
    have parts' : f.ranks = (before ++ [first]) ++ next :: ranks := by
      rw [parts, List.append_assoc, List.singleton_append]
    have filled' : ∀ t : Square, OnBoard t.1 t.2 → t.1 < (before ++ [first]).length →
        board' t = f.board t := by
      intro t on behind
      rw [List.length_append, List.length_singleton] at behind
      push_cast at behind
      exact rankMen parts described length filled men on (by omega)
    have next := ih parts' (fun rank mem => all rank (List.mem_cons_of_mem _ mem)) filled'
    rw [List.length_append, List.length_singleton] at next
    push_cast at next
    rw [ranksText, read, menAfter, if_pos rfl]
    exact next

/-- Eight full rows put the men of the position on the board. -/
theorem menAfter_board {f : Fen} (eight : f.ranks.length = 8)
    (all : ∀ rank ∈ f.ranks, ∃ squares, rankSquares rank = some squares ∧ squares.length = 8)
    (board : Placement) {t : Square} (on : OnBoard t.1 t.2) :
    menAfter (ranksText f.ranks) board (0, 0) t = f.board t := by
  obtain ⟨first, ranks, parts⟩ := List.exists_cons_of_length_eq_add_one eight
  have rows := on.1
  rw [parts] at all ⊢
  refine @menAfter_ranks f [] ranks first parts all board
    (fun other on' before => ?_) t on (by omega)
  have rows' := on'.1
  rw [List.length_nil] at before
  omega

end Chessh
