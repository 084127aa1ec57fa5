import Chessh.Client.Runner
import Chessh.Verif.Step

/-!
# The text of a move survives the pipe

A move of the board, with a promotion that `parse_move` knows, is printed as four or five
characters, and reading them back gives the move. So what one client has tried is what the
other one tries.
-/

namespace Chessh

/-- The moves whose text can be read back. -/
structure Sendable (m : Move) : Prop where
  /-- The initial square is on the board. -/
  onS : OnBoard m.rI m.cI
  /-- The final square is on the board. -/
  onT : OnBoard m.rF m.cF
  /-- The promotion has a letter. -/
  promotion : m.promotion = .empty ∨ m.promotion.isPromotion = true

/-- The letter of a column is read back. -/
theorem column_read : ∀ k : Fin 8, toChar ((k : Int) + ofChar 'a') ≠ nul ∧
    ofChar (toChar ((k : Int) + ofChar 'a')).toLower - ofChar 'a' = k := by
  decide

/-- The digit of a row is read back. -/
theorem row_read : ∀ k : Fin 8, toChar (8 - (k : Int) + ofChar '0') ≠ nul ∧
    8 - (ofChar (toChar (8 - (k : Int) + ofChar '0')) - ofChar '0') = k := by
  decide

/-- The letter of a promotion is a character of a text. -/
theorem pieceToChar_ne_nul {t : PieceType} (promotes : t.isPromotion = true) :
    pieceToChar t ≠ nul := by
  cases t with
  | rook | knight | bishop | queen => decide
  | king | pawn | empty | other raw => exact Bool.noConfusion promotes

/-- Three bits are an index. -/
theorem three_bits (x : UInt8) : (x &&& 7).toNat < 8 := by
  rw [UInt8.toNat_and]
  exact Nat.and_lt_two_pow (n := 3) _ (by decide)

/-- The API makes only moves whose text can be read back. -/
theorem apiGetMove_sendable (c₁ c₂ : UInt8) : Sendable (apiGetMove c₁ c₂) := by
  have bits := three_bits
  refine ⟨⟨⟨by simp [apiGetMove], ?_⟩, by simp [apiGetMove], ?_⟩,
    ⟨⟨by simp [apiGetMove], ?_⟩, by simp [apiGetMove], ?_⟩, ?_⟩
  · exact Int.ofNat_lt.mpr (bits _)
  · exact Int.ofNat_lt.mpr (bits _)
  · exact Int.ofNat_lt.mpr (bits _)
  · exact Int.ofNat_lt.mpr (bits _)
  · show (if c₁ &&& 2 ≠ 0 then ofBits (c₂ &&& 3) else .empty) = PieceType.empty ∨
      (if c₁ &&& 2 ≠ 0 then ofBits (c₂ &&& 3) else .empty).isPromotion = true
    split
    · right
      unfold ofBits
      split <;> rfl
    · exact Or.inl rfl

section Sendable

variable {m : Move} (sendable : Sendable m)

include sendable

/-- The characters of a move. -/
theorem Sendable.text : ∃ a b c d, (a ≠ nul ∧ b ≠ nul ∧ c ≠ nul ∧ d ≠ nul) ∧
    moveToString m = [a, b, c, d] ++
      (if m.promotion = .empty then [] else [pieceToChar m.promotion]) ∧
    (ofChar a.toLower - ofChar 'a' = m.cI ∧ 8 - (ofChar b - ofChar '0') = m.rI) ∧
    ofChar c.toLower - ofChar 'a' = m.cF ∧ 8 - (ofChar d - ofChar '0') = m.rF := by
  obtain ⟨i, j, row, column⟩ := sendable.onS.exists_fin
  obtain ⟨x, y, row', column'⟩ := sendable.onT.exists_fin
  refine ⟨_, _, _, _, ⟨(column_read j).1, (row_read i).1, (column_read y).1, (row_read x).1⟩, ?_,
    ⟨(column_read j).2.trans column.symm, (row_read i).2.trans row.symm⟩,
    (column_read y).2.trans column'.symm, (row_read x).2.trans row'.symm⟩
  have letter : m.promotion ≠ .empty → pieceToChar m.promotion ≠ nul :=
    fun named => pieceToChar_ne_nul (sendable.promotion.resolve_left named)
  unfold moveToString cString
  rw [row, column, row', column']
  simp only [List.cons_append, List.nil_append]
  rw [List.takeWhile_cons_of_pos (by simpa using (column_read j).1),
    List.takeWhile_cons_of_pos (by simpa using (row_read i).1),
    List.takeWhile_cons_of_pos (by simpa using (column_read y).1),
    List.takeWhile_cons_of_pos (by simpa using (row_read x).1)]
  split
  · rw [List.takeWhile_cons_of_neg (by simp)]
  · rename_i named
    rw [List.takeWhile_cons_of_pos (by simpa using letter named),
      List.takeWhile_cons_of_neg (by simp)]

/-- Reading the text of a move gives the move. -/
theorem Sendable.parseMove_text : parseMove (moveToString m) = some m := by
  obtain ⟨a, b, c, d, -, text, ⟨cI, rI⟩, cF, rF⟩ := sendable.text
  rw [text, List.cons_append, List.cons_append, List.cons_append, List.cons_append,
    List.nil_append, parseMove]
  simp only [cI, rI, cF, rF]
  obtain ⟨_, _, _, _, promotion⟩ := m
  have known := sendable.promotion
  revert known
  cases promotion <;> simp [PieceType.isPromotion, pieceToChar]

/-- The text of a move and its terminating character fill at least five and at most six bytes,
and the only NUL is the last. -/
theorem Sendable.message : 5 ≤ (moveToString m ++ [nul]).length ∧
    (moveToString m ++ [nul]).length ≤ 6 ∧
    cString (moveToString m ++ [nul]) = moveToString m := by
  obtain ⟨a, b, c, d, ⟨ha, hb, hc, hd⟩, text, -⟩ := sendable.text
  have letter : m.promotion ≠ .empty → pieceToChar m.promotion ≠ nul :=
    fun named => pieceToChar_ne_nul (sendable.promotion.resolve_left named)
  rw [text]
  split
  · simp [cString, ha, hb, hc, hd]
  · rename_i named
    simp [cString, ha, hb, hc, hd, letter named]

end Sendable

end Chessh
