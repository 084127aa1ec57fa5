import Chessh.Client.Chess

/-!
# What the piece rules accept

Each loop of a piece rule is summarised once: the squares it passes over are empty.
No later proof looks inside a scan.
-/

namespace Chessh

/-- The straight rule accepts exactly clear moves along a row or a column. -/
theorem rookIsIllegal_nonneg (g : Game) (m : Move) :
    0 ≤ rookIsIllegal g m ↔
      (m.rI = m.rF ∨ m.cI = m.cF) ∧
      (∀ i, min m.rI m.rF < i → i < max m.rI m.rF → (g.get i m.cI).type = .empty) ∧
      (∀ i, min m.cI m.cF < i → i < max m.cI m.cF → (g.get m.rI i).type = .empty) := by
  unfold rookIsIllegal
  have straight : (m.rI - m.rF) * (m.cI - m.cF) = 0 ↔ m.rI = m.rF ∨ m.cI = m.cF := by
    rw [mul_eq_zero, sub_eq_zero, sub_eq_zero]
  by_cases h : (m.rI - m.rF) * (m.cI - m.cF) = 0
  · rw [if_neg (not_not.mpr h)]
    have line := straight.mp h
    by_cases rows : (between (min m.rI m.rF) (max m.rI m.rF)).any
        fun i => (g.get i m.cI).type ≠ .empty
    · rw [if_pos rows]
      obtain ⟨i, mem, full⟩ := List.any_eq_true.mp rows
      have range := mem_between.mp mem
      constructor
      · intro contra
        exact absurd contra (by decide)
      · rintro ⟨_, clear, _⟩
        simp [clear i range.1 range.2] at full
    · rw [if_neg rows]
      have clearRows : ∀ i, min m.rI m.rF < i → i < max m.rI m.rF →
          (g.get i m.cI).type = .empty := by
        intro i low high
        by_contra full
        exact rows (List.any_eq_true.mpr ⟨i, mem_between.mpr ⟨low, high⟩, by simpa using full⟩)
      by_cases cols : (between (min m.cI m.cF) (max m.cI m.cF)).any
          fun i => (g.get m.rI i).type ≠ .empty
      · rw [if_pos cols]
        obtain ⟨i, mem, full⟩ := List.any_eq_true.mp cols
        have range := mem_between.mp mem
        constructor
        · intro contra
          exact absurd contra (by decide)
        · rintro ⟨_, _, clear⟩
          simp [clear i range.1 range.2] at full
      · rw [if_neg cols]
        refine ⟨fun _ => ⟨line, clearRows, ?_⟩, fun _ => le_refl 0⟩
        intro i low high
        by_contra full
        exact cols (List.any_eq_true.mpr ⟨i, mem_between.mpr ⟨low, high⟩, by simpa using full⟩)
  · rw [if_pos h]
    exact ⟨fun contra => absurd contra (by decide), fun legal => absurd (straight.mpr legal.1) h⟩

/-- The jump rule. -/
theorem knightIsIllegal_nonneg (m : Move) :
    0 ≤ knightIsIllegal m ↔
      ((m.rF - m.rI).natAbs = 1 ∧ (m.cF - m.cI).natAbs = 2) ∨
      ((m.rF - m.rI).natAbs = 2 ∧ (m.cF - m.cI).natAbs = 1) := by
  unfold knightIsIllegal
  dsimp only
  split
  · rename_i jump
    exact ⟨fun _ => by omega, fun _ => le_refl 0⟩
  · rename_i jump
    exact ⟨fun contra => absurd contra (by decide), fun h => absurd (by omega) jump⟩

/-- The diagonal walk accepts exactly when every square before the final row is empty. -/
theorem bishopScan_nonneg (g : Game) (rF cr cc : Int) (step : cr = 1 ∨ cr = -1) :
    ∀ (turns : Nat) (r c : Int), rF = r + turns * cr →
      ∀ extra, 0 ≤ bishopScan g rF cr cc (turns + extra) r c ↔
        ∀ k : Int, 0 ≤ k → k < turns → (g.get (r + k * cr) (c + k * cc)).type = .empty := by
  intro turns
  induction turns with
  | zero =>
    intro r c final extra
    have here : r = rF := by simpa using final.symm
    refine ⟨fun _ k low high => by omega, fun _ => ?_⟩
    cases extra with
    | zero => exact le_refl 0
    | succ extra =>
      rw [Nat.zero_add, bishopScan, if_pos here]
  | succ turns ih =>
    intro r c final extra
    have away : r ≠ rF := by
      rcases step with rfl | rfl <;> push_cast at final <;> omega
    have rest : rF = (r + cr) + turns * cr := by
      rw [final]
      push_cast
      ring
    rw [Nat.add_right_comm, bishopScan, if_neg away]
    split
    · rename_i full
      refine ⟨fun contra => absurd contra (by decide), fun clear => absurd ?_ full⟩
      simpa using clear 0 le_rfl (by omega)
    · rename_i clear
      rw [ih _ _ rest extra]
      have shift : ∀ k : Int, g.get (r + cr + k * cr) (c + cc + k * cc) =
          g.get (r + (k + 1) * cr) (c + (k + 1) * cc) := by
        intro k
        congr 1 <;> ring
      constructor
      · intro tail k low high
        by_cases first : k = 0
        · subst first
          simpa using clear
        · have next := tail (k - 1) (by omega) (by omega)
          rw [shift] at next
          simpa using next
      · intro all k low high
        rw [shift]
        exact all (k + 1) (by omega) (by push_cast; omega)

/-- The diagonal rule accepts exactly clear moves along a diagonal. -/
theorem bishopIsIllegal_nonneg (g : Game) (m : Move) (moved : m.rI ≠ m.rF ∨ m.cI ≠ m.cF) :
    0 ≤ bishopIsIllegal g m ↔
      (m.rF - m.rI).natAbs = (m.cF - m.cI).natAbs ∧
      ∀ k : Int, 0 < k → k < (m.rF - m.rI).natAbs →
        (g.get (m.rI + k * (if m.rF - m.rI < 0 then -1 else 1))
          (m.cI + k * (if m.cF - m.cI < 0 then -1 else 1))).type = .empty := by
  unfold bishopIsIllegal
  dsimp only
  by_cases diagonal : (m.rF - m.rI).natAbs = (m.cF - m.cI).natAbs
  · rw [if_neg (not_not.mpr diagonal)]
    generalize hr : (if m.rF - m.rI < 0 then (-1 : Int) else 1) = cr
    generalize hc : (if m.cF - m.cI < 0 then (-1 : Int) else 1) = cc
    have step : cr = 1 ∨ cr = -1 := by
      rw [← hr]
      split <;> simp
    obtain ⟨n, hn⟩ : ∃ n, (m.rF - m.rI).natAbs = n + 1 :=
      ⟨(m.rF - m.rI).natAbs - 1, by omega⟩
    have final : m.rF = m.rI + cr + n * cr := by
      rw [← hr]
      split <;> omega
    rw [hn, bishopScan_nonneg g m.rF cr cc step n _ _ final 1]
    constructor
    · intro clear
      refine ⟨by omega, fun k low high => ?_⟩
      have here := clear (k - 1) (by omega) (by omega)
      rwa [show m.rI + cr + (k - 1) * cr = m.rI + k * cr by ring,
        show m.cI + cc + (k - 1) * cc = m.cI + k * cc by ring] at here
    · rintro ⟨_, clear⟩ k low high
      have here := clear (k + 1) (by omega) (by omega)
      rwa [show m.rI + (k + 1) * cr = m.rI + cr + k * cr by ring,
        show m.cI + (k + 1) * cc = m.cI + cc + k * cc by ring] at here
  · rw [if_pos diagonal]
    exact ⟨fun contra => absurd contra (by decide), fun h => absurd h.1 diagonal⟩

/-- The queen's rule is the straight rule or the diagonal rule. -/
theorem queenIsIllegal_nonneg (g : Game) (m : Move) (moved : m.rI ≠ m.rF ∨ m.cI ≠ m.cF) :
    0 ≤ queenIsIllegal g m ↔ 0 ≤ rookIsIllegal g m ∨ 0 ≤ bishopIsIllegal g m := by
  unfold queenIsIllegal
  dsimp only
  by_cases straight : (m.rF - m.rI).natAbs * (m.cF - m.cI).natAbs = 0
  · rw [if_pos straight]
    have line : m.rF - m.rI = 0 ∨ m.cF - m.cI = 0 := by
      simpa only [Nat.mul_eq_zero, Int.natAbs_eq_zero] using straight
    refine ⟨Or.inl, fun either => either.resolve_right fun diagonal => ?_⟩
    have slope := ((bishopIsIllegal_nonneg g m moved).mp diagonal).1
    omega
  · rw [if_neg straight]
    have bent : ¬ (m.rI = m.rF ∨ m.cI = m.cF) := by
      rintro (same | same) <;> exact straight (by simp [same])
    have noRook : ¬ 0 ≤ rookIsIllegal g m :=
      fun accepted => bent ((rookIsIllegal_nonneg g m).mp accepted).1
    split
    · exact ⟨Or.inr, fun either => either.resolve_left noRook⟩
    · rename_i slope
      refine ⟨fun contra => absurd contra (by decide), fun either => ?_⟩
      exact absurd ((bishopIsIllegal_nonneg g m moved).mp (either.resolve_left noRook)).1 slope

/-! ## Return codes -/

/-- The straight rule returns zero or `ILLEGAL_MOVE`. -/
theorem rookIsIllegal_code (g : Game) (m : Move) :
    rookIsIllegal g m = 0 ∨ rookIsIllegal g m = illegalMove := by
  unfold rookIsIllegal
  split
  · exact Or.inr rfl
  split
  · exact Or.inr rfl
  split
  · exact Or.inr rfl
  · exact Or.inl rfl

/-- The jump rule returns zero or `ILLEGAL_MOVE`. -/
theorem knightIsIllegal_code (m : Move) :
    knightIsIllegal m = 0 ∨ knightIsIllegal m = illegalMove := by
  unfold knightIsIllegal
  dsimp only
  split
  · exact Or.inl rfl
  · exact Or.inr rfl

/-- The diagonal walk returns zero or `ILLEGAL_MOVE`. -/
theorem bishopScan_code (g : Game) (rF cr cc : Int) : ∀ (turns : Nat) (r c : Int),
    bishopScan g rF cr cc turns r c = 0 ∨ bishopScan g rF cr cc turns r c = illegalMove := by
  intro turns
  induction turns with
  | zero => exact fun r c => Or.inl rfl
  | succ turns ih =>
    intro r c
    rw [bishopScan]
    split
    · exact Or.inl rfl
    split
    · exact Or.inr rfl
    · exact ih _ _

/-- The diagonal rule returns zero or `ILLEGAL_MOVE`. -/
theorem bishopIsIllegal_code (g : Game) (m : Move) :
    bishopIsIllegal g m = 0 ∨ bishopIsIllegal g m = illegalMove := by
  unfold bishopIsIllegal
  dsimp only
  split
  · exact Or.inr rfl
  · exact bishopScan_code _ _ _ _ _ _ _

/-- The queen's rule returns zero or `ILLEGAL_MOVE`. -/
theorem queenIsIllegal_code (g : Game) (m : Move) :
    queenIsIllegal g m = 0 ∨ queenIsIllegal g m = illegalMove := by
  unfold queenIsIllegal
  dsimp only
  split
  · exact rookIsIllegal_code g m
  split
  · exact bishopIsIllegal_code g m
  · exact Or.inr rfl

/-- The castling search stops after some number of empty squares; with turns to spare it
stops at an occupied square or past the board. -/
theorem castleScan_stops (g : Game) (r cc : Int) :
    ∀ (turns : Nat) (c : Int), ∃ k : Nat, k ≤ turns ∧ castleScan g r cc turns c = c + k * cc ∧
      (∀ i : Nat, i < k → (g.get r (c + i * cc)).type = .empty) ∧
      (k < turns → ¬ (0 ≤ c + k * cc ∧ c + k * cc ≤ 8 ∧ (g.get r (c + k * cc)).type = .empty)) := by
  intro turns
  induction turns with
  | zero =>
    intro c
    exact ⟨0, le_refl 0, by simp [castleScan], by omega, by omega⟩
  | succ turns ih =>
    intro c
    rw [castleScan]
    split
    · rename_i here
      obtain ⟨k, bound, stop, passed, last⟩ := ih (c + cc)
      have shift : ∀ i : Nat, c + cc + i * cc = c + (i + 1 : Nat) * cc := by
        intro i
        push_cast
        ring
      refine ⟨k + 1, by omega, by rw [stop, shift], ?_, ?_⟩
      · intro i lt
        cases i with
        | zero => simpa using here.2.2
        | succ i =>
          rw [← shift]
          exact passed i (by omega)
      · intro lt
        rw [← shift]
        exact last (by omega)
    · rename_i here
      exact ⟨0, by omega, by simp, by omega, fun _ => by simpa using here⟩

end Chessh
