import Mathlib.Tactic

/-!
# Men on a board and what they attack

Chess as its rules describe it: squares are pairs of a row and a column, the rows are
counted from Black's side, and a placement says which man stands on each square. Lines of
attack are rays: a man that slides reaches a square along a direction when every square
before it is free.
-/

namespace Rules

/-- The two sides. -/
inductive Side
  | white
  | black
  deriving DecidableEq, Repr

/-- The six kinds of men. -/
inductive Kind
  | king
  | queen
  | rook
  | bishop
  | knight
  | pawn
  deriving DecidableEq, Repr

/-- A man on the board. -/
structure Man where
  /-- The side it belongs to. -/
  side : Side
  /-- What it is. -/
  kind : Kind
  deriving DecidableEq, Repr

/-- A row and a column. -/
abbrev Square := Int × Int

/-- The square lies on the board. -/
def Inside (s : Square) : Prop := (0 ≤ s.1 ∧ s.1 < 8) ∧ 0 ≤ s.2 ∧ s.2 < 8

/-- Which man stands on each square. -/
abbrev Placement := Square → Option Man

namespace Side

/-- The opponent. -/
def other : Side → Side
  | white => black
  | black => white

/-- The way the pawns of a side advance. -/
def forward : Side → Int
  | white => -1
  | black => 1

/-- The row of the officers of a side. -/
def homeRow : Side → Int
  | white => 7
  | black => 0

/-- The row the pawns of a side start from. -/
def pawnRow : Side → Int
  | white => 6
  | black => 1

/-- The row on which the pawns of a side are promoted. -/
def lastRow (side : Side) : Int := side.other.homeRow

/-- The row a pawn of the side reaches by a double step. -/
def doubleRow (side : Side) : Int := side.pawnRow + 2 * side.forward

/-- Opposition is mutual. -/
@[simp] theorem other_other (side : Side) : side.other.other = side := by
  cases side <;> rfl

/-- No side opposes itself. -/
@[simp] theorem other_ne (side : Side) : side.other ≠ side := by
  cases side <;> decide

/-- No side opposes itself. -/
@[simp] theorem ne_other (side : Side) : side ≠ side.other := by
  cases side <;> decide

/-- There are only two sides. -/
theorem eq_or_other (side a : Side) : a = side ∨ a = side.other := by
  cases side <;> cases a <;> decide

end Side

/-- The directions along rows and columns. -/
def straight : List (Int × Int) := [(1, 0), (-1, 0), (0, 1), (0, -1)]

/-- The diagonal directions. -/
def diagonal : List (Int × Int) := [(1, 1), (1, -1), (-1, 1), (-1, -1)]

/-- Some direction leads from one square to the other past free squares only. -/
def Slides (p : Placement) (directions : List (Int × Int)) (s t : Square) : Prop :=
  ∃ d ∈ directions, ∃ n : Nat, 0 < n ∧ t = (s.1 + n * d.1, s.2 + n * d.2) ∧
    ∀ k : Nat, 0 < k → k < n → p (s.1 + k * d.1, s.2 + k * d.2) = none

/-- The man, standing on one square, attacks the other. -/
def Reaches (p : Placement) (man : Man) (s t : Square) : Prop :=
  match man.kind with
  | .king => s ≠ t ∧ (t.1 - s.1).natAbs ≤ 1 ∧ (t.2 - s.2).natAbs ≤ 1
  | .queen => Slides p (straight ++ diagonal) s t
  | .rook => Slides p straight s t
  | .bishop => Slides p diagonal s t
  | .knight => ((t.1 - s.1).natAbs = 1 ∧ (t.2 - s.2).natAbs = 2) ∨
      ((t.1 - s.1).natAbs = 2 ∧ (t.2 - s.2).natAbs = 1)
  | .pawn => t.1 = s.1 + man.side.forward ∧ (t.2 - s.2).natAbs = 1

/-- Some man of the side attacks the square. -/
def Attacked (p : Placement) (side : Side) (t : Square) : Prop :=
  ∃ s kind, p s = some ⟨side, kind⟩ ∧ Reaches p ⟨side, kind⟩ s t

/-- The king of the side is attacked. -/
def InCheck (p : Placement) (side : Side) : Prop :=
  ∃ s, p s = some ⟨side, .king⟩ ∧ Attacked p side.other s

/-- Two placements leave the same squares free. -/
def SameFree (p q : Placement) : Prop := ∀ s, p s = none ↔ q s = none

/-- Sliding depends on the free squares only. -/
theorem Slides.congr {p q : Placement} (free : SameFree p q) {directions : List (Int × Int)}
    {s t : Square} : Slides p directions s t ↔ Slides q directions s t := by
  unfold Slides
  simp only [free _]

/-- Reaching depends on the free squares only. -/
theorem Reaches.congr {p q : Placement} (free : SameFree p q) {man : Man} {s t : Square} :
    Reaches p man s t ↔ Reaches q man s t := by
  unfold Reaches
  cases man.kind <;> simp only [Slides.congr free]

/-- More directions reach more squares. -/
theorem Slides.mono {p : Placement} {few many : List (Int × Int)} (sub : few ⊆ many)
    {s t : Square} (slides : Slides p few s t) : Slides p many s t := by
  obtain ⟨d, mem, rest⟩ := slides
  exact ⟨d, sub mem, rest⟩

/-- A man that slides in two ways slides in one of them. -/
theorem Slides.append_iff {p : Placement} {first second : List (Int × Int)} {s t : Square} :
    Slides p (first ++ second) s t ↔ Slides p first s t ∨ Slides p second s t := by
  constructor
  · rintro ⟨d, mem, rest⟩
    rcases List.mem_append.mp mem with mem | mem
    · exact Or.inl ⟨d, mem, rest⟩
    · exact Or.inr ⟨d, mem, rest⟩
  · rintro (slides | slides)
    · exact slides.mono (List.subset_append_left _ _)
    · exact slides.mono (List.subset_append_right _ _)

/-- A sliding man leaves its square. -/
theorem Slides.ne {p : Placement} {directions : List (Int × Int)} (zero : (0, 0) ∉ directions)
    {s t : Square} (slides : Slides p directions s t) : s ≠ t := by
  obtain ⟨⟨a, b⟩, mem, n, pos, rfl, -⟩ := slides
  intro same
  have rows : (n : Int) * a = 0 := by
    have := congrArg Prod.fst same
    dsimp only at this
    omega
  have cols : (n : Int) * b = 0 := by
    have := congrArg Prod.snd same
    dsimp only at this
    omega
  have nonzero : (n : Int) ≠ 0 := by omega
  have ha := (mul_eq_zero.mp rows).resolve_left nonzero
  have hb := (mul_eq_zero.mp cols).resolve_left nonzero
  rw [ha, hb] at mem
  exact zero mem

/-- No man attacks the square it stands on. -/
theorem Reaches.ne {p : Placement} {man : Man} {s t : Square} (reaches : Reaches p man s t) :
    s ≠ t := by
  unfold Reaches at reaches
  cases kind : man.kind <;> rw [kind] at reaches
  · exact reaches.1
  · exact Slides.ne (by decide) reaches
  · exact Slides.ne (by decide) reaches
  · exact Slides.ne (by decide) reaches
  · rintro rfl
    simp at reaches
  · rintro rfl
    simp at reaches

/-- A queen attacks whatever a pawn of the same side attacks from its square. -/
theorem Reaches.queen_of_pawn {p : Placement} {side : Side} {s t : Square}
    (reaches : Reaches p ⟨side, .pawn⟩ s t) : Reaches p ⟨side, .queen⟩ s t := by
  obtain ⟨row, column⟩ : t.1 = s.1 + side.forward ∧ (t.2 - s.2).natAbs = 1 := reaches
  refine ⟨(side.forward, t.2 - s.2), ?_, 1, Nat.one_pos, ?_, fun k low high => by omega⟩
  · have beside : t.2 - s.2 = 1 ∨ t.2 - s.2 = -1 := by omega
    rcases beside with h | h <;> rw [h] <;> cases side <;> decide
  · ext
    · simp [row]
    · simp

/-- An attack survives when the attackers stay and the free squares are the same. -/
theorem Attacked.mono {p q : Placement} {side : Side} (free : SameFree p q)
    (stay : ∀ s kind, p s = some ⟨side, kind⟩ → q s = some ⟨side, kind⟩ ∨
      (kind = .pawn ∧ q s = some ⟨side, .queen⟩)) {t : Square} (attacked : Attacked p side t) :
    Attacked q side t := by
  obtain ⟨s, kind, there, reaches⟩ := attacked
  rcases stay s kind there with still | ⟨rfl, queen⟩
  · exact ⟨s, kind, still, (Reaches.congr free).mp reaches⟩
  · exact ⟨s, .queen, queen, (Reaches.congr free).mp reaches.queen_of_pawn⟩

/-- A check survives when king and attackers stay and the free squares are the same. -/
theorem InCheck.mono {p q : Placement} {side : Side} (free : SameFree p q)
    (king : ∀ s, p s = some ⟨side, .king⟩ → q s = some ⟨side, .king⟩)
    (stay : ∀ s kind, p s = some ⟨side.other, kind⟩ → q s = some ⟨side.other, kind⟩ ∨
      (kind = .pawn ∧ q s = some ⟨side.other, .queen⟩)) (check : InCheck p side) :
    InCheck q side := by
  obtain ⟨s, there, attacked⟩ := check
  exact ⟨s, king s there, attacked.mono free stay⟩

end Rules
