import Chessh.Verif.Listing

/-!
# The board on the wire

`api_send_board` packs two squares into a byte. The owner of the right square is shifted without
being masked, so that an owner `new_game` never set spills into the half-byte of the square to its
left. `Run.board_faithful_iff` says when no half-byte is spilled over.
-/

namespace Chessh

/-! ## Half-bytes -/

/-- The half-bytes of a message, in reading order. -/
def halfBytes (sent : List UInt8) : List UInt8 := sent.flatMap fun b : UInt8 => [b >>> 4, b &&& 15]

/-- The half-byte of a square. -/
def halfByte (sent : List UInt8) (r c : Fin 8) : Nat := ((halfBytes sent).getD (8 * r + c) 0).toNat

/-- The half-byte a square stands for by itself. -/
def ownHalf (p : Piece) : Nat := (p.player.value <<< 3 ||| p.type.value) % 16

/-- What spills over from a square. -/
def spill (p : Piece) : Nat := (p.player.value <<< 3 ||| p.type.value) / 16 % 16

/-- The high half of two codes packed into a byte. -/
theorem high_half (a b : Nat) :
    (UInt8.ofNat (a <<< 4 ||| b) >>> 4).toNat = a % 16 ||| b / 16 % 16 := by
  rw [UInt8.toNat_shiftRight, UInt8.toNat_ofNat']
  refine Nat.eq_of_testBit_eq fun i => ?_
  change (((a <<< 4 ||| b) % 2 ^ 8) >>> 4).testBit i =
    ((a % 2 ^ 4) ||| (b / 2 ^ 4) % 2 ^ 4).testBit i
  simp only [Nat.testBit_shiftRight, Nat.testBit_mod_two_pow, Nat.testBit_or, Nat.testBit_shiftLeft,
    Nat.testBit_div_two_pow]
  by_cases low : i < 4
  · simp [low, Nat.add_comm 4 i, show i + 4 < 8 by omega]
  · simp [low, show ¬ 4 + i < 8 by omega]

/-- The low half of two codes packed into a byte. -/
theorem low_half (a b : Nat) : (UInt8.ofNat (a <<< 4 ||| b) &&& 15).toNat = b % 16 := by
  rw [UInt8.toNat_and, UInt8.toNat_ofNat']
  refine Nat.eq_of_testBit_eq fun i => ?_
  change (((a <<< 4 ||| b) % 2 ^ 8) &&& 15).testBit i = (b % 2 ^ 4).testBit i
  rw [show (15 : Nat) = 2 ^ 4 - 1 by rfl]
  simp only [Nat.testBit_and, Nat.testBit_mod_two_pow, Nat.testBit_or, Nat.testBit_shiftLeft,
    Nat.testBit_two_pow_sub_one]
  by_cases low : i < 4
  · simp [low, show i < 8 by omega, show ¬ 4 ≤ i by omega]
  · simp [low]

/-- The half-byte of a square on an even column holds what spills over from its right. -/
theorem halfByte_even (g : Game) (r : Fin 8) (j : Fin 4) :
    halfByte (apiSendBoard g) r ⟨2 * j, by omega⟩ =
      ownHalf (g.get r (2 * j)) ||| spill (g.get r (2 * j + 1)) := by
  unfold ownHalf spill
  rw [← high_half]
  fin_cases r <;> fin_cases j <;> rfl

/-- The half-byte of a square on an odd column is its own. -/
theorem halfByte_odd (g : Game) (r : Fin 8) (j : Fin 4) :
    halfByte (apiSendBoard g) r ⟨2 * j + 1, by omega⟩ = ownHalf (g.get r (2 * j + 1)) := by
  unfold ownHalf
  rw [← low_half (getCode g r (2 * j))]
  fin_cases r <;> fin_cases j <;> rfl

/-! ## What a piece may hold -/

/-- The fields of a piece hold enumerators, but for the owner of an empty square. -/
structure Proper (p : Piece) : Prop where
  /-- The type is an enumerator. -/
  type : p.type.value < 7
  /-- The owner of a piece is White or Black. -/
  owner : p.type ≠ .empty → p.player.value < 2

/-- The code of a square puts the owner above the type. -/
theorem code_eq {p : Piece} (proper : Proper p) :
    p.player.value <<< 3 ||| p.type.value = 8 * p.player.value + p.type.value := by
  have type := proper.type
  rw [← Nat.shiftLeft_add_eq_or_of_lt (by omega : p.type.value < 2 ^ 3), Nat.shiftLeft_eq]
  omega

/-- White and Black have the values nought and one. -/
theorem Player.Known.value {p : Player} (known : p.Known) : p.value < 2 := by
  rcases known with rfl | rfl <;> decide

/-- A piece of a promotion is an enumerator. -/
theorem PieceType.value_promotion {t : PieceType} (named : t.isPromotion = true) : t.value < 7 := by
  cases t with
  | rook | knight | bishop | queen => decide
  | king | pawn | empty | other => exact Bool.noConfusion named

/-- A new game holds proper pieces. -/
theorem newGame_proper (memory : Game) (r c : Int) : Proper ((newGame memory).get r c) := by
  by_cases on : OnBoard r c
  · obtain ⟨i, j, rfl, rfl⟩ := on.exists_fin
    have types : (newType i j).value < 7 := by revert i j; decide
    have rows : newType i j ≠ .empty → i.val < 2 ∨ 6 ≤ i.val := by revert i j; decide
    rw [newGame_get]
    refine ⟨types, fun full => ?_⟩
    dsimp only at full ⊢
    rcases rows full with low | high
    · rw [if_pos low]
      decide
    · rw [if_neg (by omega), if_pos high]
      decide
  · rw [Game.get_off on]
    exact ⟨by decide, fun _ => by decide⟩

section Kept

variable {g after : Game} {m : Move} {v : Verdict}

/-- A square that is emptied is proper. -/
theorem Proper.emptied {p : Piece} : Proper { p with type := .empty } :=
  ⟨show PieceType.empty.value < 7 by decide, fun full => absurd rfl full⟩

/-- A landed move leaves proper pieces. -/
theorem Judged.proper (home : RooksHome g) (proper : ∀ r c, Proper (g.get r c))
    (judged : Judged g m (getPlayer g) v) (ok : 0 ≤ v.code) (r c : Int) :
    Proper ((v.apply m).get r c) := by
  have landed := judged.landed home ok
  have mine := judged.mine ok
  rcases landed.square r c with ⟨rfl, rfl⟩ | ⟨a, columns, rfl⟩ | emptied | kept
  · rw [landed.target]
    refine ⟨?_, fun _ => (proper m.rI m.cI).owner mine.full⟩
    dsimp only
    unfold arrivalType
    split
    · rename_i promotes
      exact PieceType.value_promotion (judged.names ok promotes.1 promotes.2)
    · exact (proper m.rI m.cI).type
  · rw [landed.rookTarget a c columns]
    exact ⟨(proper m.rI a).type, (proper m.rI a).owner⟩
  · rw [emptied]
    exact .emptied
  · rw [kept]
    exact proper r c

/-- A scribble leaves proper pieces. -/
theorem Scribbled.proper (scribbled : Scribbled g after) (proper : ∀ r c, Proper (g.get r c))
    (r c : Int) : Proper (after.get r c) := by
  rcases scribbled.square r c with same | ⟨empty, owner, owned⟩ | ⟨pawn, -, t, named, made⟩
  · rw [same]
    exact proper r c
  · rw [owned]
    exact ⟨(proper r c).type, fun full => absurd empty full⟩
  · rw [made]
    exact ⟨PieceType.value_promotion named, fun _ => (proper r c).owner (by rw [pawn]; decide)⟩

/-- Along every run all pieces are proper. -/
theorem Run.proper {memory : Game} {calls : List (Move × Int)} (run : Run (newGame memory) calls g)
    (r c : Int) : Proper (g.get r c) := by
  induction run generalizing r c with
  | start => exact newGame_proper memory r c
  | step run returns ih =>
    have sound := run.sound (newGame_sound memory)
    rcases (returns.made sound).effect sound with
      ⟨-, scribbled⟩ | ⟨-, v, landing, judged, ok, rfl, -, -, scribbled⟩
    · exact scribbled.proper ih r c
    · exact scribbled.proper (judged.proper sound.home ih ok) r c

end Kept

/-! ## Faithful boards -/

/-- The message tells the type of every square and the owner of every piece, and no half-byte
depends on another square. -/
structure Faithful (g : Game) : Prop where
  /-- The low three bits are the type. -/
  type : ∀ r c : Fin 8, halfByte (apiSendBoard g) r c % 8 = (g.get r c).type.value
  /-- The high bit is the owner of a piece. -/
  owner : ∀ r c : Fin 8, (g.get r c).type ≠ .empty →
    halfByte (apiSendBoard g) r c / 8 = (g.get r c).player.value
  /-- The square alone determines its half-byte. -/
  alone : ∀ r c : Fin 8, halfByte (apiSendBoard g) r c = ownHalf (g.get r c)

/-- What spills over from an odd column adds no bit to the half-byte on its left. -/
def SpillFree (g : Game) : Prop :=
  ∀ (r : Fin 8) (j : Fin 4),
    ownHalf (g.get r (2 * j)) ||| spill (g.get r (2 * j + 1)) = ownHalf (g.get r (2 * j))

/-- A board of proper pieces is sent faithfully exactly when no spill adds a bit. -/
theorem faithful_iff {g : Game} (proper : ∀ r c, Proper (g.get r c)) :
    Faithful g ↔ SpillFree g := by
  constructor
  · intro faithful r j
    rw [← halfByte_even]
    exact faithful.alone r ⟨2 * j, by omega⟩
  · intro contained
    have alone : ∀ r c : Fin 8, halfByte (apiSendBoard g) r c = ownHalf (g.get r c) := by
      intro r c
      by_cases even : c.val % 2 = 0
      · have column : c = ⟨2 * (⟨c / 2, by omega⟩ : Fin 4), by dsimp only; omega⟩ := by
          ext
          dsimp only
          omega
        rw [column, halfByte_even, contained]
        rfl
      · have column : c = ⟨2 * (⟨c / 2, by omega⟩ : Fin 4) + 1, by dsimp only; omega⟩ := by
          ext
          dsimp only
          omega
        rw [column, halfByte_odd]
        rfl
    refine ⟨fun r c => ?_, fun r c full => ?_, alone⟩
    · have type := (proper r c).type
      rw [alone, ownHalf, code_eq (proper r c)]
      omega
    · have type := (proper r c).type
      have owner := (proper r c).owner full
      rw [alone, ownHalf, code_eq (proper r c)]
      omega

/-! ## Owners that are written -/

/-- Every owner is what it was, or White or Black. -/
def Signed (g after : Game) : Prop :=
  ∀ r c, (after.get r c).player = (g.get r c).player ∨ (after.get r c).player.Known

section Signed

variable {g h after : Game} {m : Move} {player : Player} {v : Verdict}

/-- Nothing is written. -/
theorem Signed.refl (g : Game) : Signed g g := fun _ _ => Or.inl rfl

/-- One writing after another. -/
theorem Signed.trans (first : Signed g h) (second : Signed h after) : Signed g after := by
  intro r c
  rcases second r c with same | known
  · rw [same]
    exact first r c
  · exact Or.inr known

/-- A claim writes the player. -/
theorem claim_signed (g : Game) (r c : Int) (known : player.Known) :
    Signed g (claim g r c player) := by
  intro x y
  rw [get_claim]
  split
  · exact Or.inr known
  · exact Or.inl rfl

/-- A change of type writes no owner. -/
theorem setType_signed (g : Game) (r c : Int) (t : PieceType) : Signed g (g.setType r c t) := by
  intro x y
  rw [Game.get_setType]
  split
  · rename_i here
    rw [here.2.1, here.2.2]
    exact Or.inl rfl
  · exact Or.inl rfl

/-- The promotion of an attacker writes no owner. -/
theorem promoteAttacker_signed (g : Game) (i j r : Int) : Signed g (promoteAttacker g i j r) := by
  unfold promoteAttacker
  split
  · exact setType_signed g i j .queen
  · exact .refl g

/-- A test for check signs with the player. -/
theorem checkProbe_signed (g : Game) (known : player.Known) : Signed g (checkProbe g player).2 := by
  unfold checkProbe
  cases findKing g player with
  | none => exact .refl g
  | some s =>
    dsimp only
    unfold probe
    cases firstAttacker g s.1 s.2 player with
    | none => exact claim_signed g s.1 s.2 known
    | some t => exact (claim_signed g s.1 s.2 known).trans (promoteAttacker_signed _ _ _ _)

/-- A legality check signs with the player. -/
theorem Judged.signed (known : player.Known) (judged : Judged g m player v) : Signed g v.game := by
  cases judged with
  | refused | officer | pawn | unpromoted => exact .refl g
  | promoted => exact setType_signed g m.rI m.cI m.promotion
  | castled => exact (claim_signed g _ _ known).trans (claim_signed _ _ _ known)
  | stopped mine kind castling stop =>
    cases stop with
    | first => exact promoteAttacker_signed g _ _ _
    | second => exact (claim_signed g _ _ known).trans (promoteAttacker_signed _ _ _ _)
    | third =>
      exact ((claim_signed g _ _ known).trans (claim_signed _ _ _ known)).trans
        (promoteAttacker_signed _ _ _ _)

/-- A landed move signs with the player, and castles with a rook of White or Black. -/
theorem Judged.landed_signed (home : RooksHome g) (judged : Judged g m player v)
    (known : player.Known) (ok : 0 ≤ v.code) : Signed g (v.apply m) := by
  have landed := judged.landed home ok
  intro r c
  rcases landed.square r c with ⟨rfl, rfl⟩ | ⟨a, columns, rfl⟩ | emptied | kept
  · rw [landed.target]
    dsimp only
    rw [(judged.mine ok).owner]
    exact Or.inr known
  · obtain ⟨cc, castling, -⟩ := judged.castling ok columns
    rw [landed.rookTarget a c columns]
    rcases (home m.rI a castling.rook castling.still).2 with ⟨-, black⟩ | ⟨-, white⟩
    · exact Or.inr (Or.inr black)
    · exact Or.inr (Or.inl white)
  · rw [emptied]
    exact Or.inl rfl
  · rw [kept]
    exact Or.inl rfl

/-- A trial signs with the player to move. -/
theorem Tried.signed {code : Int} (sound : Sound g) (tried : Tried g m code after) :
    Signed g after := by
  have known := getPlayer_known g
  cases tried with
  | refused judged | exposed judged => exact judged.signed known
  | played judged ok => exact judged.landed_signed sound.home known ok

/-- A call signs with White and Black. -/
theorem Made.signed {code : Int} (sound : Sound g) (made : Made g m code after) :
    Signed g after := by
  cases made with
  | refused tried | expired tried | offered tried | continued tried | stalemated tried =>
    exact tried.signed sound
  | mated tried =>
    have own : (getPlayer g).Known := getPlayer_known g
    have known := own.other
    exact (tried.signed sound).trans (checkProbe_signed _ known)

/-- Along every run the owners are those of the new game, or White and Black. -/
theorem Run.signed {start : Game} {calls : List (Move × Int)} (sound : Sound start)
    (run : Run start calls g) : Signed start g := by
  induction run with
  | start => exact .refl start
  | step run returns ih =>
    exact ih.trans ((returns.made (run.sound sound)).signed (run.sound sound))

end Signed

/-- The owner of a proper piece spills over by its bits above the lowest. -/
theorem spill_eq {p : Piece} (proper : Proper p) : spill p = p.player.value / 2 % 16 := by
  have type := proper.type
  rw [spill, code_eq proper]
  omega

/-- After every run the board is sent faithfully exactly when the half-byte of every square on an
even column already has the bits of the owner on its right that spill over. Memory whose owners on
the odd columns of the middle rows have none of these bits is enough, whatever the calls. -/
theorem Run.board_faithful_iff {memory g : Game} {calls : List (Move × Int)}
    (run : Run (newGame memory) calls g) :
    (Faithful g ↔ SpillFree g) ∧
      ((∀ r c : Fin 8, 2 ≤ r.val → r.val < 6 → c.val % 2 = 1 →
        (memory.board r c).player.value / 2 % 16 = 0) → Faithful g) := by
  have iff := faithful_iff run.proper
  refine ⟨iff, fun clean => iff.mpr fun r j => ?_⟩
  have none : spill (g.get r (2 * j + 1)) = 0 := by
    rw [spill_eq (run.proper _ _)]
    rcases run.signed (newGame_sound memory) r (2 * j + 1) with same | known
    · have start :
          ((newGame memory).get r ((⟨2 * j + 1, by omega⟩ : Fin 8) : Int)).player.value / 2 % 16 =
            0 := by
        rw [newGame_get]
        dsimp only
        split
        · rfl
        split
        · rfl
        · exact clean r _ (by omega) (by omega) (by dsimp only; omega)
      rw [same]
      exact start
    · have := known.value
      omega
  rw [none, Nat.or_zero]

/-- Memory full of zeros: the first board is sent faithfully. -/
theorem board_faithful_iff_new : Faithful (newGame blank) ∧ SpillFree (newGame blank) := by
  have told := @Run.board_faithful_iff blank (newGame blank) [] .start
  have clean : Player.white.value / 2 % 16 = 0 := by decide
  have faithful := told.2 fun r c _ _ _ => clean
  exact ⟨faithful, told.1.mp faithful⟩

/-- Memory that holds a two in the owner of every square. -/
def twos : Game := { blank with board := fun r c => { blank.board r c with player := .other 0 } }

/-- The owner two on b6 spills a bit over, and the empty square a6 is sent as a seven. -/
theorem spilled_owner :
    ¬ ∀ (memory g : Game) (calls : List (Move × Int)), Run (newGame memory) calls g →
      Faithful g := by
  intro faithful
  have type := (faithful twos (newGame twos) [] .start).type 2 0
  exact absurd type (by decide)

end Chessh
