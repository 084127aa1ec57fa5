import Chessh.Verif.Contest
import Chessh.Verif.Perft
import Chessh.Verif.Room

/-!
# Perft enumerates contests

The sequences that `calculate_perft` counts are those of a contest: every move is legal by the rules
and only the last may end the game. As long as the clock cannot run out they are all sequences of
legal moves.
-/

namespace Chessh

open Rules (Kind Ply Position Contest)

/-- The move that a player names. -/
def moveOf (m : Ply) : Move :=
  ⟨m.source.1, m.source.2, m.target.1, m.target.2, m.promotion.elim .empty typeOf⟩

/-- A player names the move that it is given. -/
@[simp] theorem ply_moveOf (m : Ply) : (moveOf m).ply = m := by
  obtain ⟨⟨r, c⟩, ⟨x, y⟩, promotion⟩ := m
  cases promotion with
  | none => rfl
  | some kind => cases kind <;> rfl

/-- Different moves have different names. -/
theorem moveOf_injective : Function.Injective moveOf := Function.LeftInverse.injective ply_moveOf

section Names

variable {g : Game} {c : Contest} {m : Move}

/-- A move comes back from its name when it promotes to nothing, or to a piece there is. -/
theorem moveOf_ply : moveOf m.ply = m ↔ m.promotion.kind.elim .empty typeOf = m.promotion := by
  obtain ⟨rI, cI, rF, cF, promotion⟩ := m
  simp [moveOf, Move.ply]

/-- A pawn goes to its last row. -/
theorem Stands.promoting_iff (stands : Stands g c) (legal : c.pos.Legal m.ply) :
    Promoting g m ↔ c.pos.PawnMove m.ply ∧ m.ply.target.1 = c.pos.turn.lastRow := by
  obtain ⟨kind, own⟩ := legal.2.2.1.own
  obtain ⟨type, owner⟩ := man_eq_some.mp ((stands.tracks.get _ _).symm.trans own)
  have pawn : (g.get m.rI m.cI).type = .pawn ↔ c.pos.PawnMove m.ply := by
    unfold Position.PawnMove
    rw [type, own]
    simp only [Option.some.injEq, Rules.Man.mk.injEq, true_and]
    exact @typeOf_inj kind .pawn
  exact and_congr pawn (lastRow_iff owner)

/-- Among the legal moves the ones that perft spells are those that say no more than they must. -/
theorem Stands.spelled_iff (stands : Stands g c) (legal : c.pos.Legal m.ply) :
    Spelled g m ↔ c.pos.Spells m.ply ∧ moveOf m.ply = m := by
  have promoting := stands.promoting_iff legal
  unfold Spelled Position.Spells
  rw [moveOf_ply, ← promoting, and_iff_right (show OnBoard m.rI m.cI from legal.1),
    and_iff_right (show OnBoard m.rF m.cF from legal.2.1)]
  by_cases last : Promoting g m
  · rw [if_pos last]
    obtain ⟨pawn, row⟩ := promoting.mp last
    have named := (promotion_iff row).mp (legal.2.2.1.promotion pawn)
    refine iff_of_true named ⟨fun _ => last, ?_⟩
    obtain ⟨kind, known, -⟩ := isPromotion_iff.mp named
    rw [known]
    exact (kind_eq_some.mp known).symm
  · rw [if_neg last]
    simp only [last, imp_false, not_not]
    constructor
    · intro empty
      rw [empty]
      exact ⟨congrArg PieceType.kind empty, rfl⟩
    · rintro ⟨nothing, same⟩
      rw [← same, show m.promotion.kind = none from nothing]
      rfl

end Names

/-! ## Sequences -/

/-- The sequences that perft counts are those that last in the contest, as perft spells them. -/
theorem Stands.playable_iff {ms : List Move} : ∀ {g : Game} {c : Contest}, Stands g c →
    (Playable g ms ↔ c.Lasts (ms.map Move.ply) ∧ (ms.map Move.ply).map moveOf = ms) := by
  induction ms with
  | nil => exact fun stands => iff_of_true trivial ⟨trivial, rfl⟩
  | cons m rest ih =>
    intro g c stands
    obtain ⟨code, after, returns, -⟩ := stands.tracks.sound.returns m
    rw [List.map_cons, List.map_cons, List.cons.injEq, Playable, Contest.Lasts]
    -- the call has one result, and it tells whether the move is legal
    have call : ∀ {P : Int → Game → Prop}, (∃ code after, Returns g m code after ∧ Accepted code ∧
        P code after) ↔ c.pos.Legal m.ply ∧ P code after := by
      intro P
      constructor
      · rintro ⟨code', after', returns', accepted, here⟩
        obtain ⟨rfl, rfl⟩ := returns.unique returns'
        exact ⟨(stands.accepted_iff returns).mp accepted, here⟩
      · exact fun both => ⟨code, after, returns, (stands.accepted_iff returns).mpr both.1, both.2⟩
    rw [call, and_left_comm, and_assoc]
    refine and_congr_right fun legal => ?_
    rw [stands.spelled_iff legal, List.map_eq_nil_iff]
    have goes := stands.nonneg_iff returns
    rw [and_iff_right legal] at goes
    rw [goes, and_assoc, and_assoc]
    refine and_congr_right fun _ => ?_
    rw [and_left_comm]
    refine and_congr_right fun _ => ?_
    rcases eq_or_ne rest [] with rfl | more
    · simp
    · simp only [more, false_or]
      rw [and_assoc]
      refine and_congr_right fun goesOn => ?_
      exact ih ((stands.made returns).2 (goes.mpr goesOn))

/-- There are as many of the one as of the other. -/
theorem Stands.ncard_playable {g : Game} {c : Contest} (stands : Stands g c) (d : Nat) :
    {ms | ms.length = d ∧ Playable g ms}.ncard =
      {moves | moves.length = d ∧ c.Lasts moves}.ncard := by
  have image : {ms | ms.length = d ∧ Playable g ms} =
      (List.map moveOf) '' {moves | moves.length = d ∧ c.Lasts moves} := by
    ext ms
    constructor
    · rintro ⟨length, playable⟩
      obtain ⟨lasts, same⟩ := stands.playable_iff.mp playable
      exact ⟨ms.map Move.ply, ⟨(List.length_map _).trans length, lasts⟩, same⟩
    · rintro ⟨moves, ⟨length, lasts⟩, rfl⟩
      have names : (moves.map moveOf).map Move.ply = moves := by
        simp [Function.comp_def]
      refine ⟨(List.length_map _).trans length, stands.playable_iff.mpr ?_⟩
      rw [names]
      exact ⟨lasts, rfl⟩
  rw [image, Set.ncard_image_of_injective _ moveOf_injective.list_map]

/-- On zeroed counters, and with room for as many calls as there are levels, `calculate_perft`
counts, modulo `2 ^ 64`, the sequences of legal moves that last in the contest the game stands for,
and no counter of a game leaves the range of an `int` on the way. Where the clock cannot run out
these are all sequences of legal moves. -/
theorem Stands.calculatePerft_lasts {g : Game} {c : Contest} (stands : Stands g c) {level : Nat}
    (room : Room level g) (depth : Nat) (autotest : Bool) {fuel : Nat}
    (enough : 3 * level + 1 ≤ fuel) (parent : Move) {games : Games}
    {p : Nat} (here : games[p]? = some g) :
    InRange g level ∧
      ∃ after, calculatePerft (depth + 1) autotest level fuel p 0 parent .zero games =
        .ok (after, games) ∧
      (∀ d < level, after.results d =
        UInt64.ofNat {moves | moves.length = d ∧ c.Lasts moves}.ncard) ∧
      ∀ d < level, c.quiet + d ≤ 150 → after.results d =
        UInt64.ofNat {moves | moves.length = d ∧ c.pos.Written moves}.ncard := by
  have sound := stands.tracks.sound
  obtain ⟨after, runs, did⟩ := calculatePerft_walks level fuel p 0 parent .zero games g enough
    (zero_add _) here sound
  have counts : ∀ d < level, after.results d =
      UInt64.ofNat {moves | moves.length = d ∧ c.Lasts moves}.ncard := by
    intro d above
    have counted := count_indices above 0 (some g)
    rw [zero_add] at counted
    rw [did.results, counted, length_words sound, stands.ncard_playable]
    exact UInt64.zero_add _
  refine ⟨room.inRange sound, after, runs, counts, fun d above short => ?_⟩
  have same : {moves | moves.length = d ∧ c.Lasts moves} =
      {moves | moves.length = d ∧ c.pos.Written moves} := by
    ext moves
    refine and_congr_right fun length => Contest.lasts_iff ?_
    rw [length]
    exact short
  rw [counts d above, same]

/-- Two levels from a new game are the sequences of the contest from the starting position. -/
theorem calculatePerft_lasts_new : ∃ after, calculatePerft 1 false ((2 : Nat) : Int) 7 0 0
    ⟨0, 0, 0, 0, .empty⟩ .zero [newGame blank] = .ok (after, [newGame blank]) ∧
      (∀ d : Nat, d < 2 → after.results d =
        UInt64.ofNat {moves | moves.length = d ∧ Contest.start.Lasts moves}.ncard) ∧
      ∀ d : Nat, d < 2 → Contest.start.quiet + d ≤ 150 → after.results d =
        UInt64.ofNat {moves | moves.length = d ∧ Contest.start.pos.Written moves}.ncard := by
  have room : Room 2 (newGame blank) := by
    refine ⟨by decide, by decide, fun r c => ?_⟩
    have few := (newGame_clocked blank).moves r c
    have wide : (newGame blank).duration + 2 ≤ intMax := by decide
    push_cast
    omega
  exact ((newGame_stands blank).calculatePerft_lasts room 0 false (show 3 * 2 + 1 ≤ 7 by decide) _
    rfl).2

end Chessh
