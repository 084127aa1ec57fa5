import Chessh.Verif.Loading

/-!
# What a refused call leaves behind

`make_move_no_checkmate` takes its backup after the legality check has run, and the check
writes. `Retypes` lists the refused moves that change a piece: a promotion that leaves the own
king in check keeps its new piece, and a refused castling may crown the pawn that attacks a
square of the row. `Reowns` lists the refused castlings that hand an empty square to another
owner. Every other refused call leaves the game exactly as it was.
-/

namespace Chessh

/-- A pawn found to attack a square of its last row becomes a queen. -/
def Crowns (g : Game) (i j r : Int) : Prop :=
  (g.get i j).type = .pawn ∧
    (((g.get i j).player = .white ∧ r = 0) ∨ ((g.get i j).player = .black ∧ r = 7))

/-- The board on which a castled king is tested for check. -/
def castledBoard (g : Game) (m : Move) (cc stop : Int) : Game :=
  moveUnchecked (moveUnchecked
    (claim (claim g m.rI (m.cI + cc) (getPlayer g)) m.rI (m.cI + cc * 2) (getPlayer g)) m none true)
    ⟨m.rI, stop, m.rI, m.cI + cc, .empty⟩ none false

/-- The refused moves that change a piece. -/
inductive Retypes (g : Game) (m : Move) : Prop
  /-- A promotion leaves the own king in check. -/
  | promotion {captured} (mine : Mine g m (getPlayer g)) (kind : (g.get m.rI m.cI).type = .pawn)
      (goes : PawnGoes g m captured) (last : LastRow g m)
      (named : m.promotion.isPromotion = true)
      (exposed : Checked (moveUnchecked (g.setType m.rI m.cI m.promotion) m captured true)
        (getPlayer g))
  /-- The king that would castle is attacked first by a pawn about to be promoted. -/
  | first {cc stop i j} (mine : Mine g m (getPlayer g)) (kind : (g.get m.rI m.cI).type = .king)
      (castling : Castling g m cc stop)
      (hit : firstAttacker g m.rI m.cI (getPlayer g) = some (i, j))
      (crowns : Crowns g i j m.rI)
  /-- So is the square it passes. -/
  | second {cc stop i j} (mine : Mine g m (getPlayer g)) (kind : (g.get m.rI m.cI).type = .king)
      (castling : Castling g m cc stop) (safe : ¬ Struck g m.rI m.cI (getPlayer g))
      (hit : firstAttacker g m.rI (m.cI + cc) (getPlayer g) = some (i, j))
      (crowns : Crowns g i j m.rI)
  /-- So is the square it reaches. -/
  | third {cc stop i j} (mine : Mine g m (getPlayer g)) (kind : (g.get m.rI m.cI).type = .king)
      (castling : Castling g m cc stop) (safe : ¬ Struck g m.rI m.cI (getPlayer g))
      (passing : ¬ Struck g m.rI (m.cI + cc) (getPlayer g))
      (hit : firstAttacker g m.rI (m.cI + cc * 2) (getPlayer g) = some (i, j))
      (crowns : Crowns g i j m.rI)

/-- The refused castlings that change the owner of an empty square. -/
inductive Reowns (g : Game) (m : Move) : Prop
  /-- The square the king passes is attacked, and was not the player's. -/
  | second {cc stop} (mine : Mine g m (getPlayer g)) (kind : (g.get m.rI m.cI).type = .king)
      (castling : Castling g m cc stop) (safe : ¬ Struck g m.rI m.cI (getPlayer g))
      (hit : Struck g m.rI (m.cI + cc) (getPlayer g))
      (foreign : (g.get m.rI (m.cI + cc)).player ≠ getPlayer g)
  /-- The square it reaches is attacked, and one of the two was not the player's. -/
  | third {cc stop} (mine : Mine g m (getPlayer g)) (kind : (g.get m.rI m.cI).type = .king)
      (castling : Castling g m cc stop) (safe : ¬ Struck g m.rI m.cI (getPlayer g))
      (passing : ¬ Struck g m.rI (m.cI + cc) (getPlayer g))
      (hit : Struck g m.rI (m.cI + cc * 2) (getPlayer g))
      (foreign : (g.get m.rI (m.cI + cc)).player ≠ getPlayer g ∨
        (g.get m.rI (m.cI + cc * 2)).player ≠ getPlayer g)
  /-- No square is attacked, the castled king is in check all the same, and one of the two
  squares was not the player's. -/
  | castled {cc stop} (mine : Mine g m (getPlayer g)) (kind : (g.get m.rI m.cI).type = .king)
      (castling : Castling g m cc stop) (safe : ¬ Struck g m.rI m.cI (getPlayer g))
      (passing : ¬ Struck g m.rI (m.cI + cc) (getPlayer g))
      (arriving : ¬ Struck g m.rI (m.cI + cc * 2) (getPlayer g))
      (exposed : Checked (castledBoard g m cc stop) (getPlayer g))
      (foreign : (g.get m.rI (m.cI + cc)).player ≠ getPlayer g ∨
        (g.get m.rI (m.cI + cc * 2)).player ≠ getPlayer g)

/-- The refused moves that leave a trace. -/
def Disturbs (g : Game) (m : Move) : Prop := Retypes g m ∨ Reowns g m

/-! ## Claims and crownings -/

section Trace

variable {g : Game} {r c i j : Int} {player : Player}

/-- Claiming a square of the player does nothing. -/
theorem claim_own (own : (g.get r c).player = player) : claim g r c player = g := by
  unfold claim
  split
  · subst own
    exact Game.set_get g r c
  · rfl

/-- A claimed square belongs to the player. -/
theorem claim_player (on : OnBoard r c) (empty : (g.get r c).type = .empty) :
    ((claim g r c player).get r c).player = player := by
  rw [get_claim, if_pos ⟨on, rfl, rfl, empty⟩]

/-- A claim takes no square from the player. -/
theorem claim_keeps {x y : Int} (own : (g.get x y).player = player) :
    ((claim g r c player).get x y).player = player := by
  rw [get_claim]
  split
  · rfl
  · exact own

/-- Without a crowning nothing is promoted. -/
theorem promoteAttacker_kept (kept : ¬ Crowns g i j r) : promoteAttacker g i j r = g :=
  if_neg kept

/-- A promotion changes no owner. -/
theorem promoteAttacker_player (x y : Int) :
    ((promoteAttacker g i j r).get x y).player = (g.get x y).player := by
  unfold promoteAttacker
  split
  · rw [Game.get_setType]
    split
    · rename_i here
      rw [here.2.1, here.2.2]
    · rfl
  · rfl

/-- Claims make and break no crownings. -/
theorem crowns_claim {x y : Int} : Crowns (claim g x y player) i j r ↔ Crowns g i j r := by
  unfold Crowns
  rw [claim_type]
  refine and_congr_right fun pawn => ?_
  rw [claim_full (by rw [pawn]; decide)]

/-- A crowning puts a queen where a pawn stood. -/
theorem promoteAttacker_crowned (crowns : Crowns g i j r) :
    ((promoteAttacker g i j r).get i j).type = .queen := by
  have on : OnBoard i j := onBoard_of_type_ne_empty (by rw [crowns.1]; decide)
  unfold promoteAttacker
  rw [if_pos (show _ ∧ _ from crowns), Game.get_setType, if_pos ⟨on, rfl, rfl⟩]

/-- A board on which a claimed square or an attacker changed is another board. -/
theorem promoteAttacker_ne {h : Game} (crownings : Crowns h i j r ↔ Crowns g i j r)
    (trace : (∃ x y, (h.get x y).player = player ∧ (g.get x y).player ≠ player) ∨
      Crowns g i j r) : promoteAttacker h i j r ≠ g := by
  intro same
  rcases trace with ⟨x, y, own, foreign⟩ | crowns
  · rw [← promoteAttacker_player (i := i) (j := j) (r := r), same] at own
    exact foreign own
  · have queen := promoteAttacker_crowned (crownings.mpr crowns)
    rw [same, crowns.1] at queen
    exact PieceType.noConfusion queen

end Trace

/-! ## Castlings are judged by their attacked squares -/

section Castling

variable {g : Game} {m : Move} {player : Player}

/-- Direction and rook of a castling are determined. -/
theorem Castling.unique (onS : OnBoard m.rI m.cI) {cc cc' stop stop' : Int}
    (castling : Castling g m cc stop) (castling' : Castling g m cc' stop') :
    cc = cc' ∧ stop = stop' := by
  obtain ⟨-, direction, found, -⟩ := (castling_iff onS).mp castling
  obtain ⟨-, direction', found', -⟩ := (castling_iff onS).mp castling'
  obtain rfl : cc = cc' := direction.trans direction'.symm
  exact ⟨rfl, found.trans found'.symm⟩

/-- The verdict on a castling depends on its attacked squares only. -/
theorem Castling.judged {cc stop : Int} (mine : Mine g m player)
    (kind : (g.get m.rI m.cI).type = .king) (castling : Castling g m cc stop) {v : Verdict}
    (judged : Judged g m player v) :
    (∃ after, v = .plain after illegalMove ∧ Stopped g m.rI m.cI cc player after) ∨
      ((¬ Struck g m.rI m.cI player ∧ ¬ Struck g m.rI (m.cI + cc) player ∧
        ¬ Struck g m.rI (m.cI + cc * 2) player) ∧
        v = ⟨0, claim (claim g m.rI (m.cI + cc) player) m.rI (m.cI + cc * 2) player, none,
          ⟨m.rI, stop, m.rI, m.cI + cc, .empty⟩⟩) := by
  have notPawn : (g.get m.rI m.cI).type ≠ .pawn := by
    rw [kind]
    decide
  cases judged with
  | refused fails => exact absurd ⟨mine, Or.inr (Or.inr ⟨kind, cc, stop, castling⟩)⟩ fails
  | officer _ _ hit =>
    simp only [strikes, kind, decide_eq_true_eq] at hit
    have two := castling.two
    rcases castling.step with rfl | rfl <;> omega
  | pawn _ pawn | promoted _ pawn | unpromoted _ pawn => exact absurd pawn notPawn
  | castled _ _ castling' empty safe passing arriving =>
    obtain ⟨rfl, rfl⟩ := castling.unique mine.onS castling'
    exact Or.inr ⟨⟨safe, passing, arriving⟩, rfl⟩
  | stopped _ _ castling' stop =>
    obtain ⟨rfl, rfl⟩ := castling.unique mine.onS castling'
    exact Or.inl ⟨_, rfl, stop⟩

end Castling

/-! ## Refused calls -/

section Refused

variable {g : Game} {m : Move}

/-- The three squares of a castling that is not attacked at once. -/
theorem Castling.empties (sound : Sound g) {cc stop : Int} (mine : Mine g m (getPlayer g))
    (castling : Castling g m cc stop) (safe : ¬ Struck g m.rI m.cI (getPlayer g)) :
    (OnBoard m.rI (m.cI + cc) ∧ (g.get m.rI (m.cI + cc)).type = .empty) ∧
      (OnBoard m.rI (m.cI + cc * 2) ∧ (g.get m.rI (m.cI + cc * 2)).type = .empty) := by
  have passing := castling.passing_empty sound.home mine.onS mine.onT
  have arriving := castling.arriving_empty sound.home (getPlayer_known g) mine safe
  have target := mine.onT
  rw [castling.row, castling.two] at arriving target
  have onS := mine.onS
  refine ⟨⟨⟨onS.1, ?_⟩, passing⟩, target, arriving⟩
  have := onS.2
  have := target.2
  rcases castling.step with rfl | rfl <;> omega

/-- A stopped castling that changes no piece claims squares and nothing else. -/
theorem Stopped.kept {cc stop : Int} {after : Game} (mine : Mine g m (getPlayer g))
    (kind : (g.get m.rI m.cI).type = .king) (castling : Castling g m cc stop)
    (stopped : Stopped g m.rI m.cI cc (getPlayer g) after) (quiet : ¬ Retypes g m) :
    after = g ∨ (¬ Struck g m.rI m.cI (getPlayer g) ∧
      Struck g m.rI (m.cI + cc) (getPlayer g) ∧
      after = claim g m.rI (m.cI + cc) (getPlayer g)) ∨
    (¬ Struck g m.rI m.cI (getPlayer g) ∧ ¬ Struck g m.rI (m.cI + cc) (getPlayer g) ∧
      Struck g m.rI (m.cI + cc * 2) (getPlayer g) ∧
      after = claim (claim g m.rI (m.cI + cc) (getPlayer g)) m.rI (m.cI + cc * 2)
        (getPlayer g)) := by
  cases stopped with
  | @first i j hit =>
    refine Or.inl (promoteAttacker_kept fun crowns => quiet ?_)
    exact .first mine kind castling hit crowns
  | @second i j safe hit =>
    refine Or.inr (Or.inl ⟨safe, struck_iff.mpr ⟨i, j, hit⟩, promoteAttacker_kept fun crowns =>
      quiet ?_⟩)
    exact .second mine kind castling safe hit (crowns_claim.mp crowns)
  | @third i j safe passing hit =>
    refine Or.inr (Or.inr ⟨safe, passing, struck_iff.mpr ⟨i, j, hit⟩,
      promoteAttacker_kept fun crowns => quiet ?_⟩)
    exact .third mine kind castling safe passing hit (crowns_claim.mp (crowns_claim.mp crowns))

/-- What a stopped castling leaves behind is the game itself, or a listed trace. -/
theorem Stopped.trace {cc stop : Int} {after : Game} (mine : Mine g m (getPlayer g))
    (kind : (g.get m.rI m.cI).type = .king) (castling : Castling g m cc stop)
    (stopped : Stopped g m.rI m.cI cc (getPlayer g) after) : after = g ∨ Disturbs g m := by
  by_contra other
  push Not at other
  obtain ⟨changed, quiet⟩ := other
  rcases stopped.kept mine kind castling fun retypes => quiet (Or.inl retypes) with
    rfl | ⟨safe, hit, rfl⟩ | ⟨safe, passing, hit, rfl⟩
  · exact changed rfl
  · have own : (g.get m.rI (m.cI + cc)).player = getPlayer g := by
      by_contra foreign
      exact quiet (Or.inr (.second mine kind castling safe hit foreign))
    exact changed (claim_own own)
  · have own : (g.get m.rI (m.cI + cc)).player = getPlayer g := by
      by_contra foreign
      exact quiet (Or.inr (.third mine kind castling safe passing hit (Or.inl foreign)))
    have own' : (g.get m.rI (m.cI + cc * 2)).player = getPlayer g := by
      by_contra foreign
      exact quiet (Or.inr (.third mine kind castling safe passing hit (Or.inr foreign)))
    rw [claim_own own, claim_own own'] at changed
    exact changed rfl

/-- A refused move that changes no piece keeps the type of every square. -/
theorem Tried.types {code : Int} {after : Game} (tried : Tried g m code after)
    (rejected : code ≠ 0) (quiet : ¬ Retypes g m) (r c : Int) :
    (after.get r c).type = (g.get r c).type := by
  cases tried with
  | refused judged negative =>
    cases judged with
    | refused | unpromoted => rfl
    | officer | pawn | promoted | castled => exact absurd negative (lt_irrefl 0)
    | stopped mine kind castling stop =>
      rcases stop.kept mine kind castling quiet with same | ⟨-, -, same⟩ | ⟨-, -, -, same⟩
      · exact congrArg (fun h : Game => (h.get r c).type) same
      · exact (congrArg (fun h : Game => (h.get r c).type) same).trans (claim_type _ _ _ _ _ _)
      · refine (congrArg (fun h : Game => (h.get r c).type) same).trans ?_
        rw [claim_type, claim_type]
  | exposed judged ok check =>
    cases judged with
    | refused | unpromoted | stopped =>
      simp [Verdict.plain, illegalMove, missingPromotion] at ok
    | officer | pawn => rfl
    | promoted mine kind goes last named =>
      exact absurd (.promotion mine kind (pawnGoes_iff.mp goes) last named check) quiet
    | castled =>
      show ((claim _ _ _ _).get r c).type = _
      rw [claim_type, claim_type]
  | played => exact absurd rfl rejected

/-- A refused move leaves the game as it was, or is listed. -/
theorem Tried.restored {code : Int} {after : Game} (tried : Tried g m code after)
    (rejected : code ≠ 0) : after = g ∨ Disturbs g m := by
  cases tried with
  | refused judged negative =>
    cases judged with
    | refused | unpromoted => exact Or.inl rfl
    | officer | pawn | promoted | castled => exact absurd negative (lt_irrefl 0)
    | stopped mine kind castling stop => exact stop.trace mine kind castling
  | exposed judged ok check =>
    cases judged with
    | refused | unpromoted | stopped =>
      simp [Verdict.plain, illegalMove, missingPromotion] at ok
    | officer | pawn => exact Or.inl rfl
    | promoted mine kind goes last named =>
      exact Or.inr (Or.inl (.promotion mine kind (pawnGoes_iff.mp goes) last named check))
    | @castled cc stop mine kind castling empty safe passing arriving =>
      have placed : (m.rI : Int) ≠ -1 := by
        have := mine.onS.1
        omega
      simp only [Verdict.apply, ne_eq, placed, not_false_eq_true, ↓reduceIte] at check
      by_contra other
      push Not at other
      obtain ⟨changed, quiet⟩ := other
      have listed : ∀ foreign, False := fun foreign =>
        quiet (Or.inr (.castled mine kind castling safe passing arriving check foreign))
      have own : (g.get m.rI (m.cI + cc)).player = getPlayer g := by
        by_contra foreign
        exact listed (Or.inl foreign)
      have own' : (g.get m.rI (m.cI + cc * 2)).player = getPlayer g := by
        by_contra foreign
        exact listed (Or.inr foreign)
      rw [claim_own own, claim_own own'] at changed
      exact changed rfl
  | played => exact absurd rfl rejected

/-- A castling that is listed is refused and leaves another board. -/
theorem Tried.castling_changed (sound : Sound g) {code : Int} {after : Game} {cc stop : Int}
    (mine : Mine g m (getPlayer g)) (kind : (g.get m.rI m.cI).type = .king)
    (castling : Castling g m cc stop) (tried : Tried g m code after)
    (stops : ∀ board, Stopped g m.rI m.cI cc (getPlayer g) board → board ≠ g)
    (passes : ¬ Struck g m.rI m.cI (getPlayer g) → ¬ Struck g m.rI (m.cI + cc) (getPlayer g) →
      ¬ Struck g m.rI (m.cI + cc * 2) (getPlayer g) →
      Checked (castledBoard g m cc stop) (getPlayer g) ∧
        ((g.get m.rI (m.cI + cc)).player ≠ getPlayer g ∨
          (g.get m.rI (m.cI + cc * 2)).player ≠ getPlayer g)) :
    code = illegalMove ∧ after ≠ g := by
  have placed : (m.rI : Int) ≠ -1 := by
    have := mine.onS.1
    omega
  have refusal : ∀ {v : Verdict}, Judged g m (getPlayer g) v → v.code < 0 →
      v.code = illegalMove ∧ v.game ≠ g := by
    intro v judged negative
    rcases castling.judged mine kind judged with ⟨board, rfl, stopped⟩ | ⟨-, rfl⟩
    · exact ⟨rfl, stops board stopped⟩
    · exact absurd negative (lt_irrefl 0)
  have acceptance : ∀ {v : Verdict}, Judged g m (getPlayer g) v → 0 ≤ v.code →
      Checked (v.apply m) (getPlayer g) ∧ v.game ≠ g := by
    intro v judged ok
    rcases castling.judged mine kind judged with ⟨board, rfl, -⟩ | ⟨⟨safe, passing, arriving⟩, rfl⟩
    · simp [Verdict.plain, illegalMove] at ok
    · obtain ⟨exposed, trace⟩ := passes safe passing arriving
      obtain ⟨⟨onMid, middle⟩, onEnd, final⟩ := castling.empties sound mine safe
      refine ⟨?_, fun same => ?_⟩
      · simp only [Verdict.apply, ne_eq, placed, not_false_eq_true, ↓reduceIte]
        exact exposed
      · have same : claim (claim g m.rI (m.cI + cc) (getPlayer g)) m.rI (m.cI + cc * 2)
            (getPlayer g) = g := same
        rcases trace with foreign | foreign
        · apply foreign
          have own : ((claim g m.rI (m.cI + cc) (getPlayer g)).get m.rI (m.cI + cc)).player =
            getPlayer g := claim_player onMid middle
          have kept := claim_keeps (r := m.rI) (c := m.cI + cc * 2) own
          rw [same] at kept
          exact kept
        · apply foreign
          have final : ((claim g m.rI (m.cI + cc) (getPlayer g)).get m.rI (m.cI + cc * 2)).type =
              .empty := by
            rw [claim_type]
            exact final
          have own : ((claim (claim g m.rI (m.cI + cc) (getPlayer g)) m.rI (m.cI + cc * 2)
            (getPlayer g)).get m.rI (m.cI + cc * 2)).player =
            getPlayer g := claim_player onEnd final
          rw [same] at own
          exact own
  cases tried with
  | refused judged negative => exact refusal judged negative
  | exposed judged ok check => exact ⟨rfl, (acceptance judged ok).2⟩
  | played judged ok safe => exact absurd (acceptance judged ok).1 safe

/-- A promotion that leaves the own king in check is refused and leaves a new piece. -/
theorem Tried.promotion_changed {captured} (mine : Mine g m (getPlayer g))
    (kind : (g.get m.rI m.cI).type = .pawn) (goes : PawnGoes g m captured) (last : LastRow g m)
    (named : m.promotion.isPromotion = true)
    (exposed : Checked (moveUnchecked (g.setType m.rI m.cI m.promotion) m captured true)
      (getPlayer g)) {code : Int} {after : Game} (tried : Tried g m code after) :
    code = illegalMove ∧ after ≠ g := by
  have written : g.setType m.rI m.cI m.promotion ≠ g := by
    intro same
    have type : ((g.setType m.rI m.cI m.promotion).get m.rI m.cI).type = m.promotion := by
      rw [Game.get_setType, if_pos ⟨mine.onS, rfl, rfl⟩]
    rw [same, kind] at type
    rw [← type] at named
    exact Bool.noConfusion named
  have judgement : ∀ {v : Verdict}, Judged g m (getPlayer g) v →
      v = ⟨0, g.setType m.rI m.cI m.promotion, captured, noCastle⟩ := by
    intro v judged
    have goes := pawnGoes_iff.mpr goes
    cases judged with
    | refused fails => exact absurd ⟨mine, Or.inr (Or.inl ⟨kind, _, goes⟩)⟩ fails
    | officer _ officer => exact absurd kind officer
    | pawn _ _ _ early => exact absurd last early
    | promoted _ _ goes' =>
      cases goes.symm.trans goes'
      rfl
    | unpromoted _ _ _ _ unnamed =>
      rw [named] at unnamed
      cases unnamed
    | castled _ king | stopped _ king =>
      rw [kind] at king
      cases king
  cases tried with
  | refused judged negative =>
    rw [judgement judged] at negative
    exact absurd negative (lt_irrefl 0)
  | exposed judged ok check =>
    rw [judgement judged]
    exact ⟨rfl, written⟩
  | played judged ok safe =>
    rw [judgement judged] at safe
    exact absurd exposed safe

section Attacked

variable {cc stop i j code : Int} {after : Game} (sound : Sound g)
  (mine : Mine g m (getPlayer g)) (kind : (g.get m.rI m.cI).type = .king)
  (castling : Castling g m cc stop) (tried : Tried g m code after)

include sound mine kind castling tried

/-- A castling is refused when its king is attacked, and may crown the attacker. -/
theorem Tried.first_changed (hit : firstAttacker g m.rI m.cI (getPlayer g) = some (i, j))
    (crowns : Crowns g i j m.rI) : code = illegalMove ∧ after ≠ g := by
  refine tried.castling_changed sound mine kind castling (fun board stopped => ?_)
    fun safe _ _ => absurd (struck_iff.mpr ⟨i, j, hit⟩) safe
  cases stopped with
  | first hit' =>
    cases hit.symm.trans hit'
    have trace : (∃ x y, (g.get x y).player = getPlayer g ∧ (g.get x y).player ≠ getPlayer g) ∨
        Crowns g i j m.rI := Or.inr crowns
    exact promoteAttacker_ne Iff.rfl trace
  | second safe | third safe => exact absurd (struck_iff.mpr ⟨i, j, hit⟩) safe

/-- So it is when the square the king passes is attacked. -/
theorem Tried.second_changed (safe : ¬ Struck g m.rI m.cI (getPlayer g))
    (hit : firstAttacker g m.rI (m.cI + cc) (getPlayer g) = some (i, j))
    (trace : (g.get m.rI (m.cI + cc)).player ≠ getPlayer g ∨ Crowns g i j m.rI) :
    code = illegalMove ∧ after ≠ g := by
  obtain ⟨⟨onMid, middle⟩, -, -⟩ := castling.empties sound mine safe
  refine tried.castling_changed sound mine kind castling (fun board stopped => ?_)
    fun _ passing _ => absurd (struck_iff.mpr ⟨i, j, hit⟩) passing
  cases stopped with
  | first hit' => exact absurd (struck_iff.mpr ⟨_, _, hit'⟩) safe
  | second _ hit' =>
    cases hit.symm.trans hit'
    exact promoteAttacker_ne crowns_claim
      (trace.imp_left fun foreign => ⟨_, _, claim_player onMid middle, foreign⟩)
  | third _ passing => exact absurd (struck_iff.mpr ⟨i, j, hit⟩) passing

/-- So it is when the square the king reaches is attacked. -/
theorem Tried.third_changed (safe : ¬ Struck g m.rI m.cI (getPlayer g))
    (passing : ¬ Struck g m.rI (m.cI + cc) (getPlayer g))
    (hit : firstAttacker g m.rI (m.cI + cc * 2) (getPlayer g) = some (i, j))
    (trace : ((g.get m.rI (m.cI + cc)).player ≠ getPlayer g ∨
      (g.get m.rI (m.cI + cc * 2)).player ≠ getPlayer g) ∨ Crowns g i j m.rI) :
    code = illegalMove ∧ after ≠ g := by
  obtain ⟨⟨onMid, middle⟩, onEnd, final⟩ := castling.empties sound mine safe
  refine tried.castling_changed sound mine kind castling (fun board stopped => ?_)
    fun _ _ arriving => absurd (struck_iff.mpr ⟨i, j, hit⟩) arriving
  cases stopped with
  | first hit' => exact absurd (struck_iff.mpr ⟨_, _, hit'⟩) safe
  | second _ hit' => exact absurd (struck_iff.mpr ⟨_, _, hit'⟩) passing
  | third _ _ hit' =>
    cases hit.symm.trans hit'
    suffices trace : (∃ x y, ((claim (claim g m.rI (m.cI + cc) (getPlayer g)) m.rI
        (m.cI + cc * 2) (getPlayer g)).get x y).player = getPlayer g ∧
        (g.get x y).player ≠ getPlayer g) ∨ Crowns g i j m.rI from
      promoteAttacker_ne (crowns_claim.trans crowns_claim) trace
    refine trace.imp_left fun foreign => ?_
    rcases foreign with foreign | foreign
    · exact ⟨_, _, claim_keeps (claim_player onMid middle), foreign⟩
    · exact ⟨_, _, claim_player onEnd (by rw [claim_type]; exact final), foreign⟩

/-- So it is when the castled king is in check although no square is attacked. -/
theorem Tried.castled_changed (safe : ¬ Struck g m.rI m.cI (getPlayer g))
    (passing : ¬ Struck g m.rI (m.cI + cc) (getPlayer g))
    (arriving : ¬ Struck g m.rI (m.cI + cc * 2) (getPlayer g))
    (exposed : Checked (castledBoard g m cc stop) (getPlayer g))
    (foreign : (g.get m.rI (m.cI + cc)).player ≠ getPlayer g ∨
      (g.get m.rI (m.cI + cc * 2)).player ≠ getPlayer g) : code = illegalMove ∧ after ≠ g := by
  refine tried.castling_changed sound mine kind castling (fun board stopped => ?_)
    fun _ _ _ => ⟨exposed, foreign⟩
  cases stopped with
  | first hit => exact absurd (struck_iff.mpr ⟨_, _, hit⟩) safe
  | second _ hit => exact absurd (struck_iff.mpr ⟨_, _, hit⟩) passing
  | third _ _ hit => exact absurd (struck_iff.mpr ⟨_, _, hit⟩) arriving

end Attacked

/-- A listed move is refused and leaves another board. -/
theorem Disturbs.changed (sound : Sound g) (disturbs : Disturbs g m) {code : Int} {after : Game}
    (tried : Tried g m code after) : code = illegalMove ∧ after ≠ g := by
  rcases disturbs with retypes | reowns
  · cases retypes with
    | promotion mine kind goes last named exposed =>
      exact tried.promotion_changed mine kind goes last named exposed
    | first mine kind castling hit crowns =>
      exact tried.first_changed sound mine kind castling hit crowns
    | second mine kind castling safe hit crowns =>
      exact tried.second_changed sound mine kind castling safe hit (Or.inr crowns)
    | third mine kind castling safe passing hit crowns =>
      exact tried.third_changed sound mine kind castling safe passing hit (Or.inr crowns)
  · cases reowns with
    | second mine kind castling safe hit foreign =>
      obtain ⟨i, j, hit⟩ := struck_iff.mp hit
      exact tried.second_changed sound mine kind castling safe hit (Or.inl foreign)
    | third mine kind castling safe passing hit foreign =>
      obtain ⟨i, j, hit⟩ := struck_iff.mp hit
      exact tried.third_changed sound mine kind castling safe passing hit (Or.inl foreign)
    | castled mine kind castling safe passing arriving exposed foreign =>
      exact tried.castled_changed sound mine kind castling safe passing arriving exposed foreign

end Refused

/-- Along every run, refused calls included, of a new game or a loaded one, a call that is
refused leaves the whole game as it was if and only if its move is not listed. -/
theorem Run.atomic_iff {start g : Game} {calls : List (Move × Int)} (started : Started start)
    (run : Run start calls g) (m : Move) :
    (∀ code after, Returns g m code after → (code = illegalMove ∨ code = missingPromotion) →
      after = g) ↔ ¬ Disturbs g m := by
  have sound := run.sound started.sound
  constructor
  · intro atomic disturbs
    obtain ⟨code, after, returns, made⟩ := sound.returns m
    cases made with
    | refused tried rejected =>
      exact (disturbs.changed sound tried).2 (atomic code after returns rejected)
    | expired tried | offered tried | continued tried | mated tried | stalemated tried =>
      exact absurd (disturbs.changed sound tried).1 (by decide)
  · intro quiet code after returns rejected
    cases returns.made sound with
    | refused tried =>
      refine (tried.restored ?_).resolve_right quiet
      rcases rejected with rfl | rfl <;> decide
    | expired | offered | continued | stalemated => exact absurd rejected (by decide)
    | mated =>
      exfalso
      revert rejected
      split <;> decide

/-- A refused knight move leaves the game as it was. -/
theorem atomic_iff_opening :
    (play (replay (newGame blank) [⟨6, 4, 4, 4, .empty⟩]).2 ⟨0, 1, 3, 3, .empty⟩).2 =
      (replay (newGame blank) [⟨6, 4, 4, 4, .empty⟩]).2 := by
  have run := Run.start.replayed (newGame_sound blank) [⟨6, 4, 4, 4, .empty⟩]
  have returns := (run.sound (newGame_sound blank)).played ⟨0, 1, 3, 3, .empty⟩
  refine (Run.atomic_iff (.new blank) run ⟨0, 1, 3, 3, .empty⟩).mpr ?_ _ _ returns
    (Or.inl (by decide +kernel))
  have knight : ((replay (newGame blank) [⟨6, 4, 4, 4, .empty⟩]).2.get 0 1).type = .knight := by
    decide +kernel
  rintro ((⟨-, kind⟩ | ⟨-, kind⟩ | ⟨-, kind⟩ | ⟨-, kind⟩) | (⟨-, kind⟩ | ⟨-, kind⟩ | ⟨-, kind⟩)) <;>
    exact PieceType.noConfusion (knight.symm.trans kind)

/-- White's rook pawn walks to the seventh row while Black's knight comes to give check. -/
def pawnRace : List Move :=
  [⟨6, 0, 4, 0, .empty⟩, ⟨0, 1, 2, 2, .empty⟩, ⟨4, 0, 3, 0, .empty⟩, ⟨2, 2, 4, 3, .empty⟩,
    ⟨3, 0, 2, 0, .empty⟩, ⟨1, 7, 2, 7, .empty⟩, ⟨2, 0, 1, 1, .empty⟩, ⟨4, 3, 6, 2, .empty⟩]

/-- White takes the rook and promotes, ignoring the check. -/
def ignoringCheck : Move := ⟨1, 1, 0, 0, .queen⟩

/-- White's queen answers the check. -/
def answeringCheck : Move := ⟨7, 3, 6, 2, .empty⟩

/-- Behind the pawn race the promotion is refused, and the answer is played with or without it. -/
theorem pawnRace_codes :
    (∀ call ∈ (replay (newGame blank) pawnRace).1, 0 ≤ call.2) ∧
      getPlayer (replay (newGame blank) pawnRace).2 = .white ∧
      ((replay (newGame blank) pawnRace).2.get 1 1).type = .pawn ∧
      (play (replay (newGame blank) pawnRace).2 ignoringCheck).1 = illegalMove ∧
      getPlayer (play (replay (newGame blank) pawnRace).2 ignoringCheck).2 = .white ∧
      ((play (replay (newGame blank) pawnRace).2 ignoringCheck).2.get 1 1).type = .queen ∧
      (play (play (replay (newGame blank) pawnRace).2 ignoringCheck).2 answeringCheck).1 = 0 ∧
      ((play (play (replay (newGame blank) pawnRace).2 ignoringCheck).2
        answeringCheck).2.get 1 1).type =
        .queen ∧
      (play (replay (newGame blank) pawnRace).2 answeringCheck).1 = 0 ∧
      ((play (replay (newGame blank) pawnRace).2 answeringCheck).2.get 1 1).type = .pawn := by
  decide +kernel

/-- A promotion that ignores a check is refused, and the pawn is a queen all the same. -/
theorem refused_promotion_kept :
    ∃ g after, Run (newGame blank) (replay (newGame blank) pawnRace).1 g ∧
      Returns g ignoringCheck illegalMove after ∧ (g.get 1 1).type = .pawn ∧
      (after.get 1 1).type = .queen ∧ after ≠ g := by
  have run := Run.start.replayed (newGame_sound blank) pawnRace
  rw [List.nil_append] at run
  have returns := (run.sound (newGame_sound blank)).played ignoringCheck
  obtain ⟨-, -, pawn, code, -, queen, -⟩ := pawnRace_codes
  generalize replay (newGame blank) pawnRace = race at run returns pawn code queen ⊢
  generalize play race.2 ignoringCheck = refusal at returns code queen
  rw [code] at returns
  refine ⟨race.2, refusal.2, run, returns, pawn, queen, fun same => ?_⟩
  rw [same, pawn] at queen
  exact PieceType.noConfusion queen

end Chessh
