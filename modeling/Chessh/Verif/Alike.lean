import Chessh.Verif.Image

/-!
# Calls on games that look alike

`make_move` returns the same code on two games that look alike, with the winners exchanged
where the sides are, and leaves games that look alike again. From opposite sides this needs
that no player has two kings, since `is_in_check` looks for the first one.
-/

namespace Chessh

/-! ## One king a side -/

/-- No player has two kings. -/
def Lone (g : Game) : Prop :=
  ∀ r c x y, (g.get r c).type = .king → (g.get x y).type = .king →
    (g.get r c).player = (g.get x y).player → r = x ∧ c = y

/-- A scribble makes no king. -/
theorem Lone.scribbled {g after : Game} (lone : Lone g) (scribbled : Scribbled g after) :
    Lone after := by
  have before : ∀ r c, (after.get r c).type = .king → after.get r c = g.get r c := by
    intro r c king
    rcases scribbled.square r c with kept | ⟨free, owner, owned⟩ | ⟨-, -, t, named, made⟩
    · exact kept
    · rw [owned] at king
      exact absurd (free.symm.trans king) (by decide)
    · rw [made] at king
      obtain rfl : t = .king := king
      cases named
  intro r c x y king king' same
  have here := before r c king
  have there := before x y king'
  rw [here] at king same
  rw [there] at king' same
  exact lone r c x y king king' same

/-- A landing makes no second king, when what arrives as a king was one. -/
theorem Lone.landed {g after : Game} {m : Move} {captured rook : Option (Int × Int)} (lone : Lone g)
    (landed : Landed g m captured rook after)
    (arrives : arrivalType g m = .king → (g.get m.rI m.cI).type = .king)
    (rooks : ∀ a b, rook = some (a, b) → (g.get m.rI a).type ≠ .king) : Lone after := by
  -- a king stood on the initial square, or where it is
  have before : ∀ r c, (after.get r c).type = .king →
      (r = m.rF ∧ c = m.cF ∧ (g.get m.rI m.cI).type = .king ∧
        (after.get r c).player = (g.get m.rI m.cI).player) ∨
      (¬ (r = m.rI ∧ c = m.cI) ∧ after.get r c = g.get r c) := by
    intro r c king
    rcases landed.square r c with ⟨rfl, rfl⟩ | ⟨a, columns, rfl⟩ | emptied | kept
    · rw [landed.target] at king ⊢
      exact Or.inl ⟨rfl, rfl, arrives king, rfl⟩
    · rw [landed.rookTarget a c columns] at king
      exact absurd king (rooks a c columns)
    · rw [emptied] at king
      cases king
    · refine Or.inr ⟨?_, kept⟩
      intro here
      rw [here.1, here.2, landed.source] at king
      cases king
  intro r c x y king king' same
  rcases before r c king with ⟨row, column, there, owner⟩ | ⟨away, kept⟩ <;>
    rcases before x y king' with ⟨row', column', there', owner'⟩ | ⟨away', kept'⟩
  · exact ⟨row.trans row'.symm, column.trans column'.symm⟩
  · rw [owner, kept'] at same
    rw [kept'] at king'
    have here := lone _ _ _ _ there king' same
    exact absurd ⟨here.1.symm, here.2.symm⟩ away'
  · rw [kept, owner'] at same
    rw [kept] at king
    exact absurd (lone _ _ _ _ king there' same) away
  · rw [kept, kept'] at same
    rw [kept] at king
    rw [kept'] at king'
    exact lone _ _ _ _ king king' same

/-- An accepted move makes no second king. -/
theorem Judged.lone {g : Game} {m : Move} {player : Player} {v : Verdict} (sound : Sound g)
    (lone : Lone g) (judged : Judged g m player v) (ok : 0 ≤ v.code) : Lone (v.apply m) := by
  apply lone.landed (judged.landed sound.home ok)
  · cases judged with
    | refused | unpromoted | stopped => simp [Verdict.plain, illegalMove, missingPromotion] at ok
    | officer mine kind => exact fun arrives => by rwa
      [arrivalType, if_neg fun h => kind h.1] at arrives
    | pawn mine kind goes early =>
      exact fun arrives => by rwa [arrivalType, if_neg fun h => early h.2] at arrives
    | promoted mine kind goes last named =>
      intro arrives
      rw [arrivalType, if_pos ⟨kind, last⟩] at arrives
      rw [arrives] at named
      cases named
    | castled mine kind => exact fun _ => kind
  · intro a b columns
    cases judged with
    | refused | unpromoted | stopped => simp [Verdict.plain, illegalMove, missingPromotion] at ok
    | officer | pawn | promoted => cases columns
    | castled mine kind castling =>
      have placed : m.rI ≠ -1 := by
        have := mine.onS.1
        omega
      rw [Verdict.rook, if_neg placed] at columns
      cases columns
      rw [castling.rook]
      decide

/-- The search finds the king. -/
theorem findKing_iff {g : Game} (lone : Lone g) {player : Player} {r c : Int} :
    findKing g player = some (r, c) ↔ (g.get r c).type = .king ∧ (g.get r c).player = player := by
  refine ⟨fun found => (findKing_some found).2, fun there => ?_⟩
  cases found : findKing g player with
  | none =>
    have on : OnBoard r c := onBoard_of_type_ne_empty (by rw [there.1]; decide)
    have missed := List.find?_eq_none.mp found (r, c) ((mem_squares (r, c)).mpr on)
    simp [there.1, there.2] at missed
  | some s =>
    obtain ⟨-, king, owner⟩ := findKing_some found
    have same := lone _ _ _ _ king there.1 (owner.trans there.2.symm)
    rw [← same.1, ← same.2]

/-- A player is in check when every king of the player is struck. -/
theorem checked_iff {g : Game} (lone : Lone g) {player : Player} :
    Checked g player ↔
      ∀ r c, (g.get r c).type = .king → (g.get r c).player = player → Struck g r c player := by
  unfold Checked checkProbe
  cases found : findKing g player with
  | none =>
    refine ⟨fun _ r c king owner => ?_, fun _ => rfl⟩
    rw [(findKing_iff lone).mpr ⟨king, owner⟩] at found
    cases found
  | some s =>
    have there := (findKing_iff lone).mp found
    refine probe_fst.trans ⟨fun struck r c king owner => ?_, fun all => all _ _ there.1 there.2⟩
    have same := lone _ _ _ _ king there.1 (owner.trans there.2.symm)
    rw [same.1, same.2]
    exact struck

/-! ## Landing and check -/

section Alike

variable {flip : Bool} {shift : Int} {g h : Game}

/-- The other game has no second king either. -/
theorem Image.lone (image : Image flip shift g h) (lone : Lone g) : Lone h := by
  intro r c x y king king' same
  have full : (h.get r c).type ≠ .empty := by
    rw [king]
    decide
  have full' : (h.get x y).type ≠ .empty := by
    rw [king']
    decide
  have here := image.symm.square r c
  have there := image.symm.square x y
  have found := lone _ _ _ _ (here.type.trans king) (there.type.trans king')
    (by rw [here.owner full, there.owner full', same])
  exact ⟨turnRow_inj.mp found.1, found.2⟩

section Landing

variable {m : Move} {captured rook : Option (Int × Int)} {after after' : Game}
  (image : Image flip shift g h) (lands : Landed g m captured rook after)
  (lands' : Landed h (m.turned flip) (captured.map (turnSquare flip)) rook after')

include image lands lands'

/-- The moving pieces arrive alike. -/
theorem Image.arrived (full : (g.get m.rI m.cI).type ≠ .empty) :
    Counterpart flip shift (after.get m.rF m.cF) (after'.get (turnRow flip m.rF) m.cF) := by
  have source := image.square m.rI m.cI
  have time := image.duration
  have row := image.lastRow full
  have kind : (h.get (m.turned flip).rI (m.turned flip).cI).type = (g.get m.rI m.cI).type :=
    source.type
  rw [lands.target]
  show Counterpart flip shift _ (after'.get (m.turned flip).rF (m.turned flip).cF)
  rw [lands'.target]
  refine ⟨?_, fun _ => source.known full, fun _ => source.owner full, fun _ => ?_, fun _ _ => ?_⟩
  · simp only [arrivalType, kind, row]
    rfl
  · exact congrArg (· + 1) (source.moves full)
  · show h.duration + 1 = g.duration + 1 + shift
    omega

/-- The castling rooks arrive alike. -/
theorem Image.castled {a b : Int} (columns : rook = some (a, b)) :
    Counterpart flip shift (after.get m.rI b) (after'.get (turnRow flip m.rI) b) := by
  have corner := image.square m.rI a
  have time := image.duration
  rw [lands.rookTarget a b columns]
  show Counterpart flip shift _ (after'.get (m.turned flip).rI b)
  rw [lands'.rookTarget a b columns]
  refine ⟨corner.type, corner.known, corner.owner, fun there => ?_, fun _ _ => ?_⟩
  · exact congrArg (· + 1) (corner.moves there)
  · show h.duration + 1 = g.duration + 1 + shift
    omega

/-- A square that neither piece leaves or reaches keeps what it has. -/
theorem Image.framed {r c : Int} (target : ¬ (r = m.rF ∧ c = m.cF)) (left : ¬ (r = m.rI ∧ c = m.cI))
    (casualty : captured ≠ some (r, c))
    (far : ∀ a b, rook = some (a, b) → r = m.rI → c ≠ a ∧ c ≠ b) :
    Counterpart flip shift (after.get r c) (after'.get (turnRow flip r) c) := by
  rw [lands.frame r c target left casualty far, lands'.frame (turnRow flip r) c ?_ ?_ ?_ ?_]
  · exact image.square r c
  · exact fun here => target ⟨turnRow_inj.mp here.1, here.2⟩
  · exact fun here => left ⟨turnRow_inj.mp here.1, here.2⟩
  · intro taken
    obtain ⟨s, there, same⟩ := Option.map_eq_some_iff.mp taken
    have row : turnRow flip s.1 = turnRow flip r := congrArg Prod.fst same
    have column : s.2 = c := congrArg Prod.snd same
    exact casualty (there.trans (congrArg some (Prod.ext (turnRow_inj.mp row) column)))
  · exact fun a b columns row => far a b columns (turnRow_inj.mp row)

/-- A move lands alike. -/
theorem Image.landed (full : (g.get m.rI m.cI).type ≠ .empty) : Image flip shift after after' where
  parity := image.parity
  duration := by
    have time := image.duration
    rw [lands.duration, lands'.duration]
    omega
  big := by
    have time := image.duration
    have big := image.big
    have target : (h.get (m.turned flip).rF (m.turned flip).cF).type = (g.get m.rF m.cF).type :=
      image.type m.rF m.cF
    rw [lands.big, lands'.big, target]
    simp only [ne_eq, Option.map_eq_none_iff]
    split <;> omega
  square r c := by
    by_cases target : r = m.rF ∧ c = m.cF
    · rw [target.1, target.2]
      exact image.arrived lands lands' full
    by_cases left : r = m.rI ∧ c = m.cI
    · have here := lands'.source
      rw [left.1, left.2, lands.source]
      show Counterpart flip shift _ (after'.get (m.turned flip).rI (m.turned flip).cI)
      rw [here]
      exact .empty rfl rfl
    by_cases casualty : captured = some (r, c)
    · have gone := lands'.taken (turnRow flip r) c (by rw [casualty]; rfl)
      rw [lands.taken r c casualty, gone]
      exact .empty rfl rfl
    by_cases castled : ∃ a, rook = some (a, c) ∧ r = m.rI
    · obtain ⟨a, columns, row⟩ := castled
      rw [row]
      exact image.castled lands lands' columns
    by_cases corner : ∃ b, rook = some (c, b) ∧ r = m.rI
    · obtain ⟨b, columns, row⟩ := corner
      have here := lands'.rookSource c b columns
      rw [row, lands.rookSource c b columns]
      show Counterpart flip shift _ (after'.get (m.turned flip).rI c)
      rw [here]
      exact .empty rfl rfl
    refine image.framed lands lands' target left casualty fun a b columns row => ?_
    exact ⟨fun same => corner ⟨b, by rw [same]; exact columns, row⟩,
      fun same => castled ⟨a, by rw [same]; exact columns, row⟩⟩

end Landing

/-- Corresponding players are in check. -/
theorem Image.checked (image : Image flip shift g h) (lone : Lone g) {player : Player}
    (known : player.Known) : Checked h (turnPlayer flip player) ↔ Checked g player := by
  rw [checked_iff lone, checked_iff (image.lone lone)]
  constructor
  · intro all r c king owner
    have full : (g.get r c).type ≠ .empty := by
      rw [king]
      decide
    have there := all (turnRow flip r) c ((image.type r c).trans king)
      (by rw [(image.square r c).owner full, owner])
    exact (image.struck known r c).mp there
  · intro all r c king owner
    have full : (h.get r c).type ≠ .empty := by
      rw [king]
      decide
    have back := image.symm.square r c
    have there := all (turnRow flip r) c (back.type.trans king)
      (by rw [back.owner full, owner, turnPlayer_turnPlayer known])
    have struck := (image.struck known (turnRow flip r) c).mpr there
    rwa [turnRow_turnRow] at struck

/-- From the same side the check test leaves the same writes. -/
theorem Image.probed (image : Image false shift g h) (lone : Lone g) {player : Player}
    (known : player.Known) :
    Image false shift (checkProbe g player).2 (checkProbe h player).2 := by
  have found : findKing h player = findKing g player := by
    refine Option.ext fun s => ?_
    rw [findKing_iff lone, findKing_iff (image.lone lone)]
    have type : (h.get s.1 s.2).type = (g.get s.1 s.2).type := image.type s.1 s.2
    rw [type]
    refine and_congr_right fun king => ?_
    have full : (g.get s.1 s.2).type ≠ .empty := by
      rw [king]
      decide
    have owner : (h.get s.1 s.2).player = (g.get s.1 s.2).player :=
      (image.square s.1 s.2).owner full
    rw [owner]
  unfold checkProbe
  rw [found]
  cases findKing g player with
  | none => exact image
  | some s =>
    have claimed := (image.claim_left s.1 s.2 player).claim_right s.1 s.2 player
    simp only [probe, image.foremost known]
    cases firstAttacker g s.1 s.2 player with
    | none => exact claimed
    | some t => exact claimed.crowned t.1 t.2 s.1

/-! ## Calls -/

/-- The games after corresponding calls. From opposite sides they look alike when the game went
on or was drawn. -/
structure Paired (flip : Bool) (shift : Int) (code : Int) (after after' : Game) : Prop where
  /-- The first game is sound. -/
  sound : Sound after
  /-- So is the second one. -/
  sound' : Sound after'
  /-- No player has two kings. -/
  lone : Lone after
  /-- The games look alike. -/
  image : flip = false ∨ 0 ≤ code ∨ code = forcedDraw → Image flip shift after after'

variable (image : Image flip shift g h) (sound : Sound g) (sound' : Sound h) (lone : Lone g)

include image sound sound' lone

/-- Corresponding moves, up to the end of the game. -/
theorem Image.tried (m : Move) :
    ∃ code after after',
      (∀ depth, makeMoveNoCheckmate (depth + 1) g m = some (code, after)) ∧
      (∀ depth, makeMoveNoCheckmate (depth + 1) h (m.turned flip) = some (code, after')) ∧
      (code = 0 ∨ code = illegalMove ∨ code = missingPromotion) ∧
      Paired flip shift code after after' := by
  have known : (getPlayer g).Known := getPlayer_known g
  obtain ⟨v, v', asked, asked', alike⟩ := image.verdict sound sound' m known
  rw [← image.toMove] at asked'
  have judged : Judged g m (getPlayer g) v := by
    obtain ⟨w, answer, judged⟩ := isIllegal_judged sound.home m known
    rwa [Option.some.inj ((answer 0).symm.trans (asked 0))] at judged
  have judged' : Judged h (m.turned flip) (getPlayer h) v' := by
    obtain ⟨w, answer, judged'⟩ := isIllegal_judged sound'.home (m.turned flip) (getPlayer_known h)
    rwa [Option.some.inj ((answer 0).symm.trans (asked' 0))] at judged'
  have kept := lone.scribbled (judged.scribbled sound)
  unfold makeMoveNoCheckmate
  simp only [asked, asked', Option.bind_some, alike.code]
  by_cases negative : v.code < 0
  · simp only [negative, ↓reduceIte]
    have codes := judged.code_negative negative
    refine ⟨_, _, _, fun _ => rfl, fun _ => rfl, Or.inr codes, judged.sound sound,
      judged'.sound sound', kept, fun sides => alike.game (sides.imp_right fun drawn => ?_)⟩
    apply drawn.resolve_right
    rcases codes with code | code <;> rw [code] <;> decide
  have ok : 0 ≤ v.code := by omega
  have landed := judged.landed sound.home ok
  have landed' := judged'.landed sound'.home (by rw [alike.code]; exact ok)
  rw [alike.captured, alike.rook] at landed'
  have full := (judged.mine ok).full
  have applied := image.landed landed landed' full
  have loneAfter := judged.lone sound lone ok
  have check := applied.checked loneAfter known
  rw [← image.toMove] at check
  simp only [negative, ↓reduceIte, isInCheck_eq (sound.landed landed).cornered,
    isInCheck_eq (sound'.landed landed').cornered, Option.map_some]
  by_cases exposed : Checked (v.apply m) (getPlayer g)
  · refine ⟨illegalMove, v.game, v'.game, fun _ => ?_, fun _ => ?_, Or.inr (Or.inl rfl),
      judged.sound sound, judged'.sound sound', kept, fun _ => alike.game (Or.inr ok)⟩
    · rw [if_pos (show (checkProbe _ _).1 = true from exposed)]
    · rw [if_pos (show (checkProbe _ _).1 = true from check.mpr exposed)]
  · refine ⟨0, v.apply m, v'.apply (m.turned flip), fun _ => ?_, fun _ => ?_, Or.inl rfl,
      sound.landed landed, sound'.landed landed', loneAfter, fun _ => applied⟩
    · rw [checkProbe_safe exposed, judged.code_eq_zero ok]
      rfl
    · rw [checkProbe_safe fun other => exposed (check.mp other), judged.code_eq_zero ok]
      rfl

/-- Corresponding moves are played. -/
theorem Image.plays (m : Move) : Plays h (m.turned flip) ↔ Plays g m := by
  obtain ⟨code, after, after', asked, asked', -, -⟩ :=
    image.tried sound sound' lone m
  constructor
  · intro plays
    obtain ⟨final, played⟩ := plays
    have same := Option.some.inj ((asked' 0).symm.trans (played 0))
    have zero : code = 0 := congrArg Prod.fst same
    rw [zero] at asked
    exact ⟨after, asked⟩
  · intro plays
    obtain ⟨final, played⟩ := plays
    have same := Option.some.inj ((asked 0).symm.trans (played 0))
    have zero : code = 0 := congrArg Prod.fst same
    rw [zero] at asked'
    exact ⟨after', asked'⟩

/-- A player who can move can move on the other game as well. -/
theorem Image.canMove_of {player : Player} (can : CanMove g player) :
    CanMove h (turnPlayer flip player) := by
  obtain ⟨i, j, on, full, owner, r, c, on', plays⟩ := can
  refine ⟨turnRow flip i, j, onBoard_turnRow.mpr on, ?_, ?_, turnRow flip r, c,
    onBoard_turnRow.mpr on', ?_⟩
  · rw [image.type]
    exact full
  · rw [(image.square i j).owner full, owner]
  · exact (image.plays sound sound' lone ⟨i, j, r, c, .queen⟩).mpr plays

/-- Corresponding players can move. -/
theorem Image.canMove {player : Player} (known : player.Known) :
    CanMove h (turnPlayer flip player) ↔ CanMove g player := by
  refine ⟨fun can => ?_, image.canMove_of sound sound' lone⟩
  have back := image.symm.canMove_of sound' sound (image.lone lone) can
  rwa [turnPlayer_turnPlayer known] at back

omit sound sound' lone in
/-- The move clocks correspond. -/
theorem Image.clock : h.duration - h.lastBigMove = g.duration - g.lastBigMove := by
  have time := image.duration
  have big := image.big
  omega

omit sound sound' lone in
/-- The winners correspond. -/
theorem Image.winner :
    (if getPlayer h = .white then whiteWin else blackWin) =
      turnCode flip (if getPlayer g = .white then whiteWin else blackWin) := by
  rw [image.toMove]
  rcases getPlayer_known g with white | black
  · rw [white]
    cases flip <;> rfl
  · rw [black]
    cases flip <;> rfl

/-- A win leaves games that look alike from the same side. -/
theorem Image.won {player : Player} (known : player.Known) {code : Int}
    (win : code = whiteWin ∨ code = blackWin) :
    Paired flip shift code (checkProbe g player).2 (checkProbe h (turnPlayer flip player)).2 := by
  refine ⟨sound.checkProbe _, sound'.checkProbe _, lone.scribbled (checkProbe_scribbled sound _),
    fun sides => ?_⟩
  have near : flip = false := by
    apply sides.resolve_right
    rcases win with rfl | rfl <;> decide
  subst near
  exact image.probed lone known

/-- Corresponding calls return corresponding codes and leave corresponding games. -/
theorem Image.called (m : Move) :
    ∃ code after after',
      (∀ depth, makeMove (depth + 1) g m = some (code, after)) ∧
      (∀ depth, makeMove (depth + 1) h (m.turned flip) = some (turnCode flip code, after')) ∧
      Paired flip shift code after after' := by
  obtain ⟨code, after, after', asked, asked', codes, paired⟩ :=
    image.tried sound sound' lone m
  have known : (otherPlayer (getPlayer g)).Known := Player.Known.other (getPlayer_known g)
  have opponent : otherPlayer (getPlayer h) = turnPlayer flip (otherPlayer (getPlayer g)) := by
    rw [image.toMove, turnPlayer_other (getPlayer_known g)]
  obtain ⟨can, search, decides⟩ := canMakeMove_eq paired.sound (otherPlayer (getPlayer g))
  obtain ⟨can', search', decides'⟩ := canMakeMove_eq paired.sound' (otherPlayer (getPlayer h))
  unfold makeMove
  simp only [asked, asked', Option.bind_some]
  by_cases rejected : code = illegalMove ∨ code = missingPromotion
  · simp only [rejected, ↓reduceIte]
    have kept : turnCode flip code = code := by
      rcases rejected with rfl | rfl <;> exact turnCode_same (by decide) (by decide)
    exact ⟨code, after, after', fun _ => rfl, fun _ => by rw [kept], paired⟩
  obtain rfl : code = 0 := codes.resolve_right rejected
  have alike := paired.image (Or.inr (Or.inl le_rfl))
  have draw : turnCode flip forcedDraw = forcedDraw := turnCode_same (by decide) (by decide)
  have pair : ∀ {result : Int}, 0 ≤ result ∨ result = forcedDraw →
      Paired flip shift result after after' := fun _ =>
    ⟨paired.sound, paired.sound', paired.lone, fun _ => alike⟩
  simp only [rejected, alike.clock, ↓reduceIte]
  by_cases expired : 150 ≤ after.duration - after.lastBigMove
  · simp only [expired, ↓reduceIte]
    exact ⟨forcedDraw, after, after', fun _ => rfl, fun _ => by rw [draw], pair (Or.inr rfl)⟩
  simp only [expired, ↓reduceIte]
  by_cases offered : 100 ≤ after.duration - after.lastBigMove
  · simp only [offered, ↓reduceIte]
    exact ⟨drawOffer, after, after', fun _ => rfl,
      fun _ => by rw [turnCode_same (by decide) (by decide)], pair (Or.inl (by decide))⟩
  have same : can' = can := by
    have moves := alike.canMove paired.sound paired.sound' paired.lone known
    rw [← opponent] at moves
    exact Bool.eq_iff_iff.mpr (decides'.trans (moves.trans decides.symm))
  have check := alike.checked paired.lone known
  rw [← opponent] at check
  simp only [offered, ↓reduceIte, search, search', same, Option.bind_some,
    isInCheck_eq paired.sound.cornered, isInCheck_eq paired.sound'.cornered, Option.map_some]
  cases can with
  | true =>
    simp only [↓reduceIte]
    exact ⟨0, after, after', fun _ => rfl,
      fun _ => by rw [turnCode_same (by decide) (by decide)], pair (Or.inl le_rfl)⟩
  | false =>
    simp only [Bool.false_eq_true, ↓reduceIte]
    by_cases mated : Checked after (otherPlayer (getPlayer g))
    · refine ⟨if getPlayer g = .white then whiteWin else blackWin, _, _, fun _ => ?_, fun _ => ?_,
        alike.won paired.sound paired.sound' paired.lone known ?_⟩
      · rw [if_pos (show (checkProbe _ _).1 = true from mated)]
      · rw [if_pos (show (checkProbe _ _).1 = true from check.mpr mated), image.winner, opponent]
      · split
        · exact Or.inl rfl
        · exact Or.inr rfl
    · refine ⟨forcedDraw, after, after', fun _ => ?_, fun _ => ?_, pair (Or.inr rfl)⟩
      · rw [checkProbe_safe mated]
        rfl
      · rw [checkProbe_safe fun other => mated (check.mp other), draw]
        rfl

end Alike

/-- A new game has one king a side. -/
theorem newGame_lone (memory : Game) : Lone (newGame memory) := by
  have kings : ∀ i j : Fin 8, newType i j = .king → j.val = 4 ∧ (i.val = 0 ∨ i.val = 7) := by decide
  intro r c x y king king' same
  have on := onBoard_of_type_ne_empty (g := newGame memory) (by rw [king]; decide)
  have on' := onBoard_of_type_ne_empty (g := newGame memory) (by rw [king']; decide)
  obtain ⟨i, j, rfl, rfl⟩ := on.exists_fin
  obtain ⟨a, b, rfl, rfl⟩ := on'.exists_fin
  rw [newGame_get] at king king' same
  rw [newGame_get] at same
  obtain ⟨column, row⟩ := kings i j king
  obtain ⟨column', row'⟩ := kings a b king'
  refine ⟨?_, by omega⟩
  rcases row with row | row <;> rcases row' with row' | row' <;> simp [row, row'] at same ⊢

end Chessh
