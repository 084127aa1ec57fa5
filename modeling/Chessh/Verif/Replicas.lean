import Chessh.Verif.Atomicity
import Chessh.Verif.Clock
import Chessh.Verif.Parting

/-!
# The two clients hold the same game

Only played moves are sent, so the games of the two clients stay the same as long as the
refused ones leave the men alone. `Execution.replicas_agree` shows that this suffices: the
owners of empty squares, in which the games may differ, decide nothing. In `replicas_differ` a
refused promotion has left a queen in one of the games.
-/

namespace Chessh

open Rules (Side Kind Man Square Wing Ply Position InCheck Inside)

/-- The games agree on the men and how often they moved, and on both clocks. -/
structure Agree (g h : Game) : Prop where
  /-- The same squares are empty, and the others hold pieces of the same type. -/
  type : ∀ r c, (g.get r c).type = (h.get r c).type
  /-- The pieces have the same owner. -/
  owner : ∀ r c, (g.get r c).type ≠ .empty → (g.get r c).player = (h.get r c).player
  /-- They have moved equally often. -/
  moves : ∀ r c, (g.get r c).type ≠ .empty → (g.get r c).moves = (h.get r c).moves
  /-- Equally many turns were played. -/
  duration : g.duration = h.duration
  /-- The last big move was made at the same time. -/
  big : g.lastBigMove = h.lastBigMove

/-- Agreement is symmetric. -/
theorem Agree.symm {g h : Game} (agree : Agree g h) : Agree h g where
  type r c := (agree.type r c).symm
  owner r c full := (agree.owner r c (by rwa [agree.type])).symm
  moves r c full := (agree.moves r c (by rwa [agree.type])).symm
  duration := agree.duration.symm
  big := agree.big.symm

section Refused

variable {g h after : Game} {pos : Position}

/-- A scribble that keeps the types keeps the men. -/
theorem Scribbled.kept (scribbled : Scribbled g after)
    (types : ∀ r c, (after.get r c).type = (g.get r c).type) {r c : Int}
    (full : (g.get r c).type ≠ .empty) : after.get r c = g.get r c := by
  rcases scribbled.square r c with kept | ⟨empty, -⟩ | ⟨pawn, -, t, named, made⟩
  · exact kept
  · exact absurd empty full
  · have same := types r c
    rw [made, pawn] at same
    obtain rfl : t = .pawn := same
    cases named

/-- Such a scribble keeps an agreement. -/
theorem Agree.scribbled (agree : Agree g h) (scribbled : Scribbled g after)
    (types : ∀ r c, (after.get r c).type = (g.get r c).type) : Agree after h where
  type r c := (types r c).trans (agree.type r c)
  owner r c full := by
    rw [types] at full
    rw [scribbled.kept types full]
    exact agree.owner r c full
  moves r c full := by
    rw [types] at full
    rw [scribbled.kept types full]
    exact agree.moves r c full
  duration := scribbled.duration.trans agree.duration
  big := scribbled.big.trans agree.big

/-- It keeps what stands on every square. -/
theorem Scribbled.man (scribbled : Scribbled g after)
    (types : ∀ r c, (after.get r c).type = (g.get r c).type) (r c : Int) :
    (after.get r c).man = (g.get r c).man := by
  by_cases empty : (g.get r c).type = .empty
  · rw [man_empty empty, man_empty ((types r c).trans empty)]
  · rw [scribbled.kept types empty]

/-- It keeps the position the game stands for. -/
theorem Tracks.scribbled (tracks : Tracks g pos) (sound : Sound after)
    (scribbled : Scribbled g after)
    (types : ∀ r c, (after.get r c).type = (g.get r c).type) : Tracks after pos := by
  have man := scribbled.man types
  have unmoved : ∀ {side kind r c}, Unmoved after side kind r c ↔ Unmoved g side kind r c := by
    intro side kind r c
    rw [Unmoved, man, scribbled.moves]
    rfl
  refine ⟨sound, ?_, tracks.wf, ?_, ?_, ?_, ?_, ?_, ?_, ?_⟩
  · intro r c nobody
    rw [man] at nobody
    rw [types]
    exact tracks.known r c nobody
  · rw [tracks.board]
    funext s
    obtain ⟨r, c⟩ := s
    exact (man r c).symm
  · rw [← tracks.turn, getPlayer, scribbled.duration]
    rfl
  · intro side wing
    rw [unmoved, unmoved]
    exact tracks.rights side wing
  · intro side r c x y king rook
    exact tracks.home side r c x y (unmoved.mp king) (unmoved.mp rook)
  · intro side r c pawn
    rw [man] at pawn
    rw [scribbled.moves]
    exact tracks.start side r c pawn
  · intro r c pawn once
    rw [types] at pawn
    rw [scribbled.moves] at once
    rw [scribbled.lastMove, scribbled.duration]
    exact tracks.past r c pawn once
  · intro c
    rw [man, scribbled.moves, scribbled.lastMove, scribbled.duration]
    exact tracks.passing c

end Refused

section Played

variable {g h after after' : Game} {pos : Position} {m : Move} {code code' : Int}

/-- A move lands alike on games that agree. -/
theorem Agree.landed {captured rook : Option (Int × Int)} (agree : Agree g h)
    (full : (g.get m.rI m.cI).type ≠ .empty) (landed : Landed g m captured rook after)
    (landed' : Landed h m captured rook after') {r c : Int}
    (there : (after.get r c).type ≠ .empty) (there' : (after'.get r c).type ≠ .empty) :
    (after.get r c).moves = (after'.get r c).moves := by
  have emptied : ∀ {p q : Piece}, p = { q with type := .empty } → p.type = .empty := by
    rintro p q rfl
    rfl
  rcases landed.square r c with ⟨rfl, rfl⟩ | ⟨a, columns, rfl⟩ | gone | kept
  · rw [landed.target, landed'.target]
    exact congrArg (· + 1) (agree.moves _ _ full)
  · rw [landed.rookTarget a c columns] at there ⊢
    rw [landed'.rookTarget a c columns]
    exact congrArg (· + 1) (agree.moves _ _ there)
  · exact absurd (emptied gone) there
  · rcases landed'.square r c with ⟨rfl, rfl⟩ | ⟨a, columns, rfl⟩ | gone | kept'
    · rw [landed.target, landed'.target]
      exact congrArg (· + 1) (agree.moves _ _ full)
    · rw [landed.rookTarget a c columns] at there ⊢
      rw [landed'.rookTarget a c columns]
      exact congrArg (· + 1) (agree.moves _ _ there)
    · exact absurd (emptied gone) there'
    · rw [kept] at there ⊢
      rw [kept']
      exact agree.moves r c there

/-- What a played move does to the counters of the men. -/
theorem Tracks.lands (tracks : Tracks g pos) (made : Made g m code after)
    (played : Accepted code) :
    ∃ landing, Landed g m (pos.casualty m.ply) (rookColumns pos m) landing ∧
      Scribbled landing after := by
  rcases made.effect tracks.sound with
    ⟨refused, -⟩ | ⟨-, v, landing, judged, ok, -, landed, -, scribbled⟩
  · exact absurd played refused
  obtain ⟨-, captured, rook⟩ := tracks.pseudo judged ok
  rw [captured, rook] at landed
  exact ⟨landing, landed, scribbled⟩

/-- Games that track one position hold the same men. -/
theorem Tracks.same_men (tracks : Tracks g pos) (tracks' : Tracks h pos) (r c : Int) :
    (g.get r c).type = (h.get r c).type ∧
      ((g.get r c).type ≠ .empty → (g.get r c).player = (h.get r c).player) := by
  have man := (tracks.get r c).symm.trans (tracks'.get r c)
  by_cases empty : (g.get r c).type = .empty
  · exact ⟨empty.trans ((tracks'.free r c).mp ((tracks.free r c).mpr empty)).symm, (absurd empty ·)⟩
  · obtain ⟨side, kind, there⟩ := tracks.known.man empty
    obtain ⟨type, owner⟩ := man_eq_some.mp there
    rw [man] at there
    obtain ⟨type', owner'⟩ := man_eq_some.mp there
    exact ⟨type.trans type'.symm, fun _ => owner.trans owner'.symm⟩

/-- On games that agree and track one position a call that reports no end has the same code,
and leads to games that agree and track the next position. -/
theorem Agree.played (agree : Agree g h) (tracks : Tracks g pos) (tracks' : Tracks h pos)
    (made : Made g m code after) (nonneg : 0 ≤ code) (made' : Made h m code' after') :
    code' = code ∧ Tracks after (pos.play m.ply) ∧ Tracks after' (pos.play m.ply) ∧
      Agree after after' := by
  rcases tracks.made made with ⟨refused, -⟩ | ⟨played, legal, -, next, reports⟩
  · exact absurd (accepted_of_nonneg nonneg) refused
  rcases tracks'.made made' with ⟨-, illegal⟩ | ⟨played', -, -, next', reports'⟩
  · exact absurd legal illegal
  obtain ⟨turn, marked⟩ := tracks.turn_after made played
  obtain ⟨turn', marked'⟩ := tracks'.turn_after made' played'
  have duration : after.duration = after'.duration := by rw [turn, turn', agree.duration]
  have big : after.lastBigMove = after'.lastBigMove := by
    rw [marked, marked', agree.duration, agree.big]
  have time : clock after = clock after' := by rw [clock, clock, duration, big]
  have player : getPlayer h = getPlayer g := by rw [tracks.turn, tracks'.turn]
  rw [player] at reports'
  have same := reports'.unique reports time.symm
  have following := next nonneg
  have following' := next' (same ▸ nonneg)
  have men := following.same_men following'
  refine ⟨same, following, following', fun r c => (men r c).1, fun r c => (men r c).2,
    fun r c full => ?_, duration, big⟩
  obtain ⟨landing, landed, scribbled⟩ := tracks.lands made played
  obtain ⟨landing', landed', scribbled'⟩ := tracks'.lands made' played'
  obtain ⟨kind, own⟩ := legal.2.2.1.own
  have source : (g.get m.rI m.cI).type ≠ .empty := by
    rw [(man_eq_some.mp ((tracks.get _ _).symm.trans own)).1]
    exact typeOf_ne_empty kind
  rw [scribbled.moves, scribbled'.moves]
  apply agree.landed source landed landed'
  · rwa [ne_eq, ← scribbled.empty_iff]
  · rwa [ne_eq, ← scribbled'.empty_iff, ← (men r c).1]

end Played

/-! ## Executions -/

/-- The games of the two clients track one position and agree. -/
def Mirrored (g h : Game) : Prop := ∃ pos, Tracks g pos ∧ Tracks h pos ∧ Agree g h

/-- The exchange keeps the games alike when no refused move changes a piece, and nothing ends
in an unknown error. -/
theorem mirrored_link : Link Mirrored (fun g m => ¬ Retypes g m) (· ≠ .unknownError) where
  sound := by
    rintro g h ⟨pos, tracks, -⟩
    exact tracks.sound
  symm := by
    rintro g h ⟨pos, tracks, tracks', agree⟩
    exact ⟨pos, tracks', tracks, agree.symm⟩
  turns := by
    rintro g h ⟨pos, -, -, agree⟩
    exact agree.duration
  refused := by
    rintro g h m code after ⟨pos, tracks, tracks', agree⟩ quiet returns refused
    have made := returns.made tracks.sound
    have scribbled := returns.no_turn tracks.sound refused
    have types : ∀ r c, (after.get r c).type = (g.get r c).type := by
      cases made with
      | refused tried rejected =>
        refine tried.types ?_ quiet
        rcases rejected with rfl | rfl <;> decide
      | expired | offered | continued | stalemated => exact absurd (by decide) refused
      | mated =>
        refine absurd ?_ refused
        split <;> decide
    exact ⟨pos, tracks.scribbled (made.sound tracks.sound) scribbled types, tracks',
      agree.scribbled scribbled types⟩
  decided := by
    rintro g h m code after msg ⟨pos, tracks, -⟩ returns accepted ends rfl
    rcases tracks.made (returns.made tracks.sound) with ⟨refused, -⟩ | ⟨-, -, -, -, reports⟩
    · exact refused accepted
    · cases reports with
      | expired _ result | offered _ _ result | continued _ _ result | stalemated _ _ _ result =>
        rw [result] at ends
        exact absurd ends (by decide)
      | mated _ _ result =>
        rw [result] at ends
        revert ends
        split <;> decide
  played := by
    rintro g h m code after code' after' ⟨pos, tracks, tracks', agree⟩ returns nonneg returns'
    obtain ⟨rfl, next, next', agree'⟩ := agree.played tracks tracks' (returns.made tracks.sound)
      nonneg (returns'.made tracks'.sound)
    exact Or.inl ⟨nonneg, _, next, next', agree'⟩
  io := by decide

/-- The event is a move whose refusal changes a piece. -/
def Event.Retypes (s : System) : Event → Prop
  | .names i c₁ c₂ => Chessh.Retypes (s.game i) (apiGetMove c₁ c₂)
  | .hangsUp _ | .reads _ => False

/-- New games agree, whatever the memory held. -/
theorem newGame_agree (memory memory' : Game) : Agree (newGame memory) (newGame memory') := by
  have men := (newGame_tracks memory).same_men (newGame_tracks memory')
  exact ⟨fun r c => (men r c).1, fun r c => (men r c).2,
    fun r c _ => (newGame_moves memory r c).trans (newGame_moves memory' r c).symm, rfl, rfl⟩

/-- A text under way was written by the opponent, and is accepted. -/
theorem Phase.message {s : System} (phase : Phase Mirrored (· ≠ .unknownError) s) {i : Fin 2}
    (run : s.ended i = none) (filled : s.pipe i ≠ []) :
    ∃ c₁ c₂ code after, s.pipe i = apiText c₁ c₂ ++ [nul] ∧ currPlayer (s.game i) ≠ i ∧
      Sound (s.game i) ∧ Returns (s.game i) (apiGetMove c₁ c₂) code after ∧ 0 ≤ code ∧
      Agree after (s.game (peer i)) := by
  cases phase with
  | idle related running drained => exact absurd (drained i) filled
  | sent j c₁ c₂ before code related turn returns nonneg running drained message =>
    rcases eq_or_peer j i with rfl | rfl
    · exact absurd drained filled
    obtain ⟨pos, tracks, tracks', agree⟩ := related
    obtain ⟨code', after, answer, made⟩ := tracks'.sound.returns (apiGetMove c₁ c₂)
    obtain ⟨rfl, -, -, agree'⟩ :=
      agree.played tracks tracks' (returns.made tracks.sound) nonneg made
    refine ⟨c₁, c₂, code', after, message, ?_, tracks'.sound, answer, nonneg, ?_⟩
    · rw [← currPlayer_congr agree.duration, turn]
      exact (peer_ne j).symm
    · rw [peer_peer]
      exact agree'.symm
  | parted j msg ended fine drained rest =>
    rcases eq_or_peer j i with rfl | rfl
    · rw [ended] at run
      cases run
    · exact absurd drained filled

/-- When a text under way has been read, the reader goes on and the games agree. -/
theorem Phase.message_read {s next : System} (phase : Phase Mirrored (· ≠ .unknownError) s)
    {i : Fin 2} (filled : s.pipe i ≠ []) (step : Step s (.reads i) next) :
    next.ended i = none ∧ next.pipe i = [] ∧ Agree (next.game 0) (next.game 1) := by
  have run : s.ended i = none := by
    cases step with
    | read run | eof run => exact run
  obtain ⟨c₁, c₂, code, after, message, -, sound, returns, nonneg, agree⟩ :=
    phase.message run filled
  obtain ⟨code', after', returns', rfl⟩ := step.of_message sound message
  obtain ⟨rfl, rfl⟩ := returns.unique returns'
  have zero : readCode code = 0 := if_neg (by omega)
  refine ⟨?_, update_self _ _ _, ?_⟩
  · simp only [update_self, zero]
    rfl
  · have either : ∀ j, Agree (Function.update s.game i after j)
        (Function.update s.game i after (peer j)) := by
      intro j
      rcases eq_or_peer i j with rfl | rfl
      · rw [update_self, update_peer]
        exact agree
      · rw [peer_peer, update_self, update_peer]
        exact agree.symm
    exact either 0

/-- In every execution in which no refused move changes a piece, a move that has been written is
accepted by the client it was written to, and once it is applied the games agree; they agree
whenever both clients run and no text is under way; and no client ends with an unknown
error. -/
theorem Execution.replicas_agree {memory : Fin 2 → Game} {history : List (System × Event)}
    {s : System} (exec : Execution (System.start memory) history s)
    (quiet : ∀ moment ∈ history, ¬ moment.2.Retypes moment.1) :
    (∀ i, s.ended i = none → s.pipe i ≠ [] → ∃ m code after,
      parseMove (cString (s.pipe i)) = some m ∧ Returns (s.game i) m code after ∧ 0 ≤ code ∧
      ∃ next, Step s (.reads i) next) ∧
    (∀ i next, s.pipe i ≠ [] → Step s (.reads i) next →
      next.ended i = none ∧ next.pipe i = [] ∧ Agree (next.game 0) (next.game 1)) ∧
    ((∀ i, s.ended i = none ∧ s.pipe i = []) → Agree (s.game 0) (s.game 1)) ∧
    ∀ i, s.ended i ≠ some .unknownError := by
  have start : Phase Mirrored (· ≠ .unknownError) (System.start memory) := by
    refine .idle (fun i => ?_) (fun _ => rfl) fun _ => rfl
    exact ⟨_, newGame_tracks _, newGame_tracks _, newGame_agree _ _⟩
  have phase : Phase Mirrored (· ≠ .unknownError) s := by
    refine exec.phase mirrored_link start fun moment mem => ?_
    have still := quiet moment mem
    obtain ⟨t, event⟩ := moment
    cases event with
    | names i c₁ c₂ => exact still
    | hangsUp | reads => trivial
  refine ⟨fun i run filled => ?_, fun i next => phase.message_read, fun both => ?_,
    fun i unknown => phase.fine mirrored_link unknown rfl⟩
  · obtain ⟨c₁, c₂, code, after, message, waiting, -, returns, nonneg, -⟩ :=
      phase.message run filled
    refine ⟨_, code, after, ?_, returns, nonneg, _, .reads_message run rfl waiting message returns⟩
    rw [message, apiText, (apiGetMove_sendable c₁ c₂).message.2.2]
    exact (apiGetMove_sendable c₁ c₂).parseMove_text
  · cases phase with
    | idle related running drained =>
      obtain ⟨pos, -, -, agree⟩ := related 0
      exact agree
    | sent j c₁ c₂ before code related turn returns nonneg running drained message =>
      rw [(both (peer j)).2] at message
      simp at message
    | parted j msg ended =>
      rw [(both j).1] at ended
      cases ended

/-- White's pawn advances, and Black's client accepts the text it is sent. -/
theorem replicas_agree_opening :
    ∃ s m code after,
      Execution (System.start fun _ => blank)
        [(System.start fun _ => blank, .names 0 208 144)] s ∧
      parseMove (cString (s.pipe 1)) = some m ∧ Returns (s.game 1) m code after ∧ 0 ≤ code := by
  have returns := (newGame_sound blank).played (apiGetMove 208 144)
  have zero : (play (newGame blank) (apiGetMove 208 144)).1 = 0 := by decide +kernel
  rw [zero] at returns
  obtain ⟨s, step, -, -, running, message⟩ :=
    Step.sends (s := System.start fun _ => blank) (i := 0) rfl rfl rfl returns le_rfl
  have exec := Execution.start.step step
  have pawn : ((newGame blank).get 6 4).type = .pawn := by decide
  have quiet : ¬ Retypes (newGame blank) (apiGetMove 208 144) := by
    rintro (⟨-, -, -, last⟩ | ⟨-, king⟩ | ⟨-, king⟩ | ⟨-, king⟩)
    · revert last
      decide
    · exact PieceType.noConfusion (pawn.symm.trans king)
    · exact PieceType.noConfusion (pawn.symm.trans king)
    · exact PieceType.noConfusion (pawn.symm.trans king)
  have agree := exec.replicas_agree fun moment mem => by
    rw [List.mem_singleton.mp mem]
    exact quiet
  have filled : s.pipe 1 ≠ [] := by
    rw [show (1 : Fin 2) = peer 0 from rfl, message]
    simp
  obtain ⟨m, code, after, parsed, answer, nonneg, -⟩ := agree.1 1 running filled
  exact ⟨s, m, code, after, exec, parsed, answer, nonneg⟩

/-- The bytes of `pawnRace`. -/
def pawnRaceBytes : List (UInt8 × UInt8) :=
  [(192, 128), (4, 72), (128, 96), (72, 140), (96, 64), (60, 92), (64, 36), (140, 200)]

/-- The games differ where a refused promotion is kept and the next move is played with or without
it. -/
theorem Execution.differs {start : System} {history : List (System × Event)} {g : Game}
    (exec : Execution start history (resting g)) (sound : Sound g) (turn : getPlayer g = .white)
    (refused : (play g ignoringCheck).1 = illegalMove)
    (turn' : getPlayer (play g ignoringCheck).2 = .white)
    (zero : (play (play g ignoringCheck).2 answeringCheck).1 = 0)
    (queen : ((play (play g ignoringCheck).2 answeringCheck).2.get 1 1).type = .queen)
    (zero' : (play g answeringCheck).1 = 0)
    (pawn : ((play g answeringCheck).2.get 1 1).type = .pawn) :
    ∃ history s next, Execution start history s ∧
      Step s (.reads 1) next ∧ next.ended 1 = none ∧
      ((next.game 0).get 1 1).type = .queen ∧ ((next.game 1).get 1 1).type = .pawn ∧
      ¬ Agree (next.game 0) (next.game 1) := by
  have promotion : ignoringCheck = apiGetMove 38 3 := by decide
  have answer : answeringCheck = apiGetMove 236 200 := by decide
  rw [promotion] at refused turn' zero queen
  rw [answer] at zero queen zero' pawn
  have white : ∀ g, getPlayer g = .white → currPlayer g = 0 := fun g white => if_pos white
  have promotes := sound.played (apiGetMove 38 3)
  have takes' := sound.played (apiGetMove 236 200)
  rw [refused] at promotes
  rw [zero'] at takes'
  have sound' := (promotes.made sound).sound sound
  generalize (play g (apiGetMove 38 3)).2 = spoiled at *
  have takes := sound'.played (apiGetMove 236 200)
  rw [zero] at takes
  obtain ⟨s₁, step₁, game₁, other₁, ended₁, pipe₁⟩ :=
    Step.refuses (s := resting g) (i := 0) rfl (white g turn) promotes (Or.inl rfl)
  subst game₁
  obtain ⟨s₂, step₂, game₂, other₂, ended₂, message⟩ :=
    Step.sends (by rw [ended₁]; rfl) (white _ turn') (by rw [pipe₁]; rfl) takes le_rfl
  have running : s₂.ended 1 = none := ended₂.trans (by rw [ended₁]; rfl)
  have game : s₂.game 1 = g := other₂.trans other₁
  have read := Step.reads_message running game (by rw [white g turn]; decide) message takes'
  have men : (s₂.game 0).get 1 1 = _ := congrArg (fun h : Game => h.get 1 1) game₂
  refine ⟨_, s₂, _, (exec.step step₁).step step₂, read, ?_, ?_, ?_, fun agree => ?_⟩
  · simp only [update_self]
    rfl
  · exact (congrArg Piece.type men).trans queen
  · exact pawn
  · have same := agree.type 1 1
    exact PieceType.noConfusion (((congrArg Piece.type men).trans queen).symm.trans
      (same.trans pawn))

/-- White's player first promotes, which is refused, and then answers the check with the queen.
Black's client accepts the queen's move, and White's game has a second queen where Black's has
a pawn. -/
theorem replicas_differ :
    ∃ history s next, Execution (System.start fun _ => blank) history s ∧
      Step s (.reads 1) next ∧ next.ended 1 = none ∧
      ((next.game 0).get 1 1).type = .queen ∧ ((next.game 1).get 1 1).type = .pawn ∧
      ¬ Agree (next.game 0) (next.game 1) := by
  obtain ⟨played, turn, -, refused, turn', -, zero, queen, zero', pawn⟩ := pawnRace_codes
  have moves : named pawnRaceBytes = pawnRace := by decide
  obtain ⟨history, exec⟩ := Execution.exchanges pawnRaceBytes (newGame_sound blank)
    (by rw [moves]; exact played) ⟨[], Execution.start⟩
  rw [moves] at exec
  exact exec.differs ((Run.start.replayed (newGame_sound blank) pawnRace).sound
    (newGame_sound blank))
    turn refused turn' zero queen zero' pawn

end Chessh
