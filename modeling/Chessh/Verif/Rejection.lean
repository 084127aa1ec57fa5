import Chessh.Verif.Listing
import Chessh.Verif.Loading
import Chessh.Verif.Session

/-!
# What a client is told of a rejected move

`get_player_move` tells of a rejected move through `report_msg` or through `report_error`, depending
on its code, and then starts its turn again. In the API `report_error` is empty. Here the turn is
written down as it passes, with each command to make a move between what is sent before and after
it.
-/

namespace Chessh

/-- `move_needs_promotion`. -/
def notifyMoveNeedsPromotion : UInt8 := 0x07

/-- What happens in a turn. -/
inductive TurnEvent
  /-- Bytes are written together. -/
  | sent (output : List UInt8)
  /-- The client has made a move in the game, and `make_move` has returned the code. -/
  | command (g : Game) (moveText : List Char) (moveCode : Int)

/-- The bytes that are written. -/
def TurnEvent.bytes : TurnEvent → List UInt8
  | .sent output => output
  | .command _ _ _ => []

/-- The event is a notification. -/
def TurnEvent.notifies (code : UInt8) : TurnEvent → Bool
  | .sent output => output = notify code
  | .command _ _ _ => false

/-- The code of a command. -/
def TurnEvent.moveCode : TurnEvent → Option Int
  | .sent _ => none
  | .command _ _ moveCode => some moveCode

/-- The loop of `get_player_move`, with what happens. -/
def getPlayerMoveEvents (depth : Nat) (outside : Outside) :
    Nat → Game → List UInt8 → Option (List TurnEvent)
  | 0, _, _ => none
  | turns + 1, g, input =>
    (getMoveLoop depth outside g input).bind fun asked =>
      let asking : List TurnEvent := [.sent (notify notifyYourTurn), .sent asked.output]
      match asked.text with
      | none => some asking
      | some moveText =>
        (tryMove depth g moveText).bind fun (moveCode, after) =>
          if moveCode < 0 ∧ moveCode ≠ illegalMove ∧ moveCode ≠ missingPromotion then
            some (asking ++ [.command g moveText moveCode])
          else if moveCode = illegalMove then
            (getPlayerMoveEvents depth outside turns after asked.input).map
              (asking ++ [.command g moveText moveCode, .sent (reportMsg .illegalMove)] ++ ·)
          else if moveCode = missingPromotion then
            (getPlayerMoveEvents depth outside turns after asked.input).map
              (asking ++ [.command g moveText moveCode, .sent (reportError missingPromotion)] ++ ·)
          else some (asking ++ [.command g moveText moveCode])

/-- What is written behind other output. -/
theorem events_behind {events : Option (List TurnEvent)} {moved : Option Moved}
    (same : events.map (fun events => events.flatMap TurnEvent.bytes) = moved.map Moved.output)
    (front : List TurnEvent) {output : List UInt8}
    (first : front.flatMap TurnEvent.bytes = output) :
    (events.map (front ++ ·)).map (fun events => events.flatMap TurnEvent.bytes) =
      (moved.map (Moved.behind output)).map Moved.output := by
  rw [Option.map_map, Option.map_map]
  have appended := congrArg (Option.map (output ++ ·)) same
  rw [Option.map_map, Option.map_map] at appended
  rw [show Moved.output ∘ Moved.behind output = (output ++ ·) ∘ Moved.output from rfl, ← appended]
  congr 1
  funext events
  change (front ++ events).flatMap TurnEvent.bytes = output ++ events.flatMap TurnEvent.bytes
  rw [List.flatMap_append, first]

/-- The events are those of the run: its output is what they write. -/
theorem getPlayerMoveEvents_bytes (depth : Nat) (outside : Outside) : ∀ (turns : Nat) (g : Game)
    (input : List UInt8), (getPlayerMoveEvents depth outside turns g input).map
      (fun events => events.flatMap TurnEvent.bytes) =
        (getPlayerMoveLoop depth outside turns g input).map Moved.output := by
  intro turns
  induction turns with
  | zero => exact fun g input => rfl
  | succ turns ih =>
    intro g input
    rw [getPlayerMoveEvents, getPlayerMoveLoop, getMove]
    cases getMoveLoop depth outside g input with
    | none => rfl
    | some asked =>
      obtain ⟨output, text, left⟩ := asked
      cases text with
      | none => simp [TurnEvent.bytes, Asked.behind]
      | some moveText =>
        dsimp only [Option.map_some, Option.bind_some, Asked.behind]
        cases tryMove depth g moveText with
        | none => rfl
        | some result =>
          obtain ⟨moveCode, after⟩ := result
          dsimp only [Option.bind_some]
          split
          · simp [TurnEvent.bytes]
          split
          · exact events_behind (ih after left) _ (by simp [TurnEvent.bytes])
          split
          · exact events_behind (ih after left) _ (by simp [TurnEvent.bytes])
          · split <;> simp [TurnEvent.bytes]

/-- The report of a rejection. -/
inductive ReportedAs : Int → List UInt8 → Prop
  | illegal : ReportedAs illegalMove (reportMsg .illegalMove)
  | missing : ReportedAs missingPromotion (reportError missingPromotion)

/-- What a turn of the loop does: the client leaves, its move is made, or its move is rejected and
the rest of the run follows. -/
inductive Happens (depth : Nat) (outside : Outside) (turns : Nat) (g : Game) (input : List UInt8) :
    List TurnEvent → Prop
  | left {asked : Asked} (asks : getMoveLoop depth outside g input = some asked)
      (names : asked.text = none) :
      Happens depth outside turns g input [.sent (notify notifyYourTurn), .sent asked.output]
  | made {asked : Asked} {moveText : List Char} {code : Int} {after : Game}
      (asks : getMoveLoop depth outside g input = some asked) (names : asked.text = some moveText)
      (tries : tryMove depth g moveText = some (code, after)) (accepted : Accepted code) :
      Happens depth outside turns g input
        [.sent (notify notifyYourTurn), .sent asked.output, .command g moveText code]
  | rejected {asked : Asked} {moveText : List Char} {code : Int} {after : Game}
    {report : List UInt8}
      {rest : List TurnEvent} (asks : getMoveLoop depth outside g input = some asked)
      (names : asked.text = some moveText) (tries : tryMove depth g moveText = some (code, after))
      (reported : ReportedAs code report)
      (goes : getPlayerMoveEvents depth outside turns after asked.input = some rest) :
      Happens depth outside turns g input
        (.sent (notify notifyYourTurn) :: .sent asked.output :: .command g moveText code ::
          .sent report :: rest)

/-- Every turn of the loop is one of these. -/
theorem getPlayerMoveEvents_happens {depth turns : Nat} {outside : Outside} {g : Game}
    {input : List UInt8} {events : List TurnEvent}
    (runs : getPlayerMoveEvents depth outside (turns + 1) g input = some events) :
    Happens depth outside turns g input events := by
  rw [getPlayerMoveEvents] at runs
  obtain ⟨asked, asks, runs⟩ := Option.bind_eq_some_iff.mp runs
  dsimp only at runs
  cases names : asked.text with
  | none =>
    rw [names] at runs
    cases runs
    exact .left asks names
  | some moveText =>
    rw [names] at runs
    obtain ⟨⟨code, after⟩, tries, runs⟩ := Option.bind_eq_some_iff.mp runs
    dsimp only at runs
    split at runs
    · rename_i ended
      cases runs
      exact .made asks names tries ended.2
    split at runs
    · rename_i illegal
      obtain ⟨rest, goes, rfl⟩ := Option.map_eq_some_iff.mp runs
      exact .rejected asks names tries (illegal ▸ .illegal) goes
    rename_i legal
    split at runs
    · rename_i missing
      obtain ⟨rest, goes, rfl⟩ := Option.map_eq_some_iff.mp runs
      exact .rejected asks names tries (missing ▸ .missing) goes
    · rename_i complete
      cases runs
      exact .made asks names tries ⟨legal, complete⟩

/-- The commands of a turn: its own, and those of the rest of the run. -/
theorem command_mem {output output' : List UInt8} {moveText text : List Char} {g g' : Game}
    {moveCode code : Int} {rest : List TurnEvent} :
    .command g' text code ∈
      TurnEvent.sent output :: .sent output' :: .command g moveText moveCode :: rest ↔
      (g' = g ∧ text = moveText ∧ code = moveCode) ∨ .command g' text code ∈ rest := by
  simp only [List.mem_cons, reduceCtorEq, TurnEvent.command.injEq, false_or]

/-- No command is among what is written. -/
theorem command_mem_sent {output : List UInt8} {text : List Char} {g : Game} {code : Int}
    {rest : List TurnEvent} :
    .command g text code ∈ TurnEvent.sent output :: rest ↔
      TurnEvent.command g text code ∈ rest := by
  simp only [List.mem_cons, reduceCtorEq, false_or]

/-! ## Explanations -/

/-- What is sent before the client is asked for its move again. -/
def explanation (back : List TurnEvent) : List TurnEvent :=
  back.takeWhile fun event => !event.notifies notifyYourTurn

/-- What follows a command: one notification of its reason if it was rejected, and none if not. -/
def Explains (code : Int) (back : List TurnEvent) : Prop :=
  (explanation back).countP (TurnEvent.notifies notifyIllegalMove) =
      (if code = illegalMove then 1 else 0) ∧
    (explanation back).countP (TurnEvent.notifies notifyMoveNeedsPromotion) =
      (if code = missingPromotion then 1 else 0) ∧
    (Accepted code → ∀ event ∈ back, event.notifies notifyIllegalMove = false ∧
      event.notifies notifyMoveNeedsPromotion = false)

/-- Every command of a run is followed by what explains its code. -/
def Explained (events : List TurnEvent) : Prop :=
  ∀ front g moveText code back, events = front ++ .command g moveText code :: back →
    Explains code back

/-- No command. -/
theorem explained_nil : Explained [] :=
  fun front g moveText code back split => absurd split (by simp)

/-- Something is written first. -/
theorem explained_sent (output : List UInt8) (events : List TurnEvent) :
    Explained (.sent output :: events) ↔ Explained events := by
  constructor
  · intro explained front g moveText code back split
    exact explained (.sent output :: front) g moveText code back (congrArg _ split)
  · intro explained front g moveText code back split
    cases front with
    | nil => cases split
    | cons first front => exact explained front g moveText code back (List.cons.inj split).2

/-- A command comes first. -/
theorem explained_command (g : Game) (moveText : List Char) (code : Int) (events : List TurnEvent) :
    Explained (.command g moveText code :: events) ↔ Explains code events ∧ Explained events := by
  constructor
  · intro explained
    refine ⟨explained [] g moveText code events rfl, fun front g' text' code' back split => ?_⟩
    exact explained (.command g moveText code :: front) g' text' code' back (congrArg _ split)
  · rintro ⟨first, explained⟩ front g' text' code' back split
    cases front with
    | nil =>
      cases split
      exact first
    | cons event front => exact explained front g' text' code' back (List.cons.inj split).2

/-- One report is sent before the client is asked again. -/
theorem explanation_report {output : List UInt8} {rest : List TurnEvent}
    (other : output ≠ notify notifyYourTurn)
    (again : rest.head? = some (.sent (notify notifyYourTurn))) :
    explanation (.sent output :: rest) = [.sent output] := by
  cases rest with
  | nil => cases again
  | cons first rest =>
    cases again
    unfold explanation
    rw [List.takeWhile_cons_of_pos (by simpa [TurnEvent.notifies] using other),
      List.takeWhile_cons_of_neg (by simp [TurnEvent.notifies])]

/-- The report of an illegal move explains it; that of a missing promotion does not. -/
theorem ReportedAs.explains_iff {code : Int} {report : List UInt8} {rest : List TurnEvent}
    (reported : ReportedAs code report)
    (again : rest.head? = some (.sent (notify notifyYourTurn))) :
    Explains code (.sent report :: rest) ↔ code ≠ missingPromotion := by
  cases reported with
  | illegal =>
    unfold Explains
    rw [explanation_report (by decide) again]
    refine iff_of_true ⟨by decide, by decide, fun accepted => absurd rfl accepted.1⟩ (by decide)
  | missing =>
    unfold Explains
    rw [explanation_report (by decide) again]
    exact iff_of_false (fun explains => absurd explains.2.1 (by decide)) (fun other => other rfl)

/-- A run explains its rejections when none of them is for a missing promotion. -/
theorem getPlayerMoveEvents_explained (depth : Nat) (outside : Outside) : ∀ (turns : Nat) (g : Game)
    (input : List UInt8) (events : List TurnEvent),
    getPlayerMoveEvents depth outside turns g input = some events →
      events.head? = some (.sent (notify notifyYourTurn)) ∧
        (Explained events ↔ ∀ g' moveText code, .command g' moveText code ∈ events →
          code ≠ missingPromotion) := by
  intro turns
  induction turns with
  | zero =>
    intro g input events runs
    cases runs
  | succ turns ih =>
    intro g input events runs
    cases getPlayerMoveEvents_happens runs with
    | left asks names =>
      refine ⟨rfl, ?_⟩
      rw [explained_sent, explained_sent]
      exact iff_of_true explained_nil fun g' moveText code member => absurd member (by simp)
    | @made asked moveText code after asks names tries accepted =>
      refine ⟨rfl, ?_⟩
      rw [explained_sent, explained_sent, explained_command]
      have silent : Explains code [] := by
        refine ⟨?_, ?_, fun _ event member => absurd member List.not_mem_nil⟩
        · rw [if_neg accepted.1]
          rfl
        · rw [if_neg accepted.2]
          rfl
      refine iff_of_true ⟨silent, explained_nil⟩ fun g' text code' member => ?_
      rcases command_mem.mp member with ⟨-, -, rfl⟩ | none
      · exact accepted.2
      · exact absurd none List.not_mem_nil
    | @rejected asked moveText code after report rest asks names tries reported goes =>
      refine ⟨rfl, ?_⟩
      obtain ⟨again, explained⟩ := ih after asked.input rest goes
      rw [explained_sent, explained_sent, explained_command, explained_sent, explained,
        reported.explains_iff again]
      constructor
      · rintro ⟨first, others⟩ g' text code' member
        rcases command_mem.mp member with ⟨-, -, rfl⟩ | later
        · exact first
        · exact others g' text code' (command_mem_sent.mp later)
      · intro all
        refine ⟨all g moveText code (command_mem.mpr (Or.inl ⟨rfl, rfl, rfl⟩)), ?_⟩
        intro g' text code' member
        exact all g' text code' (command_mem.mpr (Or.inr (command_mem_sent.mpr member)))

/-! ## The commands of a run -/

/-- The move of the command is one of a pawn to its last row, by the rules of its steps, and names
no promotion. -/
def Unpromoted (g : Game) (moveText : List Char) : Prop :=
  ∃ m captured, parseMove moveText = some m ∧ m.promotion.isPromotion = false ∧
    Promotes g m captured

/-- On a sound board exactly these are asked for a promotion. -/
theorem tryMove_missing {g after : Game} {moveText : List Char} {m : Move} {code : Int}
    (sound : Sound g) (parsed : parseMove moveText = some m) (returns : Returns g m code after) :
    code = missingPromotion ↔ Unpromoted g moveText := by
  constructor
  · rintro rfl
    obtain ⟨-, unnamed, captured, promotes⟩ := returns.missing sound
    exact ⟨m, captured, parsed, unnamed, promotes⟩
  · rintro ⟨m', captured, parsed', unnamed, promotes⟩
    obtain rfl : m = m' := Option.some.inj (parsed.symm.trans parsed')
    exact (returns.unique (promotes.missing sound unnamed)).1

/-- Every command of a run is a call on a sound board. -/
theorem getPlayerMoveEvents_commands (depth : Nat) (outside : Outside) : ∀ (turns : Nat) (g : Game)
    (input : List UInt8) (events : List TurnEvent), Sound g →
    getPlayerMoveEvents (depth + 1) outside turns g input = some events →
      ∀ g' moveText code, .command g' moveText code ∈ events →
        Sound g' ∧ ∃ m after, parseMove moveText = some m ∧ Returns g' m code after := by
  intro turns
  induction turns with
  | zero =>
    intro g input events sound runs
    cases runs
  | succ turns ih =>
    intro g input events sound runs
    have called :
      ∀ {asked moveText code after}, getMoveLoop (depth + 1) outside g input = some asked →
        asked.text = some moveText → tryMove (depth + 1) g moveText = some (code, after) →
        Sound after ∧ ∃ m after, parseMove moveText = some m ∧ Returns g m code after := by
      intro asked moveText code after asks names tries
      obtain ⟨asked', heard, loops, requested⟩ := getMoveLoop_requested sound outside input
      obtain rfl := Option.some.inj ((loops depth).symm.trans asks)
      cases requested with
      | broken => cases names
      | @move c₁ c₂ left answers =>
        cases names
        have made := (congrFun (@tryMove_text g c₁ c₂) (depth + 1)).symm.trans tries
        obtain ⟨code', after', asked', sound', -⟩ := sound.called (apiGetMove c₁ c₂)
        obtain ⟨rfl, rfl⟩ := Prod.mk.inj (Option.some.inj ((asked' depth).symm.trans made))
        exact ⟨sound', _, _, (apiGetMove_sendable c₁ c₂).parseMove_text, .of_asked asked'⟩
    cases getPlayerMoveEvents_happens runs with
    | left asks names => exact fun g' moveText code member => absurd member (by simp)
    | @made asked moveText code after asks names tries accepted =>
      intro g' text code' member
      rcases command_mem.mp member with ⟨rfl, rfl, rfl⟩ | none
      · exact ⟨sound, (called asks names tries).2⟩
      · exact absurd none List.not_mem_nil
    | @rejected asked moveText code after report rest asks names tries reported goes =>
      intro g' text code' member
      rcases command_mem.mp member with ⟨rfl, rfl, rfl⟩ | later
      · exact ⟨sound, (called asks names tries).2⟩
      · exact ih after asked.input rest (called asks names tries).1 goes g' text code'
          (command_mem_sent.mp later)

/-- On a sound board the run returns, and its events write its output. -/
theorem getPlayerMoveEvents_run (outside : Outside) (depth : Nat) {g : Game} (sound : Sound g)
    {turns : Nat} {input : List UInt8} (enough : input.length < turns) :
    ∃ moved events, getPlayerMoveEvents (depth + 1) outside turns g input = some events ∧
      getPlayerMove (depth + 1) outside turns g input = some moved ∧
      events.flatMap TurnEvent.bytes = moved.output := by
  obtain ⟨moved, heard, loops, -⟩ := getPlayerMoveLoop_took outside turns sound enough
  have written := getPlayerMoveEvents_bytes (depth + 1) outside turns g input
  have loop : getPlayerMoveLoop (depth + 1) outside turns g input = some moved := loops depth 0
  rw [loop, Option.map_some] at written
  obtain ⟨events, runs, output⟩ := Option.map_eq_some_iff.mp written
  refine ⟨moved, events, runs, ?_, output⟩
  rw [getPlayerMove, loop]
  rfl

/-- Every rejection of a run of `get_player_move` is explained exactly when no command of the run
moves a pawn to its last row, by the rules of its steps, without a promotion: in every run, whatever
the client sends. -/
theorem Run.rejections_explained_iff {start g : Game} {calls : List (Move × Int)}
    (started : Started start) (run : Run start calls g) (outside : Outside) (depth : Nat)
    {turns : Nat} {input : List UInt8} (enough : input.length < turns) :
    ∃ events moved, getPlayerMoveEvents (depth + 1) outside turns g input = some events ∧
      getPlayerMove (depth + 1) outside turns g input = some moved ∧
      events.flatMap TurnEvent.bytes = moved.output ∧
      (Explained events ↔ ∀ g' moveText code, .command g' moveText code ∈ events →
        ¬ Unpromoted g' moveText) := by
  have sound := run.sound started.sound
  obtain ⟨moved, events, runs, returned, output⟩ :=
    getPlayerMoveEvents_run outside depth sound enough
  obtain ⟨-, explained⟩ := getPlayerMoveEvents_explained _ _ _ _ _ _ runs
  have commands := getPlayerMoveEvents_commands depth outside turns g input events sound runs
  refine ⟨events, moved, runs, returned, output, ?_⟩
  rw [explained]
  refine forall_congr' fun g' => forall_congr' fun moveText => forall_congr' fun code =>
    forall_congr' fun member => not_congr ?_
  obtain ⟨sound', m, after, parsed, returns⟩ := commands g' moveText code member
  exact tryMove_missing sound' parsed returns

/-- Nothing is listed as valid, and every move goes through. -/
def quietOutside : Outside := ⟨fun _ => .empty, fun _ => true⟩

/-- A new game, and a client that moves its pawn from e2 to e5 and, asked again, to e4. -/
theorem rejections_explained_iff_pawn : ∃ events moved,
    getPlayerMoveEvents 1 quietOutside 7 (newGame blank)
        [cmdMakeMove, 208, 112, cmdMakeMove, 208, 144] = some events ∧
      getPlayerMove 1 quietOutside 7 (newGame blank)
        [cmdMakeMove, 208, 112, cmdMakeMove, 208, 144] = some moved ∧
      events.flatMap TurnEvent.bytes = moved.output ∧ Explained events ∧
      events.filterMap TurnEvent.moveCode = [illegalMove, 0] := by
  obtain ⟨events, moved, runs, returned, output, explained⟩ :=
    (@Run.start (newGame blank)).rejections_explained_iff (.new blank) quietOutside 0
      (show [cmdMakeMove, 208, 112, cmdMakeMove, 208, 144].length < 7 by decide)
  have codes : (getPlayerMoveEvents 1 quietOutside 7 (newGame blank)
      [cmdMakeMove, 208, 112, cmdMakeMove, 208, 144]).map (·.filterMap TurnEvent.moveCode) =
        some [illegalMove, 0] := by
    decide +kernel
  rw [runs, Option.map_some, Option.some_inj] at codes
  refine ⟨events, moved, runs, returned, output, explained.mpr ?_, codes⟩
  intro g' moveText code member unpromoted
  obtain ⟨sound, m, after, parsed, returns⟩ := getPlayerMoveEvents_commands 0 quietOutside 7 _ _
    events (newGame_sound blank) runs g' moveText code member
  have listed : code ∈ events.filterMap TurnEvent.moveCode :=
    List.mem_filterMap.mpr ⟨_, member, rfl⟩
  rw [codes, (tryMove_missing sound parsed returns).mpr unpromoted] at listed
  exact absurd listed (by decide)

/-- A client that takes the rook on a8 with its pawn and names no promotion is not told why it is
asked again. -/
theorem missing_promotion_unexplained :
    ¬ ∀ (g : Game) (calls : List (Move × Int)) (events : List TurnEvent) (input : List UInt8),
      Run (newGame blank) calls g → getPlayerMoveEvents 1 quietOutside 4 g input = some events →
        Explained events := by
  intro claimed
  have codes := checkedPromotion_codes
  have sound := newGame_sound blank
  have run := (@Run.start (newGame blank)).replayed sound checkedPromotion
  rw [List.nil_append] at run
  generalize replay (newGame blank) checkedPromotion = final at codes run
  simp only [Prod.mk.injEq] at codes
  have soundFinal := run.sound sound
  obtain ⟨moved, events, runs, -⟩ := getPlayerMoveEvents_run quietOutside 0 soundFinal
    (show [cmdMakeMove, 36, 0].length < 4 by decide)
  have explained := claimed final.2 final.1 events _ run runs
  have complete := (getPlayerMoveEvents_explained _ _ _ _ _ _ runs).2.mp explained
  have asked : getMoveLoop 1 quietOutside final.2 [cmdMakeMove, 36, 0] =
      some ⟨[], some (apiText 36 0), []⟩ := rfl
  have missing : tryMove 1 final.2 (apiText 36 0) =
      some (missingPromotion, (play final.2 ⟨1, 1, 0, 0, .empty⟩).2) := by
    have asks := soundFinal.asked (apiGetMove 36 0) 0
    change makeMove 1 final.2 (apiGetMove 36 0) =
      some ((play final.2 ⟨1, 1, 0, 0, .empty⟩).1, (play final.2 ⟨1, 1, 0, 0, .empty⟩).2) at asks
    rw [codes.2.1] at asks
    exact (congrFun (@tryMove_text final.2 36 0) 1).trans asks
  cases getPlayerMoveEvents_happens runs with
  | left asks names =>
    obtain rfl := Option.some.inj (asked.symm.trans asks)
    cases names
  | made asks names tries accepted =>
    obtain rfl := Option.some.inj (asked.symm.trans asks)
    cases names
    obtain ⟨rfl, -⟩ := Prod.mk.inj (Option.some.inj (missing.symm.trans tries))
    exact accepted.2 rfl
  | rejected asks names tries reported goes =>
    obtain rfl := Option.some.inj (asked.symm.trans asks)
    cases names
    obtain ⟨rfl, -⟩ := Prod.mk.inj (Option.some.inj (missing.symm.trans tries))
    exact complete final.2 (apiText 36 0) missingPromotion (by simp) rfl

end Chessh
