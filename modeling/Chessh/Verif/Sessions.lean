import Chessh.Verif.Broadcast

/-!
# Two sessions of one execution

Both players speak the protocol of the API. Whatever bytes they send and however the steps of the
two processes follow upon each other, what a client that has ended has written is the session of its
own bytes and its own reads, which is known from the process alone; and the moves it has been told
are the moves that the other client has made, in order. `Execution.sessions`.
-/

namespace Chessh

open Rules (Contest)
open Wire (Message MovePair Answers Broken)

/-! ## What an execution says of one client -/

/-- The next move that the bytes of a player name, behind requests, and what is left behind it. -/
def nextMove : List UInt8 → Option (UInt8 × UInt8 × List UInt8)
  | [] => none
  | cmd :: rest =>
    if cmd = cmdMakeMove then
      match rest with
      | c₁ :: c₂ :: left => some (c₁, c₂, left)
      | _ => none
    else if cmd = cmdGetBoard ∨ cmd = cmdGetValidMoves then nextMove rest
    else none

/-- The event is one of the client's player. -/
def Event.Of (i : Fin 2) : Event → Prop
  | .names j _ _ | .hangsUp j => j = i
  | .reads _ => False

/-- The player of a client names the moves of its bytes, and hangs up where no move follows. -/
inductive Speaks (i : Fin 2) : List UInt8 → List (System × Event) → Prop
  | nothing {sent} : Speaks i sent []
  | names {sent c₁ c₂ left s later} (next : nextMove sent = some (c₁, c₂, left))
      (speaks : Speaks i left later) : Speaks i sent ((s, .names i c₁ c₂) :: later)
  | hangsUp {sent s later} (ends : nextMove sent = none) (speaks : Speaks i sent later) :
      Speaks i sent ((s, .hangsUp i) :: later)
  | other {sent s event later} (foreign : ¬ event.Of i) (speaks : Speaks i sent later) :
      Speaks i sent ((s, event) :: later)

/-- What the reads of a client return. -/
def received (i : Fin 2) (history : List (System × Event)) : List (List Char) :=
  history.filterMap fun moment =>
    match moment.2 with
    | .reads j => if j = i then some ((moment.1.pipe i).take buffSize) else none
    | .names _ _ _ | .hangsUp _ => none

/-- The moves that a client makes and that do not end its game. -/
def passedOn (i : Fin 2) (history : List (System × Event)) : List Move :=
  history.filterMap fun moment =>
    match moment.2 with
    | .names j c₁ c₂ =>
      if j = i ∧ 0 ≤ (play (moment.1.game i) (apiGetMove c₁ c₂)).1 then
        some (apiGetMove c₁ c₂) else none
    | .hangsUp _ | .reads _ => none

/-- The move that a message tells. -/
def moveTold : Message → Option MovePair
  | .makeMove pair => some pair
  | _ => none

/-- The moves that a player is told. -/
def movesTold (heard : List Message) : List MovePair := heard.filterMap moveTold

/-- Messages tell their moves one after the other. -/
theorem movesTold_append (first second : List Message) :
    movesTold (first ++ second) = movesTold first ++ movesTold second :=
  List.filterMap_append

/-- The last message is the end of the game, and the moves that are told are the ones given, but
perhaps the last. -/
structure Views (msg : EndMsg) (moves : List Move) (heard : List Message) : Prop where
  last : heard.getLast? = some (.notify msg.notice)
  told : movesTold heard <+: moves.map movePair
  most : moves.length ≤ (movesTold heard).length + 1

/-! ## Turns -/

section Turns

variable {g : Game} {sent left : List UInt8} {heard : List Message}

/-- The next move is the one behind the requests. -/
theorem nextMove_behind (answers : Answers sent heard left) : nextMove sent = nextMove left := by
  induction answers with
  | none => rfl
  | board _ _ ih | moves _ _ ih => exact ih

/-- No move follows where a turn is broken off. -/
theorem nextMove_broken (broken : Broken left) : nextMove left = none := by
  cases broken with
  | stopped => rfl
  | cut short =>
    rename_i rest
    rcases rest with _ | ⟨c₁, _ | ⟨c₂, rest⟩⟩
    · rfl
    · rfl
    · simp at short
  | stray move board moves =>
    exact (if_neg move).trans (if_neg (not_or.mpr ⟨board, moves⟩))

/-- Answers tell no move. -/
theorem movesTold_answers (answers : Answers sent heard left) : movesTold heard = [] := by
  induction answers with
  | none => rfl
  | board _ _ ih | moves _ _ ih => exact ih

/-- A refusal tells no move. -/
theorem movesTold_refusal (code : Int) : movesTold (refusal code) = [] := by
  unfold refusal
  split <;> rfl

/-- The loop of `get_move` comes to the next move. -/
theorem getMoveLoop_next (sound : Sound g) (outside : Outside) {c₁ c₂ : UInt8}
    (next : nextMove sent = some (c₁, c₂, left)) :
    ∃ heard, (∀ depth, getMoveLoop (depth + 1) outside g sent =
        some ⟨bytes heard, some (apiText c₁ c₂), left⟩) ∧
      movesTold heard = [] ∧ left.length < sent.length := by
  obtain ⟨asked, heard, loops, requested⟩ := getMoveLoop_requested sound outside sent
  cases requested with
  | move answers =>
    have same := next.symm.trans (nextMove_behind answers)
    simp only [nextMove, if_true, Option.some.injEq, Prod.mk.injEq] at same
    obtain ⟨rfl, rfl, rfl⟩ := same
    exact ⟨heard, loops, movesTold_answers answers, answers.move_lt⟩
  | broken answers broken =>
    rw [nextMove_behind answers, nextMove_broken broken] at next
    cases next

/-- Where no move follows it breaks off. -/
theorem getMoveLoop_ends (sound : Sound g) (outside : Outside) (ends : nextMove sent = none) :
    ∃ heard rest,
      (∀ depth, getMoveLoop (depth + 1) outside g sent = some ⟨bytes heard, none, rest⟩) ∧
      movesTold heard = [] := by
  obtain ⟨asked, heard, loops, requested⟩ := getMoveLoop_requested sound outside sent
  cases requested with
  | move answers =>
    have same := ends.symm.trans (nextMove_behind answers)
    simp [nextMove] at same
  | broken answers broken => exact ⟨heard, _, loops, movesTold_answers answers⟩

/-- A result is found at every bound. -/
theorem Returns.asked {m : Move} {code : Int} {after : Game} (sound : Sound g)
    (returns : Returns g m code after) (depth : Nat) : makeMove (depth + 1) g m =
      some (code, after) := by
  obtain ⟨code', after', asked, -⟩ := makeMove_made sound m
  obtain ⟨rfl, rfl⟩ := returns.unique (.of_asked asked)
  exact asked depth

/-- A message is read as its move. -/
theorem readMove_message (c₁ c₂ : UInt8) : readMove (apiText c₁ c₂ ++ [nul]) =
    some (apiGetMove c₁ c₂) := by
  obtain ⟨long, -, text⟩ := (apiGetMove_sendable c₁ c₂).message
  unfold readMove apiText
  rw [if_neg (not_or.mpr ⟨not_lt.mpr long, by simp⟩), text,
    (apiGetMove_sendable c₁ c₂).parseMove_text]

end Turns

/-! ## Views -/

section Views

variable {msg : EndMsg} {moves : List Move} {front later : List Message} {m : Move}

/-- The game is over. -/
theorem Views.over (few : moves.length ≤ 1) (silent : movesTold front = []) :
    Views msg moves (front ++ [.notify msg.notice]) where
  last := List.getLast?_concat
  told := by
    have nothing : movesTold (front ++ [.notify msg.notice]) = [] := by
      rw [movesTold_append, silent]
      rfl
    rw [nothing]
    exact List.nil_prefix
  most := few.trans (Nat.le_add_left 1 _)

/-- Messages that tell no move come first. -/
theorem Views.behind (views : Views msg moves later) (silent : movesTold front = []) :
    Views msg moves (front ++ later) := by
  have same : movesTold (front ++ later) = movesTold later := by
    rw [movesTold_append, silent, List.nil_append]
  refine ⟨?_, by rw [same]; exact views.told, by rw [same]; exact views.most⟩
  rw [List.getLast?_append, views.last]
  rfl

/-- A move is told first. -/
theorem Views.move (views : Views msg moves later) :
    Views msg (m :: moves) (.makeMove (movePair m) :: later) := by
  have same : movesTold (.makeMove (movePair m) :: later) = movePair m :: movesTold later := rfl
  refine ⟨?_, ?_, ?_⟩
  · rw [← List.singleton_append, List.getLast?_append, views.last]
    rfl
  · rw [same, List.map_cons]
    exact List.cons_prefix_cons.mpr ⟨rfl, views.told⟩
  · rw [same, List.length_cons, List.length_cons]
    exact Nat.succ_le_succ views.most

end Views

/-! ## Steps -/

section Steps

variable {s next : System} {history later : List (System × Event)} {event : Event} {i j : Fin 2}
  {sent left : List UInt8} {c₁ c₂ : UInt8}

/-- A player that names a move names that of its bytes. -/
theorem Speaks.named (speaks : Speaks i sent ((s, .names i c₁ c₂) :: later)) :
    ∃ left, nextMove sent = some (c₁, c₂, left) ∧ Speaks i left later := by
  cases speaks with
  | names next speaks => exact ⟨_, next, speaks⟩
  | other foreign => exact absurd rfl foreign

/-- A player that hangs up has no move left. -/
theorem Speaks.hungUp (speaks : Speaks i sent ((s, .hangsUp i) :: later)) :
    nextMove sent = none ∧ Speaks i sent later := by
  cases speaks with
  | hangsUp ends speaks => exact ⟨ends, speaks⟩
  | other foreign => exact absurd rfl foreign

/-- The events of others leave the bytes alone. -/
theorem Speaks.foreign (speaks : Speaks i sent ((s, event) :: later)) (foreign : ¬ event.Of i) :
    Speaks i sent later := by
  cases speaks with
  | names | hangsUp => exact absurd rfl foreign
  | other _ speaks => exact speaks

/-- When a client has ended, what happens next is that the other finds out. -/
theorem Phase.reads {Fine : EndMsg → Prop} {msg : EndMsg} (phase : Phase SameTurns Fine s)
    (over_ : s.ended j = some msg) (step : Step s event next) : event = .reads (peer j) := by
  cases phase with
  | idle related running | sent k c₁ c₂ before code related turn returns nonneg running =>
    rw [running] at over_
    cases over_
  | parted k msg ended fine drained rest =>
    have waits : ∀ i, s.ended i = none → currPlayer (s.game i) ≠ i := by
      intro i run
      rcases eq_or_peer k i with rfl | rfl
      · rw [ended] at run
        cases run
      · rcases rest with ⟨-, waiting⟩ | found
        · exact waiting
        · rw [found] at run
          cases run
    cases step with
    | refused run own | decided run own | written run own | lost run own | hungUp run own =>
      exact absurd own (waits _ run)
    | @read i code after run | @eof i code after run =>
      rcases eq_or_peer j i with rfl | rfl
      · rw [over_] at run
        cases run
      · rfl

/-- No step leaves the phases, whatever is tried. -/
theorem Phase.goes (phase : Phase SameTurns (fun _ => True) s) (step : Step s event next) :
    Phase SameTurns (fun _ => True) next :=
  phase.step sameTurns_link (by cases event <;> trivial) step

/-- A client ends once. -/
theorem Step.kept {msg : EndMsg} (step : Step s event next) (ended : s.ended i = some msg) :
    next.ended i = some msg := by
  -- an end that is given is given to a client that was running
  have update : ∀ {j : Fin 2} {other : Option EndMsg}, s.ended j = none →
      Function.update s.ended j other i = some msg := by
    intro j other run
    have apart : i ≠ j := by
      rintro rfl
      rw [ended] at run
      cases run
    rwa [Function.update_of_ne apart]
  cases step with
  | refused => exact ended
  | decided run | written run | lost run | hungUp run | read run | eof run => exact update run

/-- The end of a client is its end in every later state. -/
theorem Execution.kept {final : System} {msg : EndMsg} (exec : Execution s history final)
    (ended : s.ended i = some msg) : final.ended i = some msg := by
  induction exec with
  | start => exact ended
  | step exec step ih => exact step.kept ih

/-- An execution takes its first step, and goes on from there. -/
theorem Execution.head {t final : System} (exec : Execution s ((t, event) :: later) final) :
    t = s ∧ ∃ next, Step s event next ∧ Execution next later final := by
  have whole : Execution s ([] ++ (t, event) :: later) final := exec
  obtain ⟨next, first, step, rest⟩ := whole.split
  generalize nothing : ([] : List (System × Event)) = before at first
  cases first with
  | start => exact ⟨rfl, next, step, rest⟩
  | step => simp at nothing

/-- When a client has ended no move is made. -/
theorem Execution.silent {final : System} {msg : EndMsg} (exec : Execution s history final)
    (phase : Phase SameTurns (fun _ => True) s) (over_ : s.ended j = some msg) :
    passedOn i history = [] := by
  induction history generalizing s with
  | nil => rfl
  | cons moment later ih =>
    obtain ⟨t, event⟩ := moment
    obtain ⟨rfl, next, step, rest⟩ := exec.head
    obtain rfl := phase.reads over_ step
    exact ih rest (phase.goes step) (step.kept over_)

/-- What a client writes that runs, and that ends with a message in the rest of a history: it is a
view of the move in its pipe and of those the other client makes. -/
def Viewed (outside : Outside) (i : Fin 2) (msg : EndMsg) (s : System)
    (history : List (System × Event)) : Prop :=
  ∀ sent bound, Speaks i sent history → sent.length + (received i history).length < bound →
    ∃ heard, Hears outside i bound (s.game i) sent (received i history) heard ∧
      Views msg ((readMove (s.pipe i)).toList ++ passedOn (peer i) history) heard

variable {outside : Outside} {msg : EndMsg} {code : Int} {after : Game}

/-- What one event adds to the moves of a client. -/
theorem passedOn_cons (moment : System × Event) :
    passedOn i (moment :: later) = passedOn i [moment] ++ passedOn i later := by
  rw [← List.singleton_append, passedOn, List.filterMap_append]
  rfl

/-- The own player makes no move of the other client. -/
theorem passedOn_own (own : event.Of i) : passedOn (peer i) [(s, event)] = [] := by
  cases event with
  | names j c₁ c₂ =>
    obtain rfl : j = i := own
    simp [passedOn, (peer_ne j).symm]
  | hangsUp | reads => rfl

/-- A move that is refused or ends the game is not passed on. -/
theorem passedOn_negative (sound : Sound (s.game i))
    (returns : Returns (s.game i) (apiGetMove c₁ c₂) code after) (negative : code < 0) :
    passedOn i [(s, .names i c₁ c₂)] = [] := by
  obtain ⟨same, -⟩ := (sound.played (apiGetMove c₁ c₂)).unique returns
  simp [passedOn, same, negative]

/-- Another move is. -/
theorem passedOn_nonneg (sound : Sound (s.game i))
    (returns : Returns (s.game i) (apiGetMove c₁ c₂) code after) (nonneg : 0 ≤ code) :
    passedOn i [(s, .names i c₁ c₂)] = [apiGetMove c₁ c₂] := by
  obtain ⟨same, -⟩ := (sound.played (apiGetMove c₁ c₂)).unique returns
  simp [passedOn, same, nonneg]

/-- A step of the other client may bring a move. -/
theorem Viewed.foreign (viewed : Viewed outside i msg next later) (foreign : ¬ event.Of i)
    (other : event ≠ .reads i) (game : next.game i = s.game i)
    (moves : (readMove (s.pipe i)).toList ++ passedOn (peer i) [(s, event)] =
      (readMove (next.pipe i)).toList) : Viewed outside i msg s ((s, event) :: later) := by
  intro sent bound speaks enough
  have same : received i ((s, event) :: later) = received i later := by
    cases event with
    | names | hangsUp => rfl
    | reads j =>
      have apart : j ≠ i := fun here => other (by rw [here])
      simp [received, apart]
  rw [same] at enough ⊢
  obtain ⟨heard, hears, views⟩ := viewed sent bound (speaks.foreign foreign) enough
  rw [game] at hears
  rw [passedOn_cons, ← List.append_assoc, moves]
  exact ⟨heard, hears, views⟩

/-- A refused move starts the turn again. -/
theorem Viewed.refused (viewed : Viewed outside i msg next later) (sound : Sound (s.game i))
    (turn : currPlayer (s.game i) = i)
    (returns : Returns (s.game i) (apiGetMove c₁ c₂) code after) (refused : ¬ Accepted code)
    (game : next.game i = after) (pipe : next.pipe i = s.pipe i) :
    Viewed outside i msg s ((s, .names i c₁ c₂) :: later) := by
  intro sent bound speaks enough
  obtain ⟨left, named, speaks⟩ := speaks.named
  obtain ⟨front, loops, silent, shorter⟩ := getMoveLoop_next sound outside named
  obtain ⟨bound, rfl⟩ := Nat.exists_eq_succ_of_ne_zero (Nat.ne_zero_of_lt enough)
  have same : received i ((s, .names i c₁ c₂) :: later) = received i later := rfl
  rw [same] at enough ⊢
  obtain ⟨heard, hears, views⟩ := viewed left bound speaks (by omega)
  rw [game] at hears
  have turn' : currPlayer after = i :=
    (currPlayer_congr (returns.no_turn sound refused).duration).trans turn
  have quiet : movesTold (.notify .yourTurn :: (front ++ refusal code)) = [] := by
    show movesTold (front ++ refusal code) = []
    rw [movesTold_append, silent, movesTold_refusal, List.append_nil]
  have own : passedOn (peer i) [(s, .names i c₁ c₂)] = [] := passedOn_own rfl
  have hears :=
    Hears.refused ((returns.made sound).sound sound) turn turn' loops (returns.asked sound)
    refused (by omega) hears
  refine ⟨_, hears, ?_⟩
  rw [passedOn_cons, own, List.nil_append, ← pipe, ← List.append_assoc, ← List.cons_append]
  exact views.behind quiet

/-- A move that is made is passed on, and the client waits. -/
theorem Viewed.passed (viewed : Viewed outside i msg next later)
    (through : ∀ left, outside.written left = true) (sound : Sound (s.game i))
    (turn : currPlayer (s.game i) = i)
    (returns : Returns (s.game i) (apiGetMove c₁ c₂) code after) (nonneg : 0 ≤ code)
    (game : next.game i = after) (pipe : next.pipe i = s.pipe i) :
    Viewed outside i msg s ((s, .names i c₁ c₂) :: later) := by
  intro sent bound speaks enough
  obtain ⟨left, named, speaks⟩ := speaks.named
  obtain ⟨front, loops, silent, shorter⟩ := getMoveLoop_next sound outside named
  obtain ⟨bound, rfl⟩ := Nat.exists_eq_succ_of_ne_zero (Nat.ne_zero_of_lt enough)
  have same : received i ((s, .names i c₁ c₂) :: later) = received i later := rfl
  rw [same] at enough ⊢
  obtain ⟨heard, hears, views⟩ := viewed left bound speaks (by omega)
  rw [game] at hears
  have own : passedOn (peer i) [(s, .names i c₁ c₂)] = [] := passedOn_own rfl
  refine ⟨_, .passed turn loops (returns.asked sound) nonneg (through left) hears, ?_⟩
  rw [passedOn_cons, own, List.nil_append, ← pipe, ← List.cons_append]
  exact views.behind silent

/-- A move may end the game. -/
theorem Viewed.decided (sound : Sound (s.game i)) (turn : currPlayer (s.game i) = i)
    (returns : Returns (s.game i) (apiGetMove c₁ c₂) code after) (accepted : Accepted code)
    (negative : code < 0) (ends : endMsg code = some msg) (drained : s.pipe i = [])
    (silence : passedOn (peer i) later = []) :
    Viewed outside i msg s ((s, .names i c₁ c₂) :: later) := by
  intro sent bound speaks enough
  obtain ⟨left, named, -⟩ := speaks.named
  obtain ⟨front, loops, silent, -⟩ := getMoveLoop_next sound outside named
  obtain ⟨bound, rfl⟩ := Nat.exists_eq_succ_of_ne_zero (Nat.ne_zero_of_lt enough)
  have own : passedOn (peer i) [(s, .names i c₁ c₂)] = [] := passedOn_own rfl
  have stopped : endMsg (if code < 0 ∨ outside.written left then code else ioError) = some msg := by
    rw [if_pos (Or.inl negative), ends]
  refine ⟨_, .stopped turn loops (returns.asked sound) accepted stopped, ?_⟩
  rw [passedOn_cons, own, silence, drained, ← List.cons_append]
  exact .over (Nat.zero_le 1) silent

/-- A player may hang up. -/
theorem Viewed.hungUp (sound : Sound (s.game i)) (turn : currPlayer (s.game i) = i)
    (drained : s.pipe i = []) (silence : passedOn (peer i) later = []) :
    Viewed outside i .ioError s ((s, .hangsUp i) :: later) := by
  intro sent bound speaks enough
  obtain ⟨front, rest, loops, silent⟩ := getMoveLoop_ends sound outside speaks.hungUp.1
  obtain ⟨bound, rfl⟩ := Nat.exists_eq_succ_of_ne_zero (Nat.ne_zero_of_lt enough)
  refine ⟨_, .broken turn loops, ?_⟩
  have own : passedOn (peer i) [(s, .hangsUp i)] = [] := rfl
  rw [passedOn_cons, own, silence, drained, ← List.cons_append]
  exact .over (Nat.zero_le 1) silent

/-- What a client reads comes first of what it reads. -/
theorem received_own (i : Fin 2) (s : System) (later : List (System × Event)) :
    received i ((s, .reads i) :: later) = (s.pipe i).take buffSize :: received i later := by
  simp [received]

/-- A move of the other client is read and told. -/
theorem Viewed.received (viewed : Viewed outside i msg next later) (sound : Sound (s.game i))
    (waiting : currPlayer (s.game i) ≠ i) (message : s.pipe i = apiText c₁ c₂ ++ [nul])
    (returns : Returns (s.game i) (apiGetMove c₁ c₂) code after) (nonneg : 0 ≤ code)
    (game : next.game i = after) (pipe : next.pipe i = []) :
    Viewed outside i msg s ((s, .reads i) :: later) := by
  intro sent bound speaks enough
  obtain ⟨bound, rfl⟩ := Nat.exists_eq_succ_of_ne_zero (Nat.ne_zero_of_lt enough)
  rw [received_own, List.length_cons] at enough
  obtain ⟨heard, hears, views⟩ := viewed sent bound (speaks.foreign id) (by omega)
  rw [game] at hears
  rw [pipe] at views
  have read : readMove (((s.pipe i).take buffSize).take buffSize) = some (apiGetMove c₁ c₂) := by
    rw [message, (message_read c₁ c₂).1, (message_read c₁ c₂).1, readMove_message]
  have own : passedOn (peer i) [(s, .reads i)] = [] := rfl
  rw [received_own]
  refine ⟨_, .received waiting read (returns.asked sound) nonneg hears, ?_⟩
  rw [passedOn_cons, own, message, readMove_message]
  exact views.move

/-- It may end the game of the client that reads it. -/
theorem Viewed.lost (sound : Sound (s.game i)) (waiting : currPlayer (s.game i) ≠ i)
    (message : s.pipe i = apiText c₁ c₂ ++ [nul])
    (returns : Returns (s.game i) (apiGetMove c₁ c₂) code after) (negative : code < 0)
    (ends : endMsg code = some msg) (silence : passedOn (peer i) later = []) :
    Viewed outside i msg s ((s, .reads i) :: later) := by
  intro sent bound speaks enough
  obtain ⟨bound, rfl⟩ := Nat.exists_eq_succ_of_ne_zero (Nat.ne_zero_of_lt enough)
  have read : readMove (((s.pipe i).take buffSize).take buffSize) = some (apiGetMove c₁ c₂) := by
    rw [message, (message_read c₁ c₂).1, (message_read c₁ c₂).1, readMove_message]
  have own : passedOn (peer i) [(s, .reads i)] = [] := rfl
  rw [received_own]
  refine ⟨_, .lost waiting read (returns.asked sound) negative ends, ?_⟩
  rw [passedOn_cons, own, silence, message, readMove_message]
  rw [← List.nil_append [Message.notify msg.notice]]
  exact .over le_rfl rfl

/-- A client finds out that the other one has ended. -/
theorem Viewed.eof (waiting : currPlayer (s.game i) ≠ i) (drained : s.pipe i = [])
    (silence : passedOn (peer i) later = []) :
    Viewed outside i .ioError s ((s, .reads i) :: later) := by
  intro sent bound speaks enough
  obtain ⟨bound, rfl⟩ := Nat.exists_eq_succ_of_ne_zero (Nat.ne_zero_of_lt enough)
  have own : passedOn (peer i) [(s, .reads i)] = [] := rfl
  rw [received_own, drained]
  refine ⟨_, .cut waiting rfl, ?_⟩
  rw [passedOn_cons, own, silence]
  rw [← List.nil_append [Message.notify .internalServerError]]
  exact .over (Nat.zero_le 1) rfl

/-- A move of the other client that is refused, or that ends its game, is not passed on. -/
theorem Viewed.withheld {c₁ c₂ : UInt8} {code : Int} {after : Game}
    (viewed : Viewed outside i msg next later) (sound : Sound (s.game (peer i)))
    (returns : Returns (s.game (peer i)) (apiGetMove c₁ c₂) code after) (negative : code < 0)
    (game : next.game i = s.game i) (pipe : next.pipe i = s.pipe i) :
    Viewed outside i msg s ((s, .names (peer i) c₁ c₂) :: later) := by
  refine viewed.foreign (peer_ne i) nofun game ?_
  rw [passedOn_negative sound returns negative, pipe]
  exact List.append_nil _

/-- With no text under way one of the players names moves or hangs up. -/
theorem Viewed.idle {final : System} (through : ∀ left, outside.written left = true)
    (related : ∀ i, SameTurns (s.game i) (s.game (peer i))) (running : ∀ i, s.ended i = none)
    (drained : ∀ i, s.pipe i = []) (step : Step s event next)
    (phase : Phase SameTurns (fun _ => True) next)
    (rest : Execution next later final) (ended : final.ended i = some msg)
    (viewed : next.ended i = none → Viewed outside i msg next later) :
    Viewed outside i msg s ((s, event) :: later) := by
  have sound : ∀ j, Sound (s.game j) := fun j => (related j).1
  have empty : (readMove (s.pipe i)).toList = [] := by
    rw [drained]
    rfl
  have theirs : ¬ peer i = i := peer_ne i
  -- what ends a client is its end
  have ends : ∀ {first : EndMsg}, next.ended i = some first → first = msg := fun here =>
    Option.some.inj ((rest.kept here).symm.trans ended)
  cases step with
  | @refused j c₁ c₂ code after run turn tries rejected =>
    have returns := tryMove_yields.mp tries
    have refused : ¬ Accepted code := fun accepted => rejected.elim accepted.1 accepted.2
    rcases eq_or_peer i j with rfl | rfl
    · exact (viewed (running _)).refused (sound _) turn returns refused (update_self _ _ _) rfl
    · have negative : code < 0 := by rcases rejected with rfl | rfl <;> decide
      exact (viewed (running _)).withheld (sound _) returns negative (update_of_peer _ _ _) rfl
  | @decided j c₁ c₂ code after run turn tries negative played =>
    have returns := tryMove_yields.mp tries
    rcases eq_or_peer i j with rfl | rfl
    · obtain ⟨first, found⟩ := endMsg_negative negative
      have here : Function.update s.ended j (endMsg code) j = some first :=
        (update_self _ _ _).trans found
      obtain rfl := ends here
      exact .decided (sound _) turn returns played negative found (drained _)
        (rest.silent phase here)
    · exact (viewed ((update_of_peer _ _ _).trans (running _))).withheld (sound _) returns negative
        (update_of_peer _ _ _) rfl
  | @written j c₁ c₂ code after run turn tries nonneg =>
    have returns := tryMove_yields.mp tries
    rcases eq_or_peer i j with rfl | rfl
    · exact (viewed ((update_self _ _ _).trans (endMsg_nonneg nonneg))).passed through
        (sound _) turn
        returns nonneg (update_self _ _ _) (update_of_peer _ _ _)
    · refine (viewed ((update_of_peer _ _ _).trans (running _))).foreign theirs nofun
        (update_of_peer _ _ _) ?_
      have message : Function.update s.pipe (peer (peer i))
          (s.pipe (peer (peer i)) ++ apiText c₁ c₂ ++ [nul]) i = apiText c₁ c₂ ++ [nul] := by
        rw [peer_peer, update_self, drained, List.nil_append]
      rw [passedOn_nonneg (sound _) returns nonneg, empty]
      dsimp only
      rw [message, readMove_message]
      rfl
  | lost run turn tries nonneg gone => exact absurd (running _) gone
  | @hungUp j run turn =>
    rcases eq_or_peer i j with rfl | rfl
    · have here : Function.update s.ended j (endMsg ioError) j = some .ioError := update_self _ _ _
      obtain rfl := ends here
      exact .hungUp (sound _) turn (drained _) (rest.silent phase here)
    · refine (viewed ((update_of_peer _ _ _).trans (running _))).foreign theirs nofun rfl ?_
      exact List.append_nil _
  | read run waiting filled => exact absurd (drained _) filled
  | eof run waiting drained gone => exact absurd (running _) gone

/-- With a text under way it is read. -/
theorem Viewed.underway {final : System} {before : Game}
    (related : SameTurns before (s.game (peer j))) (turn : currPlayer before = j)
    (returns : Returns before (apiGetMove c₁ c₂) code (s.game j)) (nonneg : 0 ≤ code)
    (running : ∀ i, s.ended i = none) (drained : s.pipe j = [])
    (message : s.pipe (peer j) = apiText c₁ c₂ ++ [nul]) (step : Step s event next)
    (phase : Phase SameTurns (fun _ => True) next) (rest : Execution next later final)
    (ended : final.ended i = some msg)
    (viewed : next.ended i = none → Viewed outside i msg next later) :
    Viewed outside i msg s ((s, event) :: later) := by
  have sound : Sound (s.game j) := (returns.made related.1).sound related.1
  have mover : currPlayer (s.game j) ≠ j := by
    rw [currPlayer_succ (returns.turn related.1 (accepted_of_nonneg nonneg)), turn]
    exact peer_ne j
  have reader : currPlayer (s.game (peer j)) ≠ peer j := by
    rw [← currPlayer_congr related.2.2, turn]
    exact (peer_ne j).symm
  -- neither client is to move in its own game
  have idle : ∀ k, currPlayer (s.game k) ≠ k := by
    intro k
    rcases eq_or_peer j k with rfl | rfl
    · exact mover
    · exact reader
  cases step with
  | refused run own | decided run own | written run own | lost run own | hungUp run own =>
    exact absurd own (idle _)
  | eof run waiting empty gone => exact absurd (running _) gone
  | @read k code' after' run waiting filled parses =>
    rcases eq_or_peer j k with rfl | rfl
    · exact absurd drained filled
    obtain ⟨result, after, answer, same⟩ := Step.of_message related.2.1 message
      (.read run waiting filled parses)
    rw [same] at phase rest viewed
    rcases eq_or_peer j i with rfl | rfl
    · have other : Event.reads (peer i) ≠ .reads i := fun same => peer_ne i (Event.reads.inj same)
      refine (viewed ((update_of_peer _ _ _).trans (running _))).foreign id other
        (update_of_peer _ _ _) ?_
      dsimp only
      rw [update_of_peer]
      exact List.append_nil _
    · by_cases fits : 0 ≤ result
      · have zero : readCode result = 0 := if_neg (not_lt.mpr fits)
        have going :
          Function.update s.ended (peer j) (endMsg (readCode result)) (peer j) = none := by
          rw [update_self, zero]
          rfl
        exact (viewed going).received related.2.1 waiting message answer fits (update_self _ _ _)
          (update_self _ _ _)
      · have negative := not_le.mp fits
        have same : readCode result = result := if_pos negative
        obtain ⟨first, found⟩ := endMsg_negative negative
        have here : Function.update s.ended (peer j) (endMsg (readCode result)) (peer j) =
          some first := by
          rw [update_self, same, found]
        obtain rfl : first = msg := Option.some.inj ((rest.kept here).symm.trans ended)
        exact .lost related.2.1 waiting message answer negative found (rest.silent phase here)

/-- What a client writes from any state of an execution on in which it runs, if it ends. -/
theorem Execution.viewed {final : System} (through : ∀ left, outside.written left = true)
    (exec : Execution s history final) (phase : Phase SameTurns (fun _ => True) s)
    (running : s.ended i = none) (ended : final.ended i = some msg) :
    Viewed outside i msg s history := by
  induction history generalizing s with
  | nil =>
    generalize nothing : ([] : List (System × Event)) = history at exec
    cases exec with
    | start =>
      rw [running] at ended
      cases ended
    | step => simp at nothing
  | cons moment later ih =>
    obtain ⟨t, event⟩ := moment
    obtain ⟨rfl, next, step, rest⟩ := exec.head
    have goes := phase.goes step
    have viewed := fun here => ih rest goes here
    cases phase with
    | idle related run drained =>
      exact .idle through related run drained step goes rest ended viewed
    | sent j c₁ c₂ before code related turn returns nonneg run drained message =>
      exact .underway related turn returns nonneg run drained message step goes rest ended viewed
    | parted j first over_ fine drained found =>
      rcases eq_or_peer j i with rfl | rfl
      · rw [over_] at running
        cases running
      obtain ⟨-, waiting⟩ := found.resolve_right fun there =>
        Option.some_ne_none _ (there.symm.trans running)
      -- all that happens is that the client finds out
      have here := (step.of_parted over_ drained found).1
      have finds : next.ended (peer j) = some .ioError := by
        rw [here, update_self]
      obtain rfl : EndMsg.ioError = msg := Option.some.inj ((rest.kept finds).symm.trans ended)
      have parted : Phase SameTurns (fun _ => True) t := .parted j first over_ fine drained found
      obtain rfl := parted.reads over_ step
      exact .eof waiting drained (rest.silent goes finds)

end Steps

/-! ## Executions -/

section Execution

variable {memory : Fin 2 → Game} {history : List (System × Event)} {s : System}

/-- Take any execution of the two clients over memory that spills nothing, and a client that has
ended, whose player has spoken the protocol. What the client has written is what its process alone
writes on the bytes of its player and the reads from its pipe: a session that follows the contest as
an umpire, whose last message is the end of the client, and whose moves of the opponent are the
moves that the other client has made, in order and all of them, but perhaps the last. -/
theorem Execution.sessions (clean : ∀ i, Unspilled (memory i))
    (promotion : Fin 2 → List UInt8 → PieceType) (exec : Execution (System.start memory) history s)
    (i : Fin 2) (sent : List UInt8) (speaks : Speaks i sent history) (msg : EndMsg)
    (ended : s.ended i = some msg) :
    ∃ heard, (∀ depth turns, 0 < depth → sent.length + (received i history).length < turns →
        runClient depth turns ⟨promotion i, fun _ => true⟩ (memory i) i sent (received i history) =
          some (bytes (.initGame (UInt8.ofNat i) :: heard))) ∧
      Umpired ⟨promotion i, fun _ => true⟩ i Contest.start sent (received i history) heard ∧
      Views msg (passedOn (peer i) history) heard := by
  have phase : Phase SameTurns (fun _ => True) (System.start memory) := Execution.start.turns
  have outset : (System.start memory).ended i = none := rfl
  have through : ∀ left, Outside.written ⟨promotion i, fun _ => true⟩ left = true := fun _ => rfl
  obtain ⟨heard, hears, views⟩ := exec.viewed through phase outset ended sent
    (sent.length + (received i history).length + 1) speaks (Nat.lt_succ_self _)
  obtain ⟨heard', hears', umpired⟩ := gameLoop_broadcasts (clean i) ⟨promotion i, fun _ => true⟩ i
    (sent.length + (received i history).length + 1) _ _ _ sent (received i history) .start
    (newGame_stands (memory i)) (Nat.lt_succ_self _)
  obtain rfl : heard = heard' :=
    Message.flatMap_encode_injective (Option.some.inj ((hears 0 0).symm.trans (hears' 0 0)))
  exact ⟨heard, fun depth turns deep long => hears'.runs deep long, umpired, views⟩

end Execution

/-- White plays e2e4, and Black's player leaves when told. -/
theorem sessions_opening : ∃ history s heard, Execution (System.start fun _ => blank) history s ∧
    s.ended 1 = some .ioError ∧
    Umpired quietOutside 1 Contest.start [] (received 1 history) heard ∧
    Views .ioError [apiGetMove 208 144] heard := by
  have returns := (newGame_sound blank).played (apiGetMove 208 144)
  have zero : (play (newGame blank) (apiGetMove 208 144)).1 = 0 := by decide +kernel
  rw [zero] at returns
  have nonneg : (0 : Int) ≤ 0 := le_rfl
  have turn : currPlayer (newGame blank) = 0 := by decide
  obtain ⟨s₁, writes, -, game, ended, message⟩ :=
    Step.sends (s := System.start fun _ => blank) (i := 0) rfl turn rfl returns nonneg
  have waiting : currPlayer (newGame blank) ≠ 1 := by
    rw [turn]
    decide
  have reads := Step.reads_message ended game waiting message returns
  obtain ⟨s₂, reads, game₂, ended₂⟩ : ∃ s₂, Step s₁ (.reads 1) s₂ ∧
      s₂.game (peer 0) = (play (newGame blank) (apiGetMove 208 144)).2 ∧ s₂.ended 1 = none :=
    ⟨_, reads, update_self s₁.game (peer 0) _, update_self s₁.ended (peer 0) _⟩
  have turn₂ : currPlayer (s₂.game 1) = 1 := by
    have taken := returns.turn (newGame_sound blank) (accepted_of_nonneg nonneg)
    have after := currPlayer_succ taken
    rw [← game₂, turn] at after
    exact after
  have exec := ((Execution.start.step writes).step reads).step (Step.hungUp ended₂ turn₂)
  have clean : ∀ i : Fin 2, Unspilled ((fun _ => blank) i) :=
    fun i r c _ _ _ => show Player.white.value / 2 % 16 = 0 by decide
  have speaks : Speaks 1 [] [(System.start fun _ => blank, .names 0 208 144), (s₁, .reads 1),
      (s₂, .hangsUp 1)] :=
    .other (show (0 : Fin 2) ≠ 1 by decide) (.other id (.hangsUp rfl .nothing))
  have left := update_self s₂.ended 1 (endMsg ioError)
  obtain ⟨heard, -, umpired, views⟩ :=
    Execution.sessions clean (fun _ _ => .empty) exec 1 [] speaks .ioError left
  refine ⟨_, _, heard, exec, left, umpired, ?_⟩
  have moves := @passedOn_nonneg (System.start fun _ => blank) 0 208 144 0 _ (newGame_sound blank)
    returns nonneg
  have all_ : passedOn (peer 1) ([] ++ [(System.start fun _ => blank, Event.names 0 208 144)] ++
      [(s₁, .reads 1)] ++ [(s₂, .hangsUp 1)]) = [apiGetMove 208 144] := moves
  rwa [all_] at views

end Chessh
