import Chessh.Client.Perft
import Chessh.Verif.Coordinates
import Chessh.Verif.Loading

/-!
# A start sequence is replayed

`run_sequence` goes through a text with one index, and copies each move into a buffer of ten
characters. It makes the calls of `make_move` that the texts between the spaces stand for, and
accesses nothing outside of the text and the buffer.
-/

namespace Chessh

/-! ## What the text stands for -/

/-- A character of a move text: neither a separator nor the end. -/
def Plain (ch : Char) : Prop := ch ≠ ' ' ∧ ch ≠ nul

instance (ch : Char) : Decidable (Plain ch) := inferInstanceAs (Decidable (_ ∧ _))

/-- The text of the next move, as far as there is room. -/
def token : Nat → List Char → List Char
  | room + 1, ch :: rest => if Plain ch then ch :: token room rest else []
  | _, _ => []

/-- The texts of all moves. The character behind each is skipped, whatever it is. -/
def tokens (s : List Char) : List (List Char) :=
  if s.headD nul = nul then []
  else token 9 s ::
    match _left : s.drop (token 9 s).length with
    | [] => []
    | next :: rest => if next = nul then [] else tokens rest
termination_by s.length
decreasing_by
  have length := congrArg List.length _left
  rw [List.length_drop, List.length_cons] at length
  omega

/-- The moves of the texts are made in turn, until a text is no move or a code is negative. -/
def playTexts (depth : Nat) : Game → List (List Char) → Option (Int × Game)
  | g, [] => some (0, g)
  | g, text :: rest =>
    (tryMove depth g text).bind fun (code, after) =>
      if code < 0 then some (1, after) else playTexts depth after rest

/-- The moves are made in turn, until a code is negative. -/
def playAll (depth : Nat) : Game → List Move → Option (Int × Game)
  | g, [] => some (0, g)
  | g, m :: rest =>
    (makeMove depth g m).bind fun (code, after) =>
      if code < 0 then some (1, after) else playAll depth after rest

/-! ## The buffer -/

/-- A character of the text, or its end. -/
theorem charAt_eq {s : List Char} {i : Nat} (inside : i ≤ s.length) :
    charAt s i = .ok ((s.drop i).headD nul) := by
  rw [charAt, if_pos inside, List.headD_eq_head?_getD, List.head?_drop, List.getD_eq_getElem?_getD]

/-- Storing in the buffer. -/
theorem TokenBuff.store_eq (buff : TokenBuff) {j : Nat} (inside : j < 10) (ch : Char) :
    ∃ after, buff.store j ch = .ok after ∧
      after.toList = buff.toList.take j ++ ch :: buff.toList.drop (j + 1) := by
  refine ⟨buff.set j ch inside, dif_pos inside, ?_⟩
  have long : j < buff.toList.length := by simpa using inside
  rw [Vector.toList_set, List.set_eq_take_append_cons_drop, if_pos long]

/-- The next move text lies in the rest of the text. -/
theorem token_length : ∀ (room : Nat) (s : List Char),
    (token room s).length ≤ s.length ∧ (token room s).length ≤ room := by
  intro room
  induction room with
  | zero => exact fun s => ⟨Nat.zero_le _, le_rfl⟩
  | succ room ih =>
    intro s
    cases s with
    | nil => exact ⟨le_rfl, Nat.zero_le _⟩
    | cons ch rest =>
      rw [token]
      split
      · have := ih rest
        simp only [List.length_cons]
        omega
      · exact ⟨Nat.zero_le _, Nat.zero_le _⟩

/-- The characters of a move text. -/
theorem token_plain : ∀ (room : Nat) (s : List Char), ∀ ch ∈ token room s, Plain ch := by
  intro room
  induction room with
  | zero => exact fun s ch member => absurd member List.not_mem_nil
  | succ room ih =>
    intro s ch member
    cases s with
    | nil => exact absurd member List.not_mem_nil
    | cons first rest =>
      rw [token] at member
      split at member
      · rename_i plain
        cases member with
        | head => exact plain
        | tail _ member => exact ih rest ch member
      · exact absurd member List.not_mem_nil

/-- The inner loop copies the next move text and stays inside. -/
theorem copyToken_eq {s : List Char} {i : Nat} : ∀ (turns j room : Nat) (buff : TokenBuff),
    i + j ≤ s.length → j + room = 9 → room < turns →
    ∃ after, copyToken s i turns j buff = .ok (j + (token room (s.drop (i + j))).length, after) ∧
      after.toList.take (j + (token room (s.drop (i + j))).length) =
        buff.toList.take j ++ token room (s.drop (i + j)) := by
  intro turns
  induction turns with
  | zero => intro j room buff inside short enough; omega
  | succ turns ih =>
    intro j room buff inside short enough
    rw [copyToken, charAt_eq inside]
    simp only [bind, Except.bind]
    by_cases more : (s.drop (i + j)).headD nul ≠ ' ' ∧ (s.drop (i + j)).headD nul ≠ nul ∧ j < 10 - 1
    · rw [if_pos more]
      cases left : s.drop (i + j) with
      | nil =>
        rw [left] at more
        exact absurd rfl more.2.1
      | cons ch rest =>
        rw [left, List.headD_cons] at more
        obtain ⟨room, rfl⟩ : ∃ n, room = n + 1 := ⟨room - 1, by omega⟩
        obtain ⟨stored, store, content⟩ := buff.store_eq (show j < 10 by omega) ch
        have longer : i + (j + 1) ≤ s.length := by
          have length := congrArg List.length left
          rw [List.length_drop, List.length_cons] at length
          omega
        have next : s.drop (i + (j + 1)) = rest := by
          rw [← Nat.add_assoc, ← List.drop_drop, left, List.drop_succ_cons, List.drop_zero]
        obtain ⟨after, copies, copied⟩ := ih (j + 1) room stored longer (by omega) (by omega)
        have taken : stored.toList.take (j + 1) = buff.toList.take j ++ [ch] := by
          have full : (buff.toList.take j).length = j := by simp; omega
          rw [content, List.take_append, full, Nat.add_sub_cancel_left,
            List.take_of_length_le (by omega),
            List.take_succ_cons, List.take_zero]
        have plain : Plain ch := ⟨more.1, more.2.1⟩
        rw [next] at copies copied
        rw [taken] at copied
        rw [List.headD_cons, store, token, if_pos plain, List.length_cons]
        have shifted : j + ((token room rest).length + 1) = j + 1 + (token room rest).length := by
          omega
        refine ⟨after, ?_, ?_⟩
        · rw [shifted]
          exact copies
        · rw [shifted, copied, List.append_assoc, List.singleton_append]
    · have none : token room (s.drop (i + j)) = [] := by
        cases left : s.drop (i + j) with
        | nil => cases room <;> rfl
        | cons ch rest =>
          cases room with
          | zero => rfl
          | succ room =>
            rw [left, List.headD_cons] at more
            rw [token, if_neg]
            exact fun plain => more ⟨plain.1, plain.2, by omega⟩
      rw [if_neg more, none]
      exact ⟨buff, rfl, (List.append_nil _).symm⟩

/-- The text in the buffer once it is terminated. -/
theorem TokenBuff.text_eq {buff : TokenBuff} {word : List Char} (short : word.length < 10)
    (copied : buff.toList.take word.length = word) (plain : ∀ ch ∈ word, Plain ch) :
    ∃ after, buff.store word.length nul = .ok after ∧ after.text = .ok word := by
  obtain ⟨after, store, content⟩ := buff.store_eq short nul
  rw [copied] at content
  refine ⟨after, store, ?_⟩
  have ends : nul ∈ after.toList := by
    rw [content]
    exact List.mem_append_right _ List.mem_cons_self
  have all : ∀ ch ∈ word, decide (ch ≠ nul) = true :=
    fun ch member => decide_eq_true (plain ch member).2
  rw [TokenBuff.text, if_pos ends, content, cString, List.takeWhile_append_of_pos all,
    List.takeWhile_cons_of_neg (by simp), List.append_nil]

/-! ## The text -/

/-- The texts behind the first. -/
theorem tokens_cons {s : List Char} (more : s.headD nul ≠ nul) :
    tokens s = token 9 s :: if (s.drop (token 9 s).length).headD nul = nul then []
      else tokens (s.drop ((token 9 s).length + 1)) := by
  rw [tokens, if_neg more, ← List.drop_drop]
  split
  · rename_i left
    rw [left]
    rfl
  · rename_i next rest left
    rw [left]
    rfl

/-- The outer loop plays the texts that are left. -/
theorem runSequenceLoop_eq (depth : Nat) (memory : Nat → TokenBuff) (s : List Char) :
    ∀ (turns i : Nat) (g : Game), i ≤ s.length → s.length < turns + i →
      runSequenceLoop depth memory s turns i g =
        orStop .exhausted (playTexts depth g (tokens (s.drop i))) := by
  intro turns
  induction turns with
  | zero => intro i g inside enough; omega
  | succ turns ih =>
    intro i g inside enough
    rw [runSequenceLoop, charAt_eq inside]
    simp only [bind, Except.bind]
    by_cases done : (s.drop i).headD nul = nul
    · rw [if_pos done, tokens, if_pos done]
      rfl
    · rw [if_neg done, tokens_cons done]
      obtain ⟨buff, copies, copied⟩ := copyToken_eq 10 0 9 (memory i) inside rfl (by omega)
      obtain ⟨fits, short⟩ := token_length 9 (s.drop i)
      rw [List.length_drop] at fits
      simp only [Nat.add_zero, Nat.zero_add, List.take_zero, List.nil_append] at copies copied
      obtain ⟨stored, store, text⟩ := TokenBuff.text_eq (by omega) copied (token_plain 9 _)
      rw [copies]
      dsimp only
      rw [store]
      dsimp only
      rw [text]
      dsimp only
      rw [playTexts, tryMove]
      cases parsed : parseMove (token 9 (s.drop i)) with
      | none => rfl
      | some m =>
        dsimp only
        cases made : makeMove depth g m with
        | none => rfl
        | some result =>
          obtain ⟨code, after⟩ := result
          dsimp only [orStop, Option.bind_some]
          by_cases negative : code < 0
          · rw [if_pos negative, if_pos negative]
          · rw [if_neg negative, if_neg negative, charAt_eq (by omega), ← List.drop_drop]
            dsimp only
            by_cases last : ((s.drop i).drop (token 9 (s.drop i)).length).headD nul = nul
            · rw [if_pos last, if_pos last]
              rfl
            · have inside' : i + (token 9 (s.drop i)).length < s.length := by
                by_contra past
                rw [List.drop_drop, List.drop_of_length_le (by omega)] at last
                exact last rfl
              rw [if_neg last, if_neg last, ih _ after (by omega) (by omega), List.drop_drop]
              rfl

/-- Any text is played as the texts of its moves. -/
theorem runSequence_eq (depth : Nat) (memory : Nat → TokenBuff) (g : Game) (s : List Char) :
    runSequence depth memory g s = orStop .exhausted (playTexts depth g (tokens s)) :=
  runSequenceLoop_eq depth memory s _ 0 g (Nat.zero_le _) (by omega)

/-! ## Moves that have been printed -/

/-- A text without a separator is the first of a text that goes on with a separator, or ends. -/
theorem token_append {word rest : List Char} (plain : ∀ ch ∈ word, Plain ch)
    (ends : ∀ ch ∈ rest.head?, ¬ Plain ch) : ∀ {room : Nat}, word.length ≤ room →
      token room (word ++ rest) = word := by
  induction word with
  | nil =>
    intro room short
    cases rest with
    | nil => cases room <;> rfl
    | cons ch rest =>
      cases room with
      | zero => rfl
      | succ room => exact if_neg (ends ch rfl)
  | cons ch word ih =>
    intro room short
    rw [List.length_cons] at short
    obtain ⟨room, rfl⟩ : ∃ n, room = n + 1 := ⟨room - 1, by omega⟩
    rw [List.cons_append, token, if_pos (plain ch List.mem_cons_self),
      ih (fun ch member => plain ch (List.mem_cons_of_mem _ member)) (by omega)]

/-- The texts of words between single spaces are the words. -/
theorem tokens_intercalate {trailing : List Char} (trails : trailing = [] ∨ trailing = [' ']) :
    ∀ {words : List (List Char)}, words ≠ [] →
      (∀ word ∈ words, word ≠ [] ∧ word.length ≤ 9 ∧ ∀ ch ∈ word, Plain ch) →
      tokens (List.intercalate [' '] words ++ trailing) = words := by
  intro words
  induction words with
  | nil => exact fun none => absurd rfl none
  | cons word words ih =>
    intro _ printed
    obtain ⟨filled, short, plain⟩ := printed word List.mem_cons_self
    have starts : ∀ rest : List Char, (word ++ rest).headD nul ≠ nul := by
      intro rest
      obtain ⟨ch, more, rfl⟩ := List.exists_cons_of_ne_nil filled
      exact (plain ch List.mem_cons_self).2
    have behind : ∀ rest : List Char, (word ++ rest).drop (word.length + 1) = rest.drop 1 := by
      intro rest
      rw [← List.drop_drop, List.drop_left]
    cases words with
    | nil =>
      have whole : List.intercalate [' '] [word] = word := by simp [List.intercalate]
      have first : token 9 (word ++ trailing) = word := by
        refine token_append plain (fun ch member => ?_) short
        rcases trails with rfl | rfl
        · cases member
        · cases member
          exact fun plain => plain.1 rfl
      rw [whole, tokens_cons (starts _), first, List.drop_left, behind]
      rcases trails with rfl | rfl
      · rfl
      · rw [if_neg (by decide), List.drop_one, List.tail_cons, tokens,
          if_pos (show [].headD nul = nul from rfl)]
    | cons next words =>
      have split : List.intercalate [' '] (word :: next :: words) ++ trailing =
          word ++ ' ' :: (List.intercalate [' '] (next :: words) ++ trailing) := by
        simp [List.intercalate]
      have first : token 9 (word ++ ' ' :: (List.intercalate [' '] (next :: words) ++ trailing)) =
          word := by
        refine token_append plain (fun ch member => ?_) short
        cases member
        exact fun plain => plain.1 rfl
      have others := ih (List.cons_ne_nil _ _) fun word member =>
        printed word (List.mem_cons_of_mem _ member)
      rw [split, tokens_cons (starts _), first, List.drop_left, behind, List.headD_cons,
        if_neg (by decide), List.drop_one, List.tail_cons, others]

/-- A printed move is a text without a separator that fits the buffer. -/
theorem Sendable.printed {m : Move} (sendable : Sendable m) :
    moveToString m ≠ [] ∧ (moveToString m).length ≤ 9 ∧ ∀ ch ∈ moveToString m, Plain ch := by
  obtain ⟨a, b, c, d, ⟨ha, hb, hc, hd⟩, text, ⟨cI, rI⟩, cF, rF⟩ := sendable.text
  have file : ∀ ch k, ch ≠ nul → ofChar ch.toLower - ofChar 'a' = k → 0 ≤ k ∧ k < 8 → Plain ch := by
    intro ch k more value bounds
    have isFile : IsFile ch := isFile_iff.mpr (value ▸ bounds)
    refine ⟨?_, more⟩
    rintro rfl
    exact absurd isFile (by unfold IsFile; decide)
  have rank : ∀ ch k, ch ≠ nul → 8 - (ofChar ch - ofChar '0') = k → 0 ≤ k ∧ k < 8 → Plain ch := by
    intro ch k more value bounds
    have isRank : IsRank ch := isRank_iff.mpr (value ▸ bounds)
    refine ⟨?_, more⟩
    rintro rfl
    exact absurd isRank (by unfold IsRank; decide)
  have letter : m.promotion.isPromotion = true → Plain (pieceToChar m.promotion) := by
    cases m.promotion with
    | rook | knight | bishop | queen => decide
    | king | pawn | empty | other raw => exact fun promotes => Bool.noConfusion promotes
  have first := file a _ ha cI sendable.onS.2
  have second := rank b _ hb rI sendable.onS.1
  have third := file c _ hc cF sendable.onT.2
  have fourth := rank d _ hd rF sendable.onT.1
  rw [text]
  split
  · simp [first, second, third, fourth]
  · rename_i named
    simp [first, second, third, fourth, letter (sendable.promotion.resolve_left named)]

/-- Moves that the engine plays without an end are all made. -/
theorem playAll_replay {depth : Nat} : ∀ {moves : List Move} {g : Game}, Sound g →
    (∀ call ∈ (replay g moves).1, 0 ≤ call.2) →
      playAll (depth + 1) g moves = some (0, (replay g moves).2) := by
  intro moves
  induction moves with
  | nil => exact fun _ _ => rfl
  | cons m rest ih =>
    intro g sound goes
    have first : ¬ (play g m).1 < 0 := not_lt.mpr (goes _ List.mem_cons_self)
    rw [playAll, sound.asked m depth, Option.bind_some]
    dsimp only
    rw [if_neg first, ih (sound.play m) fun call member =>
      goes call (List.mem_cons_of_mem _ member)]
    rfl

/-- The texts of moves are played as the moves. -/
theorem playTexts_printed (depth : Nat) : ∀ {moves : List Move} (g : Game),
    (∀ m ∈ moves, Sendable m) →
      playTexts depth g (moves.map moveToString) = playAll depth g moves := by
  intro moves
  induction moves with
  | nil => exact fun g _ => rfl
  | cons m rest ih =>
    intro g sendable
    have others := fun m member => sendable m (List.mem_cons_of_mem _ member)
    rw [List.map_cons, playTexts, tryMove, (sendable m List.mem_cons_self).parseMove_text, playAll]
    dsimp only
    cases makeMove depth g m with
    | none => rfl
    | some result =>
      rw [Option.bind_some, Option.bind_some]
      split
      · rfl
      · exact ih _ others

/-! ## The replay -/

/-- On a sound board the texts are played to an end, and what is played is a run. -/
theorem Run.texts {start g : Game} {calls : List (Move × Int)} (sound : Sound start)
    (run : Run start calls g) (depth : Nat) (texts : List (List Char)) :
    ∃ code calls after, playTexts (depth + 1) g texts = some (code, after) ∧
      Run start calls after ∧ (code = 0 ∨ code = 1) := by
  induction texts generalizing g calls with
  | nil => exact ⟨0, calls, g, rfl, run, Or.inl rfl⟩
  | cons text rest ih =>
    rw [playTexts, tryMove]
    cases parseMove text with
    | none => exact ⟨1, calls, g, rfl, run, Or.inr rfl⟩
    | some m =>
      obtain ⟨code, after, asked, -⟩ := makeMove_made (run.sound sound) m
      have next := run.step (.of_asked asked)
      dsimp only
      rw [asked, Option.bind_some]
      dsimp only
      split
      · exact ⟨1, _, after, rfl, next, Or.inr rfl⟩
      · exact ih next

/-- On printed moves with single spaces between them, and one behind or none, the moves are made. -/
theorem runSequence_printed (depth : Nat) (memory : Nat → TokenBuff) (g : Game) {moves : List Move}
    (filled : moves ≠ []) (sendable : ∀ m ∈ moves, Sendable m) {trailing : List Char}
    (trails : trailing = [] ∨ trailing = [' ']) :
    runSequence depth memory g (List.intercalate [' '] (moves.map moveToString) ++ trailing) =
      orStop .exhausted (playAll depth g moves) := by
  have words : ∀ word ∈ moves.map moveToString,
      word ≠ [] ∧ word.length ≤ 9 ∧ ∀ ch ∈ word, Plain ch := by
    intro word member
    obtain ⟨m, listed, rfl⟩ := List.mem_map.mp member
    exact (sendable m listed).printed
  have texts : moves.map moveToString ≠ [] := mt List.map_eq_nil_iff.mp filled
  rw [runSequence_eq, tokens_intercalate trails texts words, playTexts_printed depth g sendable]

/-- `run_sequence` makes exactly the calls that the text stands for. On printed moves with single
spaces between them, and one behind or none, it makes the moves in turn and stops at the first
negative code, with which it returns 1 in place of 0. On any text it stops as the finite list of its
texts does, without an access outside of the text or of its buffer; and where every call of
`make_move` returns, so does it. -/
theorem runSequence_exact (depth : Nat) (memory : Nat → TokenBuff) (g : Game) :
    (∀ moves, moves ≠ [] → (∀ m ∈ moves, Sendable m) →
      ∀ trailing, trailing = [] ∨ trailing = [' '] →
      runSequence depth memory g (List.intercalate [' '] (moves.map moveToString) ++ trailing) =
        orStop .exhausted (playAll depth g moves)) ∧
    (∀ s, runSequence depth memory g s = orStop .exhausted (playTexts depth g (tokens s)) ∧
      runSequence depth memory g s ≠ .error .outside) ∧
    ∀ start calls, Started start → Run start calls g → ∀ s, ∃ code after,
      runSequence (depth + 1) memory g s = .ok (code, after) ∧ (code = 0 ∨ code = 1) := by
  refine ⟨fun moves filled sendable trailing trails =>
    runSequence_printed depth memory g filled sendable trails,
    fun s => ⟨runSequence_eq _ _ _ _, ?_⟩, fun start calls started run s => ?_⟩
  · rw [runSequence_eq]
    cases playTexts depth g (tokens s) with
    | none =>
      intro same
      cases same
    | some result =>
      intro same
      cases same
  · obtain ⟨code, -, after, plays, -, value⟩ := run.texts started.sound depth (tokens s)
    rw [runSequence_eq, plays]
    exact ⟨code, after, rfl, value⟩

end Chessh
