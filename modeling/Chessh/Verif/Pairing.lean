import Chessh.Verif.Matchmaker

/-!
# The players of a round

A round of `run_daemon` is meant to tell two players of each other. It tests whether the first of
them has left and not whether the second has, and `Rounds.paired_iff` says what is left of the pair.
-/

namespace Chessh.Daemon

/-! ## Pairs -/

/-- Each player reads the pipe that the other one writes to. -/
def Crossed (fds fds' : Descriptor × Descriptor) : Prop :=
  ∃ a b, a ≠ b ∧ fds = (.readEnd a, .writeEnd b) ∧ fds' = (.readEnd b, .writeEnd a)

/-- Whoever is sent a set has an opponent. -/
def Paired (cs : List Call) : Prop :=
  ∀ dest fds id, .sendfds dest fds id true ∈ cs → ∃ m n fds' id',
    dest = some (.connection m) ∧ .accept m ∈ cs ∧ .accept n ∈ cs ∧ m ≠ n ∧
    .sendfds (some (.connection n)) fds' id' true ∈ cs ∧ id + id' = 1 ∧ Crossed fds fds'

/-- A pipe is not made, or the last `accept` of the round returns a connection and both sets are
sent. -/
def Matched (os : List Outcome) : Prop :=
  .pipe false ∈ os ∨ ∃ front, os = front ++ [.accept true, .sendfds true, .sendfds true]

/-! ## Inside a round -/

/-- The sets that are sent successfully. -/
def Sent (cs : List Call) (sets : List (Option Descriptor × (Descriptor × Descriptor) × Nat)) :
    Prop :=
  ∀ dest fds id, .sendfds dest fds id true ∈ cs ↔ (dest, fds, id) ∈ sets

/-- The descriptor is −1 or was accepted. -/
def Came (cs : List Call) (connections : Nat) (fd : Option Descriptor) : Prop :=
  ∀ d, fd = some d → ∃ n, d = .connection n ∧ .accept n ∈ cs ∧ n < connections

/-- The sets of the players. -/
structure Ready (s : Matchmaker) : Prop where
  /-- One of the players is nought and the other one. -/
  ids : s.id1 + s.id2 = 1
  /-- The pipes are crossed. -/
  crossed : Crossed s.p1set s.p2set

/-- What holds at the calls of a round. -/
def Midway (os : List Outcome) (cs : List Call) (s : Matchmaker) : Prop :=
  .pipe false ∉ os ∧
  match s.point with
  | .random => False
  | .pipe1 => Sent cs [] ∧ s.id1 + s.id2 = 1
  | .pipe2 => Sent cs [] ∧ s.id1 + s.id2 = 1 ∧ ∃ a < s.pipes, s.pipe1 = (.readEnd a, .writeEnd a)
  | .accept1 => Sent cs [] ∧ Ready s
  | .accept2 => Sent cs [] ∧ Ready s ∧ Came cs s.connections s.p1fd
  | .sendfds1 =>
    Sent cs [] ∧ Ready s ∧ Came cs s.connections s.p1fd ∧ Came cs s.connections s.p2fd ∧
      (s.p1fd ≠ none → s.p1fd ≠ s.p2fd) ∧ ∃ front, os = front ++ [.accept s.p2fd.isSome]
  | .sendfds2 =>
    Sent cs [(s.p1fd, s.p1set, s.id1)] ∧ Ready s ∧ Came cs s.connections s.p1fd ∧
      Came cs s.connections s.p2fd ∧ s.p1fd ≠ none ∧ s.p1fd ≠ s.p2fd ∧
      ∃ front, os = front ++ [.accept s.p2fd.isSome, .sendfds true]

section Steps

variable {os : List Outcome} {cs new : List Call} {s t : Matchmaker} {o : Outcome}

/-- Connections stay accepted. -/
theorem Came.later {fd : Option Descriptor} {n n' : Nat} (came : Came cs n fd) (grows : n ≤ n') :
    Came (cs ++ new) n' fd := by
  intro d here
  obtain ⟨m, name, accepted, counted⟩ := came d here
  exact ⟨m, name, List.mem_append_left new accepted, by omega⟩

/-- A connection that is accepted now. -/
theorem Came.now {n : Nat} : Came (cs ++ [.accept n]) (n + 1) (some (.connection n)) := by
  intro d here
  cases here
  exact ⟨n, rfl, by simp, by simp⟩

/-- A call that failed. -/
theorem Came.none {n : Nat} : Came cs n none := by
  intro d here
  cases here

/-- The sets stay as they are. -/
theorem Ready.moved (ready : Ready s) (id1 : t.id1 = s.id1) (id2 : t.id2 = s.id2)
    (pipe1 : t.pipe1 = s.pipe1) (pipe2 : t.pipe2 = s.pipe2) : Ready t where
  ids := by rw [id1, id2, ready.ids]
  crossed := by
    have crossed := ready.crossed
    unfold Matchmaker.p1set Matchmaker.p2set at crossed ⊢
    rwa [pipe1, pipe2]

/-- Calls that send nothing. -/
theorem Sent.quiet {sets : List (Option Descriptor × (Descriptor × Descriptor) × Nat)}
    (sent : Sent cs sets) (silent : ∀ dest fds id, .sendfds dest fds id true ∉ new) :
    Sent (cs ++ new) sets := by
  intro dest fds id
  rw [List.mem_append, ← sent dest fds id]
  simp [silent]

/-- A step inside a round. -/
theorem Midway.step (midway : Midway os cs s) (moves : Moves s o t new)
    (going : t.point ≠ .random) : Midway (os ++ [o]) (cs ++ new) t := by
  obtain ⟨made, midway⟩ := midway
  cases moves with
  | drawn here => simp [here] at midway
  | noPipe1 here | noPipe2 here | finished here => exact absurd rfl going
  | pipe1 here =>
    simp only [here] at midway
    obtain ⟨sent, ids⟩ := midway
    refine ⟨by simp [made], sent.quiet (by simp), ids, s.pipes, Nat.lt_succ_self _, rfl⟩
  | pipe2 here =>
    simp only [here] at midway
    obtain ⟨sent, ids, a, before, first⟩ := midway
    have crossed : Crossed (s.pipe1.1, .writeEnd s.pipes) (.readEnd s.pipes, s.pipe1.2) := by
      rw [first]
      exact ⟨a, s.pipes, by omega, rfl, rfl⟩
    exact ⟨by simp [made], sent.quiet (by simp), ids, crossed⟩
  | noAccept1 here =>
    simp only [here] at midway
    refine ⟨by simp [made], ?_⟩
    simp only [here]
    simpa using midway
  | accept1 here =>
    simp only [here] at midway
    obtain ⟨sent, ready⟩ := midway
    exact ⟨by simp [made], sent.quiet (by simp), ready.moved rfl rfl rfl rfl, Came.now⟩
  | noAccept2 here =>
    simp only [here] at midway
    obtain ⟨sent, ready, came⟩ := midway
    exact ⟨by simp [made], sent.quiet (by simp), ready.moved rfl rfl rfl rfl, came.later le_rfl,
      .none, id, os, rfl⟩
  | accept2 here =>
    simp only [here] at midway
    obtain ⟨sent, ready, came⟩ := midway
    refine ⟨by simp [made], sent.quiet (by simp), ready.moved rfl rfl rfl rfl,
      came.later (Nat.le_succ _), Came.now, fun _ same => ?_, os, rfl⟩
    obtain ⟨n, name, -, before⟩ := came _ same
    cases name
    exact absurd before (Nat.lt_irrefl _)
  | gone here =>
    simp only [here] at midway
    obtain ⟨sent, ready, -, came, -, -⟩ := midway
    exact ⟨by simp [made], sent.quiet (by simp), ready.moved rfl rfl rfl rfl, came.later le_rfl⟩
  | told here first =>
    simp only [here] at midway
    obtain ⟨sent, ready, came1, came2, apart, front, ends⟩ := midway
    have told : Sent (cs ++ [.sendfds s.p1fd s.p1set s.id1 true]) [(s.p1fd, s.p1set, s.id1)] := by
      intro dest fds id
      have none := sent dest fds id
      simp only [List.not_mem_nil, iff_false] at none
      simp [none]
    refine ⟨by simp [made], told, ready.moved rfl rfl rfl rfl, came1.later le_rfl,
      came2.later le_rfl,
      first, apart first, front, ?_⟩
    rw [ends, List.append_assoc]
    rfl

/-- Pipes are crossed for both players. -/
theorem Crossed.symm {fds fds' : Descriptor × Descriptor} (crossed : Crossed fds fds') :
    Crossed fds' fds := by
  obtain ⟨a, b, apart, first, second⟩ := crossed
  exact ⟨b, a, apart.symm, second, first⟩

/-- Where nothing is sent nobody waits for an opponent. -/
theorem Sent.paired (sent : Sent cs []) : Paired cs :=
  fun dest fds id told => absurd ((sent dest fds id).mp told) List.not_mem_nil

/-- The outcomes of a round that sends the second set. -/
theorem matched_iff {front : List Outcome} {accepted ok : Bool}
    (made : .pipe false ∉ os) (ends : os = front ++ [.accept accepted, .sendfds true]) :
    Matched (os ++ [.sendfds ok]) ↔ accepted = true ∧ ok = true := by
  constructor
  · rintro (failed | ⟨front', same⟩)
    · simp [made] at failed
    · rw [ends, List.append_assoc] at same
      have last := List.append_inj_right' same rfl
      simpa using last
  · rintro ⟨rfl, rfl⟩
    right
    refine ⟨front, ?_⟩
    rw [ends, List.append_assoc]
    rfl

/-- The last step of a round pairs the players when both hear of it. -/
theorem Midway.finished {ok : Bool} (midway : Midway os cs s) (here : s.point = .sendfds2) :
    Paired (cs ++ .sendfds s.p2fd s.p2set s.id2 ok :: s.finish.2) ↔ s.p2fd ≠ none ∧ ok = true := by
  obtain ⟨-, midway⟩ := midway
  simp only [here] at midway
  obtain ⟨sent, ready, came1, came2, first, apart, -⟩ := midway
  obtain ⟨e, name⟩ := Option.ne_none_iff_exists'.mp first
  obtain ⟨m, rfl, accepted, -⟩ := came1 e name
  have told : ∀ dest fds id, .sendfds dest fds id true ∈
      cs ++ .sendfds s.p2fd s.p2set s.id2 ok :: s.finish.2 ↔
      (dest = s.p1fd ∧ fds = s.p1set ∧ id = s.id1) ∨
        (dest = s.p2fd ∧ fds = s.p2set ∧ id = s.id2 ∧ ok = true) := by
    intro dest fds id
    rw [List.mem_append, sent]
    simp [Matchmaker.finish, Matchmaker.error2]
  constructor
  · intro paired
    obtain ⟨m', n, fds', id', mine, -, -, other, heard, -, -⟩ :=
      paired _ _ _ ((told _ _ _).mpr (Or.inl ⟨rfl, rfl, rfl⟩))
    rcases (told _ _ _).mp heard with ⟨same, -, -⟩ | ⟨same, -, -, rfl⟩
    · rw [mine] at same
      cases same
      exact absurd rfl other
    · rw [← same]
      exact ⟨Option.some_ne_none _, rfl⟩
  · rintro ⟨second, rfl⟩
    obtain ⟨e', name'⟩ := Option.ne_none_iff_exists'.mp second
    obtain ⟨n, rfl, accepted', -⟩ := came2 e' name'
    have other : m ≠ n := fun same => apart (by rw [name, name', same])
    intro dest fds id heard
    rcases (told dest fds id).mp heard with ⟨rfl, rfl, rfl⟩ | ⟨rfl, rfl, rfl, -⟩
    · exact ⟨m, n, s.p2set, s.id2, name, List.mem_append_left _ accepted,
        List.mem_append_left _ accepted', other, (told _ _ _).mpr
          (Or.inr ⟨name'.symm, rfl, rfl, rfl⟩),
        ready.ids, ready.crossed⟩
    · exact ⟨n, m, s.p1set, s.id1, name', List.mem_append_left _ accepted',
        List.mem_append_left _ accepted, other.symm,
          (told _ _ _).mpr (Or.inl ⟨name.symm, rfl, rfl⟩),
        (Nat.add_comm _ _).trans ready.ids, ready.crossed.symm⟩

/-- The last step of a round. -/
theorem Midway.paired_iff (midway : Midway os cs s) (moves : Moves s o t new)
    (ended : t.point = .random) : Paired (cs ++ new) ↔ Matched (os ++ [o]) := by
  have told := midway
  obtain ⟨made, midway⟩ := midway
  cases moves with
  | drawn here => simp [here] at midway
  | noPipe1 here | noPipe2 here =>
    simp only [here] at midway
    have sent := midway.1
    exact iff_of_true (sent.quiet (by simp [Matchmaker.error2])).paired (Or.inl (by simp))
  | pipe1 here | pipe2 here | noAccept2 here | accept1 here | accept2 here
  | gone here | told here =>
    cases ended
  | noAccept1 here =>
    rw [here] at ended
    cases ended
  | @finished ok here second =>
    simp only [here] at midway
    obtain ⟨-, -, -, -, -, -, front, ends⟩ := midway
    rw [told.finished here, matched_iff made ends, Option.isSome_iff_ne_none]

/-- The first step of a round draws the players. -/
theorem Midway.first (top : s.point = .random) (moves : Moves s o t cs) : Midway [o] cs t := by
  cases moves with
  | drawn here opposite => exact ⟨by simp, by simp [Sent], opposite⟩
  | noPipe1 here | pipe1 here | noPipe2 here | pipe2 here | noAccept1 here | accept1 here
  | noAccept2 here | accept2 here | gone here | told here | finished here =>
    rw [top] at here
    cases here

/-- The calls of a round that goes on. -/
theorem Round.midway (round : Round s os cs t) (going : t.point ≠ .random) : Midway os cs t := by
  induction round with
  | first top steps => exact .first top (runDaemon_moves steps)
  | next round on steps ih => exact (ih on).step (runDaemon_moves steps) going

/-- The calls of a round that ends. -/
theorem Round.paired_iff (round : Round s os cs t) (ended : t.point = .random) :
    Paired cs ↔ Matched os := by
  cases round with
  | first top steps =>
    have midway := Midway.first top (runDaemon_moves steps)
    simp [Midway, ended] at midway
  | next round on steps => exact (round.midway on).paired_iff (runDaemon_moves steps) ended

end Steps

/-- The finished rounds. -/
theorem Rounds.paired_iff {rs : List (List Outcome × List Call)} {s : Matchmaker}
    (rounds : Rounds rs s) : ∀ r ∈ rs, (Paired r.2 ↔ Matched r.1) := by
  induction rounds with
  | start => exact fun r member => absurd member List.not_mem_nil
  | round rounds round ended ih =>
    intro r member
    rcases List.mem_append.mp member with before | now
    · exact ih r before
    · rw [List.mem_singleton.mp now]
      exact round.paired_iff ended

/-- The outcomes and the calls are those of finished rounds and of the round that is going on. -/
structure Divided (os : List Outcome) (cs : List Call) (s : Matchmaker)
    (rs : List (List Outcome × List Call)) (t : Matchmaker) (os' : List Outcome) (cs' : List Call) :
    Prop where
  /-- The finished rounds. -/
  rounds : Rounds rs t
  /-- The outcomes. -/
  outcomes : os = rs.flatMap Prod.fst ++ os'
  /-- The calls. -/
  calls : cs = rs.flatMap Prod.snd ++ cs'
  /-- The round that is going on, unless the daemon is between two rounds. -/
  going : (os' = [] ∧ cs' = [] ∧ s = t ∧ s.point = .random) ∨
    (Round t os' cs' s ∧ s.point ≠ .random)

/-- Every run is divided into rounds. -/
theorem Run.divided {os : List Outcome} {cs : List Call} {s : Matchmaker} (run : Run os cs s) :
    ∃ rs t os' cs', Divided os cs s rs t os' cs' := by
  induction run with
  | start => exact ⟨[], Daemon.start, [], [], .start, rfl, rfl, Or.inl ⟨rfl, rfl, rfl, rfl⟩⟩
  | @step os o cs new s u run steps ih =>
    obtain ⟨rs, t, os', cs', divided⟩ := ih
    have outcomes : os ++ [o] = rs.flatMap Prod.fst ++ (os' ++ [o]) := by
      rw [divided.outcomes, List.append_assoc]
    have calls : cs ++ new = rs.flatMap Prod.snd ++ (cs' ++ new) := by
      rw [divided.calls, List.append_assoc]
    have round : Round t (os' ++ [o]) (cs' ++ new) u := by
      rcases divided.going with ⟨rfl, rfl, rfl, top⟩ | ⟨round, on⟩
      · exact .first top steps
      · exact .next round on steps
    by_cases ended : u.point = .random
    · refine ⟨rs ++ [(os' ++ [o], cs' ++ new)], u, [], [],
        .round divided.rounds round ended, ?_, ?_,
        Or.inl ⟨rfl, rfl, rfl, ended⟩⟩
      · rw [outcomes]
        simp
      · rw [calls]
        simp
    · exact ⟨rs, t, os' ++ [o], cs' ++ new, divided.rounds, outcomes, calls, Or.inr ⟨round, ended⟩⟩

/-- In every run, whatever the calls of the system answer, a round that ends has told two players
of each other, or nobody of anything, exactly when a pipe was not made, or the last `accept`
returned a connection and both sets were sent. -/
theorem Run.opponents_iff {os : List Outcome} {cs : List Call} {s : Matchmaker}
    (run : Run os cs s) :
    ∃ rs t os' cs', Divided os cs s rs t os' cs' ∧ ∀ r ∈ rs, (Paired r.2 ↔ Matched r.1) := by
  obtain ⟨rs, t, os', cs', divided⟩ := run.divided
  exact ⟨rs, t, os', cs', divided, divided.rounds.paired_iff⟩

/-- A round in which both players are accepted and the first is sent a set. -/
def greeting (ok : Bool) : List Outcome :=
  [.random true, .pipe true, .pipe true, .accept true, .accept true, .sendfds true, .sendfds ok]

/-- The calls of that round. -/
def greetingCalls (ok : Bool) : List Call :=
  [.pipe 0, .pipe 1, .accept 0, .accept 1,
    .sendfds (some (.connection 0)) (.readEnd 0, .writeEnd 1) 0 true,
    .sendfds (some (.connection 1)) (.readEnd 1, .writeEnd 0) 1 ok,
    .close (some (.connection 0)), .close (some (.connection 1)), .close (some (.readEnd 1)),
    .close (some (.writeEnd 1)), .close (some (.readEnd 0)), .close (some (.writeEnd 0))]

/-- A greeting is a round of the daemon. -/
theorem Rounds.greeting (ok : Bool) : ∃ s, Rounds [(greeting ok, greetingCalls ok)] s := by
  have drawn := @Round.first Daemon.start (.random true) _ _ rfl rfl
  have piped := @Round.next _ _ (.pipe true) _ _ _ _ drawn (by decide) rfl
  have crossed := @Round.next _ _ (.pipe true) _ _ _ _ piped (by decide) rfl
  have waiting := @Round.next _ _ (.accept true) _ _ _ _ crossed (by decide) rfl
  have both := @Round.next _ _ (.accept true) _ _ _ _ waiting (by decide) rfl
  have told := @Round.next _ _ (.sendfds true) _ _ _ _ both (by decide) rfl
  have ended := @Round.next _ _ (.sendfds ok) _ _ _ _ told (by decide) rfl
  exact ⟨_, .round .start ended rfl⟩

/-- The greeting of two players who stay, taken as a run. -/
theorem opponents_iff_greeting : ∃ cs s, serve start (greeting true) = some (s, cs) ∧
    ∃ rs t os' cs', Divided (greeting true) cs s rs t os' cs' ∧
      ∀ r ∈ rs, (Paired r.2 ↔ Matched r.1) := by
  have served : (serve start (greeting true)).isSome := by decide
  obtain ⟨⟨s, cs⟩, served⟩ := Option.isSome_iff_exists.mp served
  exact ⟨cs, s, served, Run.opponents_iff (Run.start.serve served)⟩

/-- The second player is gone before the set is sent. The first is told of a game and the round
ends. -/
theorem told_alone :
    ¬ ∀ (rs : List (List Outcome × List Call)) (s : Matchmaker), Rounds rs s →
      ∀ r ∈ rs, Paired r.2 := by
  intro always
  obtain ⟨s, rounds⟩ := Rounds.greeting false
  have paired := always _ s rounds _ List.mem_cons_self
  obtain ⟨m, n, fds', id', first, -, -, apart, second, -⟩ :=
    paired (some (.connection 0)) (.readEnd 0, .writeEnd 1) 0 (by decide)
  simp [greetingCalls] at second
  obtain ⟨rfl, -⟩ := second
  cases first
  exact apart rfl

end Chessh.Daemon
