import Chessh.Daemon.Runner

/-!
# The descriptors of the matchmaker

`Matchmaker.held` lists what the variables of `run_daemon` hold at each of its calls. The calls of
every run pass the audit of a ledger with exactly this list, so that every descriptor is closed once
and never used afterwards, whatever fails.
-/

namespace Chessh.Daemon

open Ledger

/-! ## One step -/

/-- What the loop may do in a call. -/
inductive Moves (s : Matchmaker) : Outcome → Matchmaker → List Call → Prop
  | drawn {even : Bool} {id1 id2 : Nat} (here : s.point = .random) (opposite : id1 + id2 = 1) :
    Moves s (.random even) { s with point := .pipe1, id1 := id1, id2 := id2 } []
  | noPipe1 (here : s.point = .pipe1) : Moves s (.pipe false) { s with point := .random } []
  | pipe1 (here : s.point = .pipe1) :
    Moves s (.pipe true) { s with point := .pipe2, pipe1 := (.readEnd s.pipes, .writeEnd s.pipes),
                                  pipes := s.pipes + 1 } [.pipe s.pipes]
  | noPipe2 (here : s.point = .pipe2) : Moves s (.pipe false) s.error2.1 s.error2.2
  | pipe2 (here : s.point = .pipe2) :
    Moves s (.pipe true) { s with point := .accept1, pipe2 := (.readEnd s.pipes, .writeEnd s.pipes),
                                  pipes := s.pipes + 1 } [.pipe s.pipes]
  | noAccept1 (here : s.point = .accept1) : Moves s (.accept false) s []
  | accept1 (here : s.point = .accept1) :
    Moves s (.accept true) { s with point := .accept2, p1fd := some (.connection s.connections),
                                    connections := s.connections + 1 } [.accept s.connections]
  | noAccept2 (here : s.point = .accept2) :
    Moves s (.accept false) { s with point := .sendfds1, p2fd := none } []
  | accept2 (here : s.point = .accept2) :
    Moves s (.accept true) { s with point := .sendfds1, p2fd := some (.connection s.connections),
                                    connections := s.connections + 1 } [.accept s.connections]
  | gone (here : s.point = .sendfds1) :
    Moves s (.sendfds false) { s with point := .accept2, p1fd := s.p2fd }
      [.sendfds s.p1fd s.p1set s.id1 false, .close s.p1fd]
  | told (here : s.point = .sendfds1) (first : s.p1fd ≠ none) :
    Moves s (.sendfds true) { s with point := .sendfds2 } [.sendfds s.p1fd s.p1set s.id1 true]
  | finished {ok : Bool} (here : s.point = .sendfds2) (second : ok = true → s.p2fd ≠ none) :
    Moves s (.sendfds ok) s.finish.1 (.sendfds s.p2fd s.p2set s.id2 ok :: s.finish.2)

/-- A step is one of these. -/
theorem runDaemon_moves {s t : Matchmaker} {o : Outcome} {cs : List Call}
    (steps : runDaemon s o = some (t, cs)) : Moves s o t cs := by
  unfold runDaemon at steps
  split at steps
  case h_12 here =>
    split at steps
    · cases steps
    · rename_i first
      cases steps
      exact .told here first
  case h_13 ok here =>
    split at steps
    · cases steps
    · rename_i failed
      cases steps
      exact .finished here fun sent none => failed ⟨none, sent⟩
  all_goals
    cases steps
  case h_1 here => exact .drawn here rfl
  case h_2 here => exact .drawn here rfl
  case h_3 here => exact .noPipe1 here
  case h_4 here => exact .pipe1 here
  case h_5 here => exact .noPipe2 here
  case h_6 here => exact .pipe2 here
  case h_7 here => exact .noAccept1 here
  case h_8 here => exact .accept1 here
  case h_9 here => exact .noAccept2 here
  case h_10 here => exact .accept2 here
  case h_11 here => exact .gone here

/-! ## Ownership -/

/-- What a call does to descriptors. A call on −1 does nothing. -/
def Call.actions : Call → List (Entry Descriptor)
  | .pipe n => [.acquire (.writeEnd n), .acquire (.readEnd n)]
  | .accept n => [.acquire (.connection n)]
  | .sendfds dest fds _ _ => (dest.toList ++ [fds.1, fds.2]).map .use
  | .close fd => fd.toList.map .release

/-- What calls do to descriptors. -/
def trace (cs : List Call) : List (Entry Descriptor) := cs.flatMap Call.actions

@[simp] theorem trace_nil : trace [] = [] := rfl

@[simp] theorem trace_cons (c : Call) (cs : List Call) : trace (c :: cs) = c.actions ++ trace cs :=
  List.flatMap_cons

@[simp] theorem trace_append (cs new : List Call) : trace (cs ++ new) = trace cs ++ trace new :=
  List.flatMap_append

/-- The ends of both pipes, in the order in which they are closed. -/
def Matchmaker.ends (s : Matchmaker) : List Descriptor :=
  [s.pipe2.1, s.pipe2.2, s.pipe1.1, s.pipe1.2]

/-- What the first call of `sendfds` uses is held. -/
theorem Matchmaker.p1_held (s : Matchmaker) :
    ∀ d ∈ s.p1fd.toList ++ [s.p1set.1, s.p1set.2],
      d ∈ s.p2fd.toList ++ s.p1fd.toList ++ s.ends := by
  intro d
  simp only [p1set, ends, List.mem_append, List.mem_cons]
  tauto

/-- What the second call of `sendfds` uses is held. -/
theorem Matchmaker.p2_held (s : Matchmaker) :
    ∀ d ∈ s.p2fd.toList ++ [s.p2set.1, s.p2set.2],
      d ∈ s.p2fd.toList ++ s.p1fd.toList ++ s.ends := by
  intro d
  simp only [p2set, ends, List.mem_append, List.mem_cons]
  tauto

/-- What the variables hold, in the order in which it is closed. -/
def Matchmaker.held (s : Matchmaker) : List Descriptor :=
  match s.point with
  | .random | .pipe1 => []
  | .pipe2 => [s.pipe1.1, s.pipe1.2]
  | .accept1 => s.ends
  | .accept2 => s.p1fd.toList ++ s.ends
  | .sendfds1 | .sendfds2 => s.p2fd.toList ++ s.p1fd.toList ++ s.ends

/-- The descriptor was made before. -/
def Matchmaker.Made (s : Matchmaker) : Descriptor → Prop
  | .connection n => n < s.connections
  | .readEnd n => n < s.pipes
  | .writeEnd n => n < s.pipes

/-- The calls so far pass the audit, the variables hold what is left over, and the system counts
what it made. -/
structure Booked (cs : List Call) (s : Matchmaker) : Prop where
  /-- The audit. -/
  audited : audit [] (trace cs) = some s.held
  /-- Every descriptor is made once. -/
  once : ∀ d, (trace cs).count (.acquire d) ≤ 1
  /-- The counters of the system. -/
  made : ∀ d, .acquire d ∈ trace cs ↔ s.Made d

namespace Booked

variable {cs new : List Call} {s t : Matchmaker} {o : Outcome} {d : Descriptor}

/-- What is held was made. -/
theorem held_made (booked : Booked cs s) (within : d ∈ s.held) : s.Made d := by
  by_contra never
  exact (audit_absent booked.audited List.not_mem_nil (mt (booked.made d).mp never)).2.2 within

/-- No descriptor is held twice. -/
theorem nodup (booked : Booked cs s) : s.held.Nodup :=
  audit_nodup List.nodup_nil booked.audited

/-- What is not made yet is not held. -/
theorem fresh (booked : Booked cs s) (never : ¬ s.Made d) : d ∉ s.held :=
  fun within => never (booked.held_made within)

/-- A step passes the audit. -/
theorem audits (booked : Booked cs s) (moves : Moves s o t new) :
    audit s.held (trace new) = some t.held := by
  have read := @fresh cs s (.readEnd s.pipes) booked (Nat.lt_irrefl _)
  have write := @fresh cs s (.writeEnd s.pipes) booked (Nat.lt_irrefl _)
  have connection := @fresh cs s (.connection s.connections) booked (Nat.lt_irrefl _)
  have apart := booked.nodup
  cases moves with
  | drawn here | noPipe1 here => simp [Matchmaker.held, here]
  | noAccept1 here => simp
  | noAccept2 here => simp [Matchmaker.held, here, Matchmaker.ends]
  | pipe1 here => simp [Matchmaker.held, here, Call.actions, audit_cons, book_acquire]
  | pipe2 here =>
    simp only [Matchmaker.held, here] at read write
    simp [Matchmaker.held, here, Matchmaker.ends, Call.actions, audit_cons,
      book_acquire, read, write]
  | noPipe2 here =>
    simp only [Matchmaker.held, here]
    exact audit_releases_all (.refl [s.pipe1.1, s.pipe1.2])
  | accept1 here | accept2 here =>
    simp only [Matchmaker.held, here] at connection
    simpa [Matchmaker.held, here, Matchmaker.ends, Call.actions, audit_cons, book_acquire]
      using connection
  | gone here =>
    simp only [Matchmaker.held, here] at apart ⊢
    rw [trace_cons, trace_cons, trace_nil, List.append_nil]
    exact audit_append.mpr ⟨_, audit_uses s.p1_held, audit_releases apart⟩
  | told here first =>
    simp only [Matchmaker.held, here]
    rw [trace_cons, trace_nil, List.append_nil]
    exact audit_uses s.p1_held
  | @finished ok here second =>
    have perm : (s.p1fd.toList ++ s.p2fd.toList ++ s.ends).Perm
        (s.p2fd.toList ++ s.p1fd.toList ++ s.ends) := List.perm_append_comm.append_right s.ends
    have closed : trace s.finish.2 =
        (s.p1fd.toList ++ s.p2fd.toList ++ s.ends).map .release := by
      simp [Matchmaker.finish, Matchmaker.error2, Matchmaker.ends, Call.actions]
    simp only [Matchmaker.held, here]
    rw [trace_cons, closed]
    exact audit_append.mpr ⟨_, audit_uses s.p2_held, audit_releases_all perm⟩

/-- A step makes a descriptor exactly when the system counts it anew. -/
theorem makes (moves : Moves s o t new) (d : Descriptor) :
    (trace new).count (.acquire d) ≤ 1 ∧
      (.acquire d ∈ trace new ↔ t.Made d ∧ ¬ s.Made d) ∧ (s.Made d → t.Made d) := by
  cases moves <;> cases d <;>
    simp [Call.actions, Matchmaker.Made, Matchmaker.finish, Matchmaker.error2, List.count_cons]
  all_goals split <;> omega

/-- A step keeps the books. -/
theorem step (booked : Booked cs s) (moves : Moves s o t new) : Booked (cs ++ new) t where
  audited := by
    rw [trace_append]
    exact audit_append.mpr ⟨s.held, booked.audited, booked.audits moves⟩
  once := by
    intro d
    obtain ⟨once, anew, -⟩ := makes moves d
    rw [trace_append, List.count_append]
    by_cases before : s.Made d
    · have none := List.count_eq_zero.mpr fun member => (anew.mp member).2 before
      have := booked.once d
      omega
    · have none := List.count_eq_zero.mpr (mt (booked.made d).mp before)
      omega
  made := by
    intro d
    obtain ⟨-, anew, still⟩ := makes moves d
    rw [trace_append, List.mem_append, booked.made d, anew]
    constructor
    · rintro (before | ⟨after, -⟩)
      · exact still before
      · exact after
    · intro after
      by_cases before : s.Made d
      · exact Or.inl before
      · exact Or.inr ⟨after, before⟩

end Booked

/-- The daemon starts with empty books. -/
theorem Booked.start : Booked [] start where
  audited := rfl
  once _ := Nat.zero_le 1
  made d := by cases d <;> simp [Matchmaker.Made, Daemon.start]

/-- The books are kept along every run. -/
theorem Run.booked {os : List Outcome} {cs : List Call} {s : Matchmaker} (run : Run os cs s) :
    Booked cs s := by
  induction run with
  | start => exact .start
  | step run steps ih => exact ih.step (runDaemon_moves steps)

/-! ## What a run does with a descriptor -/

/-- The call makes the descriptor. -/
def Call.Makes (d : Descriptor) : Call → Prop
  | .pipe n => d = .readEnd n ∨ d = .writeEnd n
  | .accept n => d = .connection n
  | .sendfds .. | .close _ => False

/-- The call takes the descriptor, as its target or to pass it on. -/
def Call.Uses (d : Descriptor) : Call → Prop
  | .sendfds dest fds _ _ => dest = some d ∨ d = fds.1 ∨ d = fds.2
  | .close fd => fd = some d
  | .pipe _ | .accept _ => False

/-- The call sends a set to the descriptor, and succeeds. -/
def Call.sends (d : Descriptor) : Call → Bool
  | .sendfds dest _ _ ok => decide (dest = some d) && ok
  | .pipe _ | .accept _ | .close _ => false

/-- What the daemon makes it closes once and does not use afterwards. -/
structure Tidy (cs : List Call) (s : Matchmaker) : Prop where
  /-- Nothing is closed twice. -/
  closed : ∀ d, cs.count (.close (some d)) ≤ 1
  /-- What is not closed is in the hands of the round that is going on. -/
  held : ∀ d, (∃ c ∈ cs, c.Makes d) → cs.count (.close (some d)) = 1 ∨ d ∈ s.held
  /-- Between two rounds everything is closed. -/
  idle : s.point = .random → ∀ d, (∃ c ∈ cs, c.Makes d) → cs.count (.close (some d)) = 1
  /-- No set is sent to a descriptor after another. -/
  told : ∀ d, cs.countP (·.sends d) ≤ 1
  /-- Nothing is used after it was closed. -/
  unused : ∀ front back d, cs = front ++ .close (some d) :: back → ∀ c ∈ back, ¬ c.Uses d

section Traces

variable {cs new : List Call} {s t : Matchmaker} {o : Outcome} {d : Descriptor}

/-- A descriptor is made where it is acquired. -/
theorem makes_iff : (∃ c ∈ cs, c.Makes d) ↔ .acquire d ∈ trace cs := by
  rw [trace, List.mem_flatMap]
  refine exists_congr fun c => and_congr_right fun _ => ?_
  cases c <;> cases d <;> simp [Call.Makes, Call.actions, eq_comm]

/-- A descriptor that a call takes is used or released. -/
theorem Call.Uses.acted {c : Call} (uses : c.Uses d) :
    .use d ∈ c.actions ∨ .release d ∈ c.actions := by
  cases c with
  | pipe | accept => exact False.elim uses
  | sendfds dest fds id ok =>
    left
    simp only [Call.actions, List.map_append, List.mem_append, List.mem_map, Option.mem_toList]
    rcases uses with rfl | rfl | rfl <;> simp
  | close fd =>
    right
    cases uses
    simp [Call.actions]

/-- A descriptor is closed where it is released. -/
theorem count_close (cs : List Call) (d : Descriptor) :
    cs.count (.close (some d)) = (trace cs).count (.release d) := by
  induction cs with
  | nil => rfl
  | cons c rest ih =>
    rw [trace_cons, List.count_append, List.count_cons, ih, Nat.add_comm]
    congr 1
    cases c with
    | close fd =>
      cases fd with
      | none => rfl
      | some e => simp [Call.actions, List.count_cons]
    | pipe | accept | sendfds => simp [Call.actions]

/-- What is not made yet is not used. -/
theorem Booked.unused (booked : Booked cs s) (never : ¬ s.Made d) : ∀ c ∈ cs, ¬ c.Uses d := by
  intro c member uses
  have absent := audit_absent booked.audited List.not_mem_nil (mt (booked.made d).mp never)
  rcases uses.acted with used | released
  · exact absent.1 (List.mem_flatMap.mpr ⟨c, member, used⟩)
  · exact absent.2.1 (List.mem_flatMap.mpr ⟨c, member, released⟩)

/-- A call that sends to a descriptor uses it. -/
theorem Call.sends_uses {c : Call} (sends : c.sends d = true) : c.Uses d := by
  cases c with
  | sendfds dest fds id ok =>
    rw [Call.sends, Bool.and_eq_true, decide_eq_true_eq] at sends
    exact Or.inl sends.1
  | pipe | accept | close => exact Bool.noConfusion sends

/-- What is sent so far: no descriptor twice, and none that is held but the one a second set
follows. -/
structure Untold (cs : List Call) (s : Matchmaker) : Prop where
  /-- No set is sent to a descriptor after another. -/
  once : ∀ d, cs.countP (·.sends d) ≤ 1
  /-- What is held has not been sent a set. -/
  held : ∀ d ∈ s.held, (s.point = .sendfds2 → s.p1fd ≠ some d) → cs.countP (·.sends d) = 0

/-- What is not made yet was not sent a set. -/
theorem Booked.unsent (booked : Booked cs s) (never : ¬ s.Made d) : cs.countP (·.sends d) = 0 :=
  List.countP_eq_zero.mpr fun c member sends => booked.unused never c member (Call.sends_uses sends)

/-- What is held after a step was held before it or is made anew. -/
theorem Booked.kept (booked : Booked cs s) (moves : Moves s o t new) (within : d ∈ t.held) :
    d ∈ s.held ∨ ¬ s.Made d := by
  by_contra neither
  rw [not_or, not_not] at neither
  have never : .acquire d ∉ trace new := fun member =>
    ((Booked.makes moves d).2.1.mp member).2 neither.2
  exact (audit_absent (booked.audits moves) neither.1 never).2.2 within

/-- A step that sends nothing. -/
theorem Untold.quiet (untold : Untold cs s) (booked : Booked cs s) (moves : Moves s o t new)
    (silent : ∀ d, new.countP (·.sends d) = 0) (going : s.point ≠ .sendfds2) :
    Untold (cs ++ new) t where
  once d := by
    rw [List.countP_append, silent]
    exact untold.once d
  held d within _ := by
    rw [List.countP_append, silent]
    rcases booked.kept moves within with before | never
    · exact untold.held d before fun here => absurd here going
    · exact booked.unsent never

/-- A step sends no second set. -/
theorem Untold.step (untold : Untold cs s) (booked : Booked cs s) (moves : Moves s o t new) :
    Untold (cs ++ new) t := by
  have quiet := untold.quiet booked moves
  cases moves with
  | drawn here | noPipe1 here | noPipe2 here | noAccept1 here | noAccept2 here | pipe1 here
  | pipe2 here | accept1 here | accept2 here | gone here =>
    exact quiet (by simp [Call.sends, Matchmaker.error2]) (by simp [here])
  | told here first =>
    obtain ⟨e, first⟩ := Option.ne_none_iff_exists'.mp first
    have unsent : ∀ d ∈ s.held, cs.countP (·.sends d) = 0 := fun d within =>
      untold.held d within (by simp [here])
    have mine : e ∈ s.held := by simp [Matchmaker.held, here, first]
    constructor
    · intro d
      rw [List.countP_append, List.countP_singleton]
      by_cases same : d = e
      · have := unsent e mine
        rw [same]
        split <;> omega
      · have := untold.once d
        simpa [Call.sends, first, Ne.symm same] using this
    · intro d within other
      have before : d ∈ s.held := by
        simpa [Matchmaker.held, here, Matchmaker.ends] using within
      rw [List.countP_append, unsent d before]
      simpa [Call.sends] using other rfl
  | @finished ok here second =>
    constructor
    · intro d
      have quiet : s.finish.2.countP (·.sends d) = 0 := by
        simp [Matchmaker.finish, Matchmaker.error2, Call.sends]
      rw [List.countP_append, List.countP_cons, quiet]
      by_cases same : s.p2fd = some d
      · have apart := booked.nodup
        have unsent := untold.held d (by simp [Matchmaker.held, here, same]) fun _ first => by
          simp [Matchmaker.held, here, first, same] at apart
        split <;> omega
      · have := untold.once d
        simpa [Call.sends, same] using this
    · intro d within
      exact absurd within List.not_mem_nil

/-- No run sends a second set. -/
theorem Run.untold {os : List Outcome} (run : Run os cs s) : Untold cs s := by
  induction run with
  | start => exact ⟨fun _ => Nat.zero_le 1, fun _ _ _ => rfl⟩
  | step run steps ih => exact ih.step run.booked (runDaemon_moves steps)

end Traces

/-- In every run, whatever the calls of the system answer, each connection and each end of a pipe is
closed once, is not used afterwards and is sent at most one set, and between two rounds nothing is
left open. -/
theorem Run.tidy {os : List Outcome} {cs : List Call} {s : Matchmaker} (run : Run os cs s) :
    Tidy cs s := by
  have booked := run.booked
  have balance := fun d => audit_balance booked.audited d
  have released : ∀ d, (∃ c ∈ cs, c.Makes d) → cs.count (.close (some d)) = 1 ∨ d ∈ s.held := by
    intro d made
    have acquired := List.count_pos_iff.mpr (makes_iff.mp made)
    have total := balance d
    rw [count_close]
    by_cases within : d ∈ s.held
    · exact Or.inr within
    · left
      have left := List.count_eq_zero.mpr within
      have once := booked.once d
      rw [List.count_nil] at total
      omega
  constructor
  · intro d
    have total := balance d
    have once := booked.once d
    rw [count_close]
    rw [List.count_nil] at total
    omega
  · exact released
  · intro top d made
    rcases released d made with closed | within
    · exact closed
    · simp [Matchmaker.held, top] at within
  · exact run.untold.once
  · rintro front back d rfl c member uses
    have audited := booked.audited
    have once := booked.once d
    rw [trace_append, trace_cons] at audited once
    have unused := audit_final audited once
    rcases uses.acted with used | released
    · exact unused.1 (List.mem_flatMap.mpr ⟨c, member, used⟩)
    · exact unused.2 (List.mem_flatMap.mpr ⟨c, member, released⟩)

/-- A round in which calls of `accept` fail and players leave. -/
def stormy : List Outcome :=
  [.random true, .pipe true, .pipe true, .accept false, .accept true, .accept false, .sendfds false,
    .accept true, .sendfds false, .accept true, .sendfds true, .sendfds false]

/-- A round in which almost everything fails. -/
theorem tidy_stormy : ∃ cs s, serve start stormy = some (s, cs) ∧ Tidy cs s := by
  have served : (serve start stormy).isSome := by decide
  obtain ⟨⟨s, cs⟩, served⟩ := Option.isSome_iff_exists.mp served
  exact ⟨cs, s, served, Run.tidy (Run.start.serve served)⟩

end Chessh.Daemon
