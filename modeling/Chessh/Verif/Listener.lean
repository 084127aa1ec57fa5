import Chessh.Daemon.Ledger
import Chessh.Frontends.Main

/-!
# What the listener hands on

A child of the TCP frontend gets every descriptor that its parent holds. The calls of every run of
`main` pass the audit of a ledger, so that it is known at each `fork` what this is: the socket, the
connection of the child, and the connections for which there was no child. `Listens.isolates`.
-/

namespace Chessh.Frontends

open Ledger

/-! ## One step -/

/-- What the program may do in a call. -/
inductive Moves (s : Listener) : Outcome → Listener → List Call → Prop
  | opened (here : s.point = .socket) :
    Moves s (.socket true) { s with point := .setsockopt } [.socket]
  | prepared {o : Outcome} {point : Point}
      (here : s.point = .setsockopt ∧ o = .setsockopt true ∧ point = .bind ∨
        s.point = .bind ∧ o = .bind true ∧ point = .listen ∨
        s.point = .listen ∧ o = .listen true ∧ point = .accept) :
    Moves s o { s with point := point } []
  | ended {o : Outcome} (here : o = .socket false ∧ s.point = .socket ∨
      o = .setsockopt false ∧ s.point = .setsockopt ∨ o = .bind false ∧ s.point = .bind ∨
      o = .listen false ∧ s.point = .listen ∨
      (∃ code, o = .accept (some (.other code))) ∧ s.point = .accept) :
    Moves s o { s with point := .returned 1 } []
  | again {errno : Errno} (here : s.point = .accept) (calm : errno = .eintr ∨ errno = .eagain) :
    Moves s (.accept (some errno)) s []
  | accepted (here : s.point = .accept) :
    Moves s (.accept none)
      { point := .fork, clientfd := s.connections, connections := s.connections + 1 }
      [.accept s.connections]
  | kept (here : s.point = .fork) :
    Moves s (.fork false) { s with point := .accept } [.fork s.clientfd false]
  | given (here : s.point = .fork) :
    Moves s (.fork true) { s with point := .accept } [.fork s.clientfd true, .close s.clientfd]

/-- A step is one of these. -/
theorem main_moves {s t : Listener} {o : Outcome} {cs : List Call}
    (steps : main s o = some (t, cs)) : Moves s o t cs := by
  unfold main at steps
  split at steps <;> cases steps
  case h_1 here => exact .opened here
  case h_2 here => exact .ended (by simp [here])
  case h_3 here => exact .prepared (by simp [here])
  case h_4 here => exact .ended (by simp [here])
  case h_5 here => exact .prepared (by simp [here])
  case h_6 here => exact .ended (by simp [here])
  case h_7 here => exact .prepared (by simp [here])
  case h_8 here => exact .ended (by simp [here])
  case h_9 here => exact .accepted here
  case h_10 here => exact .again here (Or.inr rfl)
  case h_11 here => exact .again here (Or.inl rfl)
  case h_12 here => exact .ended (by simp [here])
  case h_13 here => exact .kept here
  case h_14 here => exact .given here

/-! ## Ownership -/

/-- What a call does to descriptors. -/
def Call.actions : Call → List (Entry Descriptor)
  | .socket => [.acquire .sockfd]
  | .accept n => [.acquire (.clientfd n)]
  | .fork _ _ => []
  | .close n => [.release (.clientfd n)]

/-- What calls do to descriptors. -/
def trace (cs : List Call) : List (Entry Descriptor) := cs.flatMap Call.actions

@[simp] theorem trace_nil : trace [] = [] := rfl

@[simp] theorem trace_cons (c : Call) (cs : List Call) : trace (c :: cs) = c.actions ++ trace cs :=
  List.flatMap_cons

@[simp] theorem trace_append (cs new : List Call) : trace (cs ++ new) = trace cs ++ trace new :=
  List.flatMap_append

/-- What the program holds. -/
def Holds (cs : List Call) (s : Listener) : Descriptor → Prop
  | .sockfd => .socket ∈ cs
  | .clientfd n => .fork n false ∈ cs ∨ s.point = .fork ∧ s.clientfd = n

/-- What a child for the `n`th connection gets, of the descriptors that were made. -/
def Gets (front : List Call) (n : Nat) : Descriptor → Prop
  | .sockfd => True
  | .clientfd m => m = n ∨ .fork m false ∈ front

/-- The connection a call of `fork` is for. -/
def Call.forked : Call → Option Nat
  | .fork n _ => some n
  | .socket | .accept _ | .close _ => none

/-- The connection that waits for its child. -/
def Listener.pending (s : Listener) : List Nat := if s.point = .fork then [s.clientfd] else []

/-- Each child so far has got what it gets. -/
def Passed (cs : List Call) : Prop :=
  ∀ front n made, front ++ [.fork n made] <+: cs →
    ∃ held, audit [] (trace front) = some held ∧ ∀ d, d ∈ held ↔ Gets front n d

/-- The calls so far pass the audit, each connection was up for a child in its turn, and each child
got what the program held. -/
structure Kept (cs : List Call) (s : Listener) : Prop where
  held : ∃ held, audit [] (trace cs) = some held ∧ ∀ d, d ∈ held ↔ Holds cs s d
  turns : cs.filterMap Call.forked ++ s.pending = List.range s.connections
  closed : ∀ n, cs.count (.close n) = cs.count (.fork n true)
  unopened : s.point = .socket → .socket ∉ cs
  opened : s.point ≠ .socket → (∀ status, s.point ≠ .returned status) → .socket ∈ cs
  passed : Passed cs

section Steps

variable {cs new : List Call} {s t : Listener} {o : Outcome} {n : Nat} {made : Bool}

/-- One call more. -/
theorem Passed.concat {c : Call} (passed : Passed cs)
    (last : ∀ n made, c = .fork n made →
      ∃ held, audit [] (trace cs) = some held ∧ ∀ d, d ∈ held ↔ Gets cs n d) :
        Passed (cs ++ [c]) := by
  intro front n made within
  rcases List.prefix_concat_iff.mp within with whole | before
  · obtain ⟨rfl, same⟩ := List.append_inj' whole rfl
    exact last n made (List.head_eq_of_cons_eq same).symm
  · exact passed front n made before

/-- A connection that was up for a child was accepted. -/
theorem Kept.forked (kept : Kept cs s) (member : .fork n made ∈ cs) : n < s.connections := by
  have up : n ∈ cs.filterMap Call.forked := List.mem_filterMap.mpr ⟨_, member, rfl⟩
  have within := List.mem_append_left s.pending up
  rw [kept.turns] at within
  exact List.mem_range.mp within

/-- A connection that waits for its child has not been up for one. -/
theorem Kept.pending (kept : Kept cs s) (here : s.point = .fork) :
    s.clientfd < s.connections ∧ ∀ made, .fork s.clientfd made ∉ cs := by
  have waits : s.pending = [s.clientfd] := if_pos here
  have turns := kept.turns
  rw [waits] at turns
  have last : s.clientfd ∈ List.range s.connections := by
    rw [← turns]
    exact List.mem_append_right _ List.mem_cons_self
  refine ⟨List.mem_range.mp last, fun made member => ?_⟩
  have apart : (cs.filterMap Call.forked ++ [s.clientfd]).Nodup := by
    rw [turns]
    exact List.nodup_range
  have up : s.clientfd ∈ cs.filterMap Call.forked := List.mem_filterMap.mpr ⟨_, member, rfl⟩
  exact (List.disjoint_of_nodup_append apart) up List.mem_cons_self

/-- A connection that is held was accepted. -/
theorem Kept.holds (kept : Kept cs s) (holds : Holds cs s (.clientfd n)) : n < s.connections := by
  rcases holds with lost | ⟨here, rfl⟩
  · exact kept.forked lost
  · exact (kept.pending here).1

/-- A step without a call. -/
theorem Kept.quiet (kept : Kept cs s) (here : s.point ≠ .fork) (there : t.point ≠ .fork)
    (same : t.connections = s.connections) (started : t.point ≠ .socket)
    (opened : (∀ status, t.point ≠ .returned status) → .socket ∈ cs) : Kept cs t where
  held := by
    obtain ⟨held, audited, members⟩ := kept.held
    refine ⟨held, audited, fun d => (members d).trans ?_⟩
    cases d with
    | sockfd => exact Iff.rfl
    | clientfd n => simp [Holds, here, there]
  turns := by
    have turns := kept.turns
    rw [Listener.pending, if_neg here] at turns
    rw [Listener.pending, if_neg there, same]
    exact turns
  closed := kept.closed
  unopened at_start := absurd at_start started
  opened _ := opened
  passed := kept.passed

/-- A connection has had its turn. -/
theorem Kept.turned (kept : Kept cs s) (here : s.point = .fork) (made : Bool) :
    (cs ++ [Call.fork s.clientfd made]).filterMap Call.forked ++
      ({ s with point := .accept } : Listener).pending
      = List.range s.connections := by
  have turns := kept.turns
  rw [Listener.pending, if_pos here] at turns
  simpa [Listener.pending, Call.forked] using turns

/-- What a child gets. -/
theorem Kept.hands (kept : Kept cs s) (here : s.point = .fork) {held : List Descriptor}
    (members : ∀ d, d ∈ held ↔ Holds cs s d) {made' : Bool}
    (same : Call.fork s.clientfd made = .fork n made') (d : Descriptor) :
    d ∈ held ↔ Gets cs n d := by
  obtain ⟨rfl, -⟩ := Call.fork.inj same
  rw [members]
  cases d with
  | sockfd => exact iff_of_true (kept.opened (by rw [here]; decide) (by simp [here])) trivial
  | clientfd m => simp [Holds, Gets, here, or_comm, eq_comm]

/-- The socket is made. -/
theorem Kept.opens (kept : Kept cs s) (here : s.point = .socket) :
    Kept (cs ++ [.socket]) { s with point := .setsockopt } := by
  obtain ⟨held, audited, members⟩ := kept.held
  have fresh : .sockfd ∉ held := fun within => kept.unopened here ((members _).mp within)
  refine ⟨⟨.sockfd :: held, ?_, fun d => ?_⟩, ?_, fun n => ?_, nofun, fun _ _ => by simp, ?_⟩
  · rw [trace_append]
    exact audit_append.mpr ⟨held, audited, by simp [Call.actions, audit_cons, book_acquire, fresh]⟩
  · cases d with
    | sockfd => simp [Holds]
    | clientfd n => simp [members, Holds, here]
  · simpa [Listener.pending, here, Call.forked, List.filterMap_cons] using kept.turns
  · simpa using kept.closed n
  · exact kept.passed.concat nofun

/-- A connection comes. -/
theorem Kept.accepts (kept : Kept cs s) (here : s.point = .accept) :
    Kept (cs ++ [.accept s.connections])
      { point := .fork, clientfd := s.connections, connections := s.connections + 1 } := by
  obtain ⟨held, audited, members⟩ := kept.held
  have fresh : .clientfd s.connections ∉ held :=
    fun within => absurd (kept.holds ((members _).mp within)) (Nat.lt_irrefl _)
  refine ⟨⟨.clientfd s.connections :: held, ?_, fun d => ?_⟩, ?_, fun n => ?_, nofun,
    fun _ _ => ?_, ?_⟩
  · rw [trace_append]
    exact audit_append.mpr ⟨held, audited, by simp [Call.actions, audit_cons, book_acquire, fresh]⟩
  · cases d with
    | sockfd => simp [members, Holds]
    | clientfd n => simp [members, Holds, here, or_comm, eq_comm]
  · have turns := kept.turns
    rw [Listener.pending, if_neg (by rw [here]; decide), List.append_nil] at turns
    simp [Listener.pending, Call.forked, turns, List.range_succ]
  · simpa using kept.closed n
  · exact List.mem_append_left _ (kept.opened (by rw [here]; decide) (by simp [here]))
  · exact kept.passed.concat nofun

/-- There is no child for a connection. -/
theorem Kept.keeps (kept : Kept cs s) (here : s.point = .fork) :
    Kept (cs ++ [.fork s.clientfd false]) { s with point := .accept } := by
  obtain ⟨held, audited, members⟩ := kept.held
  refine ⟨⟨held, ?_, fun d => ?_⟩, kept.turned here false, fun n => ?_, nofun, fun _ _ => ?_, ?_⟩
  · simpa [Call.actions] using audited
  · cases d with
    | sockfd => simp [members, Holds]
    | clientfd n => simp [members, Holds, here, eq_comm]
  · simpa using kept.closed n
  · exact List.mem_append_left _ (kept.opened (by rw [here]; decide) (by simp [here]))
  · exact kept.passed.concat fun n made same => ⟨held, audited, kept.hands here members same⟩

/-- What is held when a connection has got its child and is closed. -/
theorem Kept.holds_given (kept : Kept cs s) (here : s.point = .fork) (d : Descriptor) :
    d ≠ .clientfd s.clientfd ∧ Holds cs s d ↔
      Holds (cs ++ [.fork s.clientfd true, .close s.clientfd]) { s with point := .accept } d := by
  cases d with
  | sockfd => simp [Holds]
  | clientfd n =>
    have once := (kept.pending here).2 false
    simp only [Holds, here, ne_eq, Descriptor.clientfd.injEq, List.mem_append, List.mem_cons,
      reduceCtorEq, List.not_mem_nil, or_false, false_and, true_and, Call.fork.injEq,
      Bool.false_eq_true, and_false]
    constructor
    · rintro ⟨other, lost | same⟩
      · exact lost
      · exact absurd same.symm other
    · intro lost
      exact ⟨fun same => once (by rwa [← same]), Or.inl lost⟩

/-- A connection is given to its child. -/
theorem Kept.gives (kept : Kept cs s) (here : s.point = .fork) :
    Kept (cs ++ [.fork s.clientfd true, .close s.clientfd]) { s with point := .accept } := by
  obtain ⟨held, audited, members⟩ := kept.held
  have apart : held.Nodup := audit_nodup List.nodup_nil audited
  have within : .clientfd s.clientfd ∈ held := (members _).mpr (Or.inr ⟨here, rfl⟩)
  have turned := kept.turned here true
  refine ⟨⟨held.erase (.clientfd s.clientfd), ?_, fun d => ?_⟩, ?_, fun n => ?_, nofun,
    fun _ _ => ?_, ?_⟩
  · rw [trace_append]
    exact audit_append.mpr ⟨held, audited, by simp [Call.actions, audit_cons, book_release, within]⟩
  · rw [apart.mem_erase_iff, members]
    exact kept.holds_given here d
  · simpa [Call.forked, List.filterMap_cons] using turned
  · simp [List.count_cons, kept.closed n]
  · exact List.mem_append_left _ (kept.opened (by rw [here]; decide) (by simp [here]))
  · rw [List.append_cons]
    exact (kept.passed.concat fun n made same =>
      ⟨held, audited, kept.hands here members same⟩).concat nofun

/-- A step keeps the books. -/
theorem Kept.step (kept : Kept cs s) (moves : Moves s o t new) : Kept (cs ++ new) t := by
  cases moves with
  | opened here => exact kept.opens here
  | @prepared o point here =>
    rw [List.append_nil]
    have opened : .socket ∈ cs := kept.opened
      (by rcases here with h | h | h <;> simp [h.1]) (by rcases here with h | h | h <;> simp [h.1])
    refine kept.quiet ?_ ?_ rfl ?_ fun _ => opened
    all_goals rcases here with h | h | h <;> simp [h.1, h.2.2]
  | ended here =>
    rw [List.append_nil]
    refine kept.quiet ?_ nofun rfl nofun fun going => absurd rfl (going 1)
    rcases here with h | h | h | h | h <;> simp [h.2]
  | again here calm =>
    rw [List.append_nil]
    exact kept
  | accepted here => exact kept.accepts here
  | kept here => exact kept.keeps here
  | given here => exact kept.gives here

/-- A connection is up for a child once. -/
theorem Kept.once (kept : Kept cs s) {made' : Bool} (first : .fork n made ∈ cs)
    (second : .fork n made' ∈ cs) : made = made' := by
  have apart : (cs.filterMap Call.forked ++ s.pending).Nodup := by
    rw [kept.turns]
    exact List.nodup_range
  have pairs := List.pairwise_filterMap.mp (List.nodup_append.mp apart).1
  by_contra other
  have differ : Call.fork n made ≠ .fork n made' := fun same => other (Call.fork.inj same).2
  have symmetric : Std.Symm fun a b : Call => ∀ x, a.forked = some x →
    ∀ y, b.forked = some y → x ≠ y :=
    ⟨fun a b apart x own y other same => apart y other x own same.symm⟩
  exact pairs.forall first second differ n rfl n rfl rfl

end Steps

/-- The program starts with empty books. -/
theorem Kept.start : Kept [] .start where
  held := ⟨[], rfl, fun d => by cases d <;> simp [Holds, Listener.start]⟩
  turns := rfl
  closed _ := rfl
  unopened _ := List.not_mem_nil
  opened here := absurd rfl here
  passed front n made within := by simp at within

/-! ## Runs -/

/-- The program does not go on behind it. -/
def Outcome.fatal : Outcome → Bool
  | .socket ok | .setsockopt ok | .bind ok | .listen ok => !ok
  | .accept (some (.other _)) => true
  | .accept _ | .fork _ => false

section Runs

variable {os : List Outcome} {cs : List Call} {s : Listener}

/-- The books are kept along every run. -/
theorem Listens.kept (run : Listens os cs s) : Kept cs s := by
  induction run with
  | start => exact .start
  | step run steps ih => exact ih.step (main_moves steps)

/-- A step returns 1 behind a fatal outcome, and goes on behind another. -/
theorem Moves.returned {o : Outcome} {t : Listener} {new : List Call} (moves : Moves s o t new) :
    (∀ status, s.point ≠ .returned status) ∧
      ∀ status, t.point = .returned status ↔ status = 1 ∧ o.fatal = true := by
  cases moves with
  | opened here | kept here | given here | accepted here => simp [here, Outcome.fatal]
  | prepared here => rcases here with ⟨h, rfl, rfl⟩ | ⟨h, rfl, rfl⟩ | ⟨h, rfl, rfl⟩ <;>
      simp [h, Outcome.fatal]
  | again here calm => rcases calm with rfl | rfl <;> simp [here, Outcome.fatal]
  | ended here =>
    rcases here with ⟨rfl, h⟩ | ⟨rfl, h⟩ | ⟨rfl, h⟩ | ⟨rfl, h⟩ | ⟨⟨code, rfl⟩, h⟩ <;>
      simp [h, Outcome.fatal, eq_comm]

/-- The program returns 1 behind a fatal outcome, and goes on behind all others. -/
theorem Listens.returned (run : Listens os cs s) (status : Int) :
    s.point = .returned status ↔ status = 1 ∧ ∃ o ∈ os, o.fatal = true := by
  induction run generalizing status with
  | start => simp [Listener.start]
  | @step os o cs new s t run steps ih =>
    obtain ⟨going, ends⟩ := (main_moves steps).returned
    have calm : ¬ ∃ o ∈ os, o.fatal = true := fun fatal => going 1 ((ih 1).mpr ⟨rfl, fatal⟩)
    rw [ends]
    refine and_congr_right fun _ => ⟨fun fatal => ⟨o, by simp, fatal⟩, ?_⟩
    rintro ⟨o', member, fatal⟩
    rcases List.mem_append.mp member with before | last
    · exact absurd ⟨o', before, fatal⟩ calm
    · rwa [← List.mem_singleton.mp last]

/-- What comes of connections and their descriptors. -/
structure Served (os : List Outcome) (cs : List Call) (s : Listener) : Prop where
  /-- Connections are up for a child in the order in which they are accepted, each once. -/
  turns : cs.filterMap Call.forked ++ s.pending = List.range s.connections
  /-- The parent closes a connection, once, if it has a child. -/
  closed : ∀ n, cs.count (.close n) = cs.count (.fork n true)
  /-- It holds the socket, a connection that waits for its child, and those that have got none. -/
  held : ∃ held, audit [] (trace cs) = some held ∧ held.Nodup ∧ ∀ d, d ∈ held ↔ Holds cs s d
  /-- A child gets the socket, its connection, and those that have got no child before. -/
  passed : Passed cs
  /-- No child gets the connection of another. -/
  alone : ∀ front n m held, front ++ [.fork n true] <+: cs → audit [] (trace front) = some held →
    m ≠ n → .fork m true ∈ cs → .clientfd m ∉ held
  /-- The program returns if a call fails, unless this is `fork`, or `accept` with EINTR or
  EAGAIN. -/
  returned : ∀ status, s.point = .returned status ↔ status = 1 ∧ ∃ o ∈ os, o.fatal = true

/-- In every run of the listener, whatever the calls of the system answer, connections get their
children in the order in which they come, a child holds the connection of no other child, and
nothing leaks but the connections for which `fork` fails: these stay open in the parent and in all
later children. -/
theorem Listens.isolates (run : Listens os cs s) : Served os cs s where
  turns := run.kept.turns
  closed := run.kept.closed
  held := by
    obtain ⟨held, audited, members⟩ := run.kept.held
    exact ⟨held, audited, audit_nodup List.nodup_nil audited, members⟩
  passed := run.kept.passed
  alone front n m held within audited other child inside := by
    obtain ⟨held', audited', members⟩ := run.kept.passed front n true within
    obtain rfl : held = held' := Option.some.inj (audited.symm.trans audited')
    rcases (members _).mp inside with same | lost
    · exact other same
    · have before : .fork m false ∈ cs := within.subset (List.mem_append_left _ lost)
      exact Bool.noConfusion (run.kept.once before child)
  returned := run.returned

end Runs

/-- Three connections, with no child for the first. -/
def forkless : List Outcome :=
  [.socket true, .setsockopt true, .bind true, .listen true, .accept none, .fork false,
    .accept (some .eintr), .accept none, .fork true, .accept none,
    .fork true, .accept (some (.other 24))]

/-- The second child holds the first connection, but not the second. -/
theorem isolates_forkless : ∃ cs s, Listener.start.run forkless = some (s, cs) ∧
    Served forkless cs s := by
  have ran : (Listener.start.run forkless).isSome := by decide
  obtain ⟨⟨s, cs⟩, ran⟩ := Option.isSome_iff_exists.mp ran
  exact ⟨cs, s, ran, Listens.isolates (Listens.start.run ran)⟩

end Chessh.Frontends
