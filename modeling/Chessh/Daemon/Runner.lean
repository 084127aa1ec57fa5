import Chessh.Daemon.Ledger

/-!
# The matchmaker

`run_daemon` of `daemon/runner.c` as a machine whose steps are the system calls that can fail:
`runDaemon` takes the outcome of the call the loop is in and runs on to the next such call. A
descriptor is named by the call that made it, and `none` is the −1 of a call that failed. The
system gives a number away again only when it was closed, and `Run.tidy` shows that no name is used
after that, so that names stand for numbers.
-/

namespace Chessh.Daemon

/-- A descriptor that `accept` or `pipe` made. -/
inductive Descriptor
  | connection (n : Nat)
  | readEnd (n : Nat)
  | writeEnd (n : Nat)
  deriving DecidableEq, Repr

/-- The outcome of a call. -/
inductive Outcome
  /-- Whether `random() % 2 == 0`. -/
  | random (even : Bool)
  | pipe (made : Bool)
  | accept (made : Bool)
  | sendfds (ok : Bool)
  deriving DecidableEq, Repr

/-- A call that makes or takes descriptors. -/
inductive Call
  /-- `pipe` made its `n`th pipe. -/
  | pipe (n : Nat)
  /-- `accept` returned the `n`th connection. -/
  | accept (n : Nat)
  /-- `sendfds(dest, fds, 2, &id, sizeof id)`. -/
  | sendfds (dest : Option Descriptor) (fds : Descriptor × Descriptor) (id : Nat) (ok : Bool)
  | close (fd : Option Descriptor)
  deriving DecidableEq, Repr

/-- The call the loop is in. -/
inductive Point
  /-- The top of the loop. -/
  | random
  | pipe1
  | pipe2
  /-- The `accept` of the `do`...`while` loop. -/
  | accept1
  | accept2
  | sendfds1
  | sendfds2
  deriving DecidableEq, Repr

/-- The variables of `run_daemon`, and how many pipes and connections the system has made. -/
structure Matchmaker where
  /-- The call the loop is in. -/
  point : Point
  /-- `id1`. -/
  id1 : Nat
  /-- `id2`. -/
  id2 : Nat
  /-- `pipe1`, the end to read from first. -/
  pipe1 : Descriptor × Descriptor
  /-- `pipe2`, the end to read from first. -/
  pipe2 : Descriptor × Descriptor
  /-- `p1fd`. -/
  p1fd : Option Descriptor
  /-- `p2fd`. -/
  p2fd : Option Descriptor
  /-- Pipes made so far. -/
  pipes : Nat
  /-- Connections accepted so far. -/
  connections : Nat
  deriving DecidableEq, Repr

namespace Matchmaker

/-- `p1set`. -/
def p1set (s : Matchmaker) : Descriptor × Descriptor := (s.pipe1.1, s.pipe2.2)

/-- `p2set`. -/
def p2set (s : Matchmaker) : Descriptor × Descriptor := (s.pipe2.1, s.pipe1.2)

/-- From the label `error2` on. -/
def error2 (s : Matchmaker) : Matchmaker × List Call :=
  ({ s with point := .random }, [.close (some s.pipe1.1), .close (some s.pipe1.2)])

/-- After the inner loop. -/
def finish (s : Matchmaker) : Matchmaker × List Call :=
  (s.error2.1, [.close s.p1fd, .close s.p2fd, .close (some s.pipe2.1), .close (some s.pipe2.2)] ++
    s.error2.2)

end Matchmaker

/-- `run_daemon`, from a call to the next, with the calls on descriptors that are made. A call of
`sendfds` on −1 does not succeed. -/
def runDaemon (s : Matchmaker) (outcome : Outcome) : Option (Matchmaker × List Call) :=
  match s.point, outcome with
  | .random, .random true => some ({ s with point := .pipe1, id1 := 0, id2 := 1 }, [])
  | .random, .random false => some ({ s with point := .pipe1, id1 := 1, id2 := 0 }, [])
  -- goto error1
  | .pipe1, .pipe false => some ({ s with point := .random }, [])
  | .pipe1, .pipe true =>
    some ({ s with point := .pipe2, pipe1 := (.readEnd s.pipes, .writeEnd s.pipes),
                   pipes := s.pipes + 1 }, [.pipe s.pipes])
  | .pipe2, .pipe false => some s.error2
  | .pipe2, .pipe true =>
    some ({ s with point := .accept1, pipe2 := (.readEnd s.pipes, .writeEnd s.pipes),
                   pipes := s.pipes + 1 }, [.pipe s.pipes])
  | .accept1, .accept false => some (s, [])
  | .accept1, .accept true =>
    some ({ s with point := .accept2, p1fd := some (.connection s.connections),
                   connections := s.connections + 1 }, [.accept s.connections])
  | .accept2, .accept false => some ({ s with point := .sendfds1, p2fd := none }, [])
  | .accept2, .accept true =>
    some ({ s with point := .sendfds1, p2fd := some (.connection s.connections),
                   connections := s.connections + 1 }, [.accept s.connections])
  | .sendfds1, .sendfds false =>
    some ({ s with point := .accept2, p1fd := s.p2fd },
      [.sendfds s.p1fd s.p1set s.id1 false, .close s.p1fd])
  | .sendfds1, .sendfds true =>
    if s.p1fd = none then none
    else some ({ s with point := .sendfds2 }, [.sendfds s.p1fd s.p1set s.id1 true])
  | .sendfds2, .sendfds ok =>
    if s.p2fd = none ∧ ok = true then none
    else some (s.finish.1, .sendfds s.p2fd s.p2set s.id2 ok :: s.finish.2)
  | _, _ => none

/-- The daemon when it starts. The variables of a round hold nothing before they are set. -/
def start : Matchmaker :=
  ⟨.random, 0, 0, (.readEnd 0, .writeEnd 0), (.readEnd 0, .writeEnd 0), none, none, 0, 0⟩

/-- The outcomes so far, the calls made so far and where the daemon is. -/
inductive Run : List Outcome → List Call → Matchmaker → Prop
  | start : Run [] [] start
  | step {os : List Outcome} {o : Outcome} {cs new : List Call} {s t : Matchmaker}
      (run : Run os cs s) (steps : runDaemon s o = some (t, new)) : Run (os ++ [o]) (cs ++ new) t

/-- The outcomes and the calls of a round that began at the top of the loop. -/
inductive Round (s : Matchmaker) : List Outcome → List Call → Matchmaker → Prop
  | first {o : Outcome} {cs : List Call} {t : Matchmaker} (top : s.point = .random)
      (steps : runDaemon s o = some (t, cs)) : Round s [o] cs t
  | next {os : List Outcome} {o : Outcome} {cs new : List Call} {t u : Matchmaker}
      (round : Round s os cs t) (going : t.point ≠ .random)
      (steps : runDaemon t o = some (u, new)) : Round s (os ++ [o]) (cs ++ new) u

/-- The finished rounds of the daemon, with the outcomes and the calls of each. -/
inductive Rounds : List (List Outcome × List Call) → Matchmaker → Prop
  | start : Rounds [] start
  | round {rs : List (List Outcome × List Call)} {os : List Outcome} {cs : List Call}
      {s t : Matchmaker} (rounds : Rounds rs s) (round : Round s os cs t)
      (ended : t.point = .random) : Rounds (rs ++ [(os, cs)]) t

/-- Outcomes, executed. -/
def serve : Matchmaker → List Outcome → Option (Matchmaker × List Call)
  | s, [] => some (s, [])
  | s, o :: os => do
    let (t, cs) ← runDaemon s o
    let (u, more) ← serve t os
    return (u, cs ++ more)

/-- What is executed is a run. -/
theorem Run.serve {os more : List Outcome} {cs new : List Call} {s t : Matchmaker}
    (run : Run os cs s) (served : serve s more = some (t, new)) :
    Run (os ++ more) (cs ++ new) t := by
  induction more generalizing os cs new s with
  | nil =>
    cases served
    simpa using run
  | cons o rest ih =>
    simp only [Daemon.serve, Option.bind_eq_bind, Option.bind_eq_some_iff, Prod.exists] at served
    obtain ⟨u, first, steps, v, later, served, done⟩ := served
    cases done
    have after := ih (run.step steps) served
    rwa [List.append_assoc, List.append_assoc] at after

end Chessh.Daemon
