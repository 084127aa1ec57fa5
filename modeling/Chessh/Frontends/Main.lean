import Chessh.Frontends.Api

/-!
# The listener of the TCP frontend

`main` of `frontends/api.c`, with the part of `start_client` that stays in the parent, as a machine
whose steps are the system calls that can fail: `main` takes the outcome of the call the program is
in and runs on to the next such call. A connection is named by its turn among those accepted.
Children that have ended leave nothing behind, since `SIGCHLD` is ignored.
-/

namespace Chessh.Frontends

/-- A descriptor that `socket` or `accept` made. -/
inductive Descriptor
  | sockfd
  | clientfd (n : Nat)
  deriving DecidableEq, Repr

/-- The outcome of a call. -/
inductive Outcome
  | socket (made : Bool)
  | setsockopt (ok : Bool)
  | bind (ok : Bool)
  | listen (ok : Bool)
  /-- A new connection, or a failure. -/
  | accept (failure : Option Errno)
  /-- Whether there is a child. -/
  | fork (made : Bool)
  deriving DecidableEq, Repr

/-- A call that makes or takes descriptors, or passes all of them to a child. -/
inductive Call
  | socket
  /-- `accept` returned the `n`th connection. -/
  | accept (n : Nat)
  /-- `fork` for the `n`th connection. -/
  | fork (n : Nat) (made : Bool)
  /-- `close(clientfd)`. -/
  | close (n : Nat)
  deriving DecidableEq, Repr

/-- The call the program is in. -/
inductive Point
  | socket
  | setsockopt
  | bind
  | listen
  /-- The top of the loop. -/
  | accept
  | fork
  | returned (status : Int)
  deriving DecidableEq, Repr

/-- The variables of `main`, and how many connections the system has made. -/
structure Listener where
  /-- The call the program is in. -/
  point : Point
  /-- `clientfd`, which holds nothing before the first connection. -/
  clientfd : Nat
  /-- Connections accepted so far. -/
  connections : Nat
  deriving DecidableEq, Repr

/-- `main`, from a call to the next, with the calls on descriptors. -/
def main (s : Listener) (outcome : Outcome) : Option (Listener × List Call) :=
  match s.point, outcome with
  | .socket, .socket true => some ({ s with point := .setsockopt }, [.socket])
  | .socket, .socket false => some ({ s with point := .returned 1 }, [])
  | .setsockopt, .setsockopt true => some ({ s with point := .bind }, [])
  | .setsockopt, .setsockopt false => some ({ s with point := .returned 1 }, [])
  | .bind, .bind true => some ({ s with point := .listen }, [])
  | .bind, .bind false => some ({ s with point := .returned 1 }, [])
  | .listen, .listen true => some ({ s with point := .accept }, [])
  | .listen, .listen false => some ({ s with point := .returned 1 }, [])
  | .accept, .accept none =>
    some ({ point := .fork, clientfd := s.connections, connections := s.connections + 1 },
      [.accept s.connections])
  | .accept, .accept (some .eagain) | .accept, .accept (some .eintr) => some (s, [])
  | .accept, .accept (some (.other _)) => some ({ s with point := .returned 1 }, [])
  -- the parent keeps the connection
  | .fork, .fork false => some ({ s with point := .accept }, [.fork s.clientfd false])
  | .fork, .fork true =>
    some ({ s with point := .accept }, [.fork s.clientfd true, .close s.clientfd])
  | _, _ => none

/-- The program when it starts. -/
def Listener.start : Listener := ⟨.socket, 0, 0⟩

/-- The outcomes so far, the calls made so far and where the program is. -/
inductive Listens : List Outcome → List Call → Listener → Prop
  | start : Listens [] [] .start
  | step {os : List Outcome} {o : Outcome} {cs new : List Call} {s t : Listener}
      (run : Listens os cs s) (steps : main s o = some (t, new)) : Listens (os ++ [o]) (cs ++ new) t

/-- Outcomes, executed. -/
def Listener.run : Listener → List Outcome → Option (Listener × List Call)
  | s, [] => some (s, [])
  | s, o :: os => do
    let (t, cs) ← main s o
    let (u, more) ← Listener.run t os
    return (u, cs ++ more)

/-- What is executed is a run. -/
theorem Listens.run {os more : List Outcome} {cs new : List Call} {s t : Listener}
    (listens : Listens os cs s) (ran : s.run more = some (t, new)) :
    Listens (os ++ more) (cs ++ new) t := by
  induction more generalizing os cs new s with
  | nil =>
    cases ran
    simpa using listens
  | cons o rest ih =>
    simp only [Listener.run, Option.bind_eq_bind, Option.bind_eq_some_iff, Prod.exists] at ran
    obtain ⟨u, first, steps, v, later, ran, done⟩ := ran
    cases done
    have after := ih (listens.step steps) ran
    rwa [List.append_assoc, List.append_assoc] at after

end Chessh.Frontends
