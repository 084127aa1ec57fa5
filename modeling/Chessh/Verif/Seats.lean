import Chessh.Client.Start
import Chessh.Verif.Copyfd
import Chessh.Verif.Wiring

/-!
# How clients start

The sets of `run_daemon` on their way through `sendfds`, the kernel and `recvfds` into the variables
of `run_client`. A client is interrupted any number of times and then has the number and the pipes
of its set, although `recvfds` returns six; and two clients are opponents or have nothing in common:
`Run.seated`.
-/

namespace Chessh.Daemon

open Shared

/-- The process behind a connection to which a set is sent. -/
structure Receiver where
  /-- The calls of `recvfds` before the set comes. -/
  interrupted : List Attempt
  /-- The array `fds` before the loop. -/
  fds : List Int
  /-- The numbers that the kernel gives to the descriptors of a message. -/
  install : Int → Int
  /-- What its descriptors stand for. -/
  file : Int → Option Descriptor
  /-- What the buffer for the control data holds. -/
  stale : Nat → Int
  /-- `errno` after the last call. -/
  errno : Nat

/-- What a client plays with. -/
structure Seat where
  pid : Int
  /-- The pipe end behind `fds[0]`. -/
  reads : Descriptor
  /-- The pipe end behind `fds[1]`. -/
  writes : Descriptor
  deriving DecidableEq

/-- A pipe end of the seat belongs to the pipe. -/
def Seat.Touches (seat : Seat) (n : Nat) : Prop :=
  seat.reads = .readEnd n ∨ seat.writes = .writeEnd n

/-- One plays White and one Black, and each reads what the other one writes. -/
def Seat.Across (seat seat' : Seat) : Prop :=
  (seat.pid = 0 ∧ seat'.pid = 1 ∨ seat.pid = 1 ∧ seat'.pid = 0) ∧
    Crossed (seat.reads, seat.writes) (seat'.reads, seat'.writes)

/-- The seats share no pipe. -/
def Seat.Away (seat seat' : Seat) : Prop := ∀ n, seat.Touches n → ¬ seat'.Touches n

/-- What `sendfds` makes of a set; `number` are the numbers of the daemon's descriptors. -/
def Delivery.message (number : Descriptor → Int) (iobuf : UInt8) (x : Delivery) : Message :=
  sendfds iobuf [number x.fds.1, number x.fds.2] (some (bytesOfInt x.id))

/-- How the client starts that gets the message. -/
def Receiver.start (r : Receiver) (sent : Message) : Option Start :=
  awaitStart r.fds (r.interrupted ++ [.gets r.install r.stale sent r.errno])

/-- The client starts with the number and the pipe ends. -/
def Receiver.Takes (r : Receiver) (sent : Message) (seat : Seat) : Prop :=
  ∃ fds₀ fds₁, r.start sent = some (.started [fds₀, fds₁] seat.pid) ∧
    r.file fds₀ = some seat.reads ∧ r.file fds₁ = some seat.writes

/-- The calls before the set comes are interrupted, and the kernel passes descriptors on: what it
installs stands for what the daemon has sent. -/
structure Receiver.Served (r : Receiver) (number : Descriptor → Int) (x : Delivery) : Prop where
  again : ∀ attempt ∈ r.interrupted, attempt.Interrupted
  array : r.fds.length = 2
  first : r.file (r.install (number x.fds.1)) = some x.fds.1
  second : r.file (r.install (number x.fds.2)) = some x.fds.2

/-- The seat of a set. -/
def Delivery.seat (x : Delivery) : Seat := ⟨x.id, x.fds.1, x.fds.2⟩

section Seats

variable {r : Receiver} {number : Descriptor → Int} {x y : Delivery}

/-- One call of `recvfds` gets the set. -/
theorem awaitStart_gets (install : Int → Int) (stale : Nat → Int) (errno : Nat) {fds : List Int}
    (array : fds.length = 2) (iobuf : UInt8) (binary : x.id = 0 ∨ x.id = 1) (rest : List Attempt) :
    awaitStart fds (.gets install stale (x.message number iobuf) errno :: rest) =
      some (.started [install (number x.fds.1), install (number x.fds.2)] x.id) := by
  have room : [number x.fds.1, number x.fds.2].length ≤ fds.length := by rw [array]; rfl
  have count : fds.length < 2 ^ 31 := by omega
  have exchange := recvfds_eq install stale iobuf (bytesOfInt x.id) room count
  have fits : ¬ 16 + [number x.fds.1, number x.fds.2].length * 4 <
      cmsgLen (bytesOfInt x.id).length := by
    change ¬ 24 < cmsgLen 4
    decide
  have all : copied install stale [number x.fds.1, number x.fds.2] fds =
      [install (number x.fds.1), install (number x.fds.2)] := by
    rw [copied, array]
    rfl
  have six : toInt ([number x.fds.1, number x.fds.2].length + 4) = 6 := by
    change toInt 6 = 6
    decide
  rw [if_neg fits, all, six] at exchange
  have got : (Attempt.gets install stale (x.message number iobuf) errno).recvfds fds =
      ⟨6, [install (number x.fds.1), install (number x.fds.2)], bytesOfInt x.id, some 4⟩ := exchange
  have enough : ¬ ((6 : Int) < 2 ∨ (some 4).getD 0 < sizeofInt) := by decide
  rw [awaitStart, got, if_neg enough, intOfBytes_bytesOfInt (by omega) (by omega)]

/-- A client that is served takes the seat of its set. -/
theorem Receiver.Served.takes (served : r.Served number x) (iobuf : UInt8)
    (binary : x.id = 0 ∨ x.id = 1) : r.Takes (x.message number iobuf) x.seat := by
  obtain ⟨fds, size, same⟩ := awaitStart_interrupted served.again
    [.gets r.install r.stale (x.message number iobuf) r.errno] r.fds
  refine ⟨r.install (number x.fds.1), r.install (number x.fds.2), ?_, served.first, served.second⟩
  rw [Receiver.start, same]
  exact awaitStart_gets r.install r.stale r.errno (size.trans served.array) iobuf binary []

/-- It takes no other. -/
theorem Receiver.Takes.unique {sent : Message} {seat seat' : Seat} (first : r.Takes sent seat)
    (second : r.Takes sent seat') : seat = seat' := by
  obtain ⟨fds₀, fds₁, starts, reads, writes⟩ := first
  obtain ⟨fds₀', fds₁', starts', reads', writes'⟩ := second
  rw [starts, Option.some.injEq, Start.started.injEq, List.cons.injEq, List.cons.injEq] at starts'
  obtain ⟨⟨rfl, rfl, -⟩, number⟩ := starts'
  rw [reads, Option.some.injEq] at reads'
  rw [writes, Option.some.injEq] at writes'
  cases seat
  cases seat'
  simp_all

/-- Opponents sit across. -/
theorem Delivery.across_iff : x.seat.Across y.seat ↔ x.Opponents y := by
  unfold Seat.Across Delivery.Opponents Delivery.seat
  rw [and_comm]
  refine and_congr_right fun _ => ?_
  dsimp only
  omega

end Seats

/-- How the clients start that the daemon has sent sets to. -/
structure Seated (cs : List Call) (number : Descriptor → Int) (iobuf : UInt8)
    (client : Delivery → Receiver) : Prop where
  /-- Each starts with nought or one for its number, one end to read from and one to write to. -/
  starts : ∀ x ∈ deliveries cs, ∃ seat, (client x).Takes (x.message number iobuf) seat ∧
    (seat.pid = 0 ∨ seat.pid = 1) ∧ ∃ n a b, x.dest = some (.connection n) ∧ .accept n ∈ cs ∧
      a ≠ b ∧ .pipe a ∈ cs ∧ .pipe b ∈ cs ∧ seat.reads = .readEnd a ∧ seat.writes = .writeEnd b
  /-- Of two the second was accepted later, and they are opponents or share nothing. -/
  pairs : (deliveries cs).Pairwise fun x y =>
    (∃ m n, m < n ∧ x.dest = some (.connection m) ∧ y.dest = some (.connection n)) ∧
      ∀ seat seat', (client x).Takes (x.message number iobuf) seat →
        (client y).Takes (y.message number iobuf) seat' → seat.Across seat' ∨ seat.Away seat'
  /-- None has two opponents. -/
  alone : ∀ x ∈ deliveries cs, ∀ y ∈ deliveries cs, ∀ z ∈ deliveries cs, ∀ seat seat' seat'',
    (client x).Takes (x.message number iobuf) seat →
    (client y).Takes (y.message number iobuf) seat' →
    (client z).Takes (z.message number iobuf) seat'' →
    seat.Across seat' → seat.Across seat'' → y = z

/-- In every run of the daemon, however often its clients are interrupted. -/
theorem Run.seated {os : List Outcome} {cs : List Call} {s : Matchmaker} (run : Run os cs s)
    (number : Descriptor → Int) (iobuf : UInt8) (client : Delivery → Receiver)
    (served : ∀ x ∈ deliveries cs, (client x).Served number x) : Seated cs number iobuf client := by
  obtain ⟨apart, made, alone⟩ := run.wired
  have takes : ∀ x ∈ deliveries cs, (client x).Takes (x.message number iobuf) x.seat := by
    exact fun x member => (served x member).takes iobuf (made x member).2.2
  refine ⟨fun x member => ?_, ?_, ?_⟩
  · obtain ⟨⟨n, dest, accepted⟩, ⟨a, b, differ, first, second, fds⟩, binary⟩ := made x member
    have ends : x.seat.reads = .readEnd a ∧ x.seat.writes = .writeEnd b := by
      rw [Delivery.seat, fds]
      exact ⟨rfl, rfl⟩
    have pid : x.seat.pid = 0 ∨ x.seat.pid = 1 := by
      change (x.id : Int) = 0 ∨ (x.id : Int) = 1
      omega
    exact ⟨x.seat, takes x member, pid, n, a, b, dest, accepted, differ, first, second, ends⟩
  · refine apart.imp_of_mem fun {x y} member member' related => ?_
    obtain ⟨⟨n, dest, m, before, dest'⟩, related⟩ := related
    refine ⟨⟨m, n, before, dest', dest⟩, fun seat seat' first second => ?_⟩
    rw [first.unique (takes x member), second.unique (takes y member')]
    exact related.imp Delivery.across_iff.mpr id
  · intro x here y member z member' seat seat' seat'' first second third across across'
    rw [first.unique (takes x here), second.unique (takes y member)] at across
    rw [first.unique (takes x here), third.unique (takes z member')] at across'
    exact alone x here y member z member' (Delivery.across_iff.mp across)
      (Delivery.across_iff.mp across')

/-- Numbers of descriptors. -/
def numbered : Descriptor → Int
  | .connection n => 3 * n + 3
  | .readEnd n => 3 * n + 4
  | .writeEnd n => 3 * n + 5

/-- A client that is interrupted once, and gets other numbers. -/
def guest : Receiver where
  interrupted := [⟨fun fds => ⟨-1, fds, [], none⟩, eintr⟩]
  fds := [0, 0]
  install n := n + 1
  file n :=
    if n % 3 = 2 then some (.readEnd ((n - 5) / 3).toNat)
    else some (.writeEnd ((n - 6) / 3).toNat)
  stale _ := 0
  errno := 0

/-- It is served whatever its set. -/
theorem guest_served {x : Delivery} {a b : Nat} (fds : x.fds = (.readEnd a, .writeEnd b)) :
    guest.Served numbered x := by
  refine ⟨fun attempt member => ?_, rfl, ?_, ?_⟩
  · rw [List.mem_singleton.mp member]
    exact ⟨fun fds => show (-1 : Int) < 2 by decide, fun fds => rfl, Or.inl rfl⟩
  · have third : ((3 * a + 4 : Int) + 1) % 3 = 2 := by omega
    have index : (((3 * a + 4 : Int) + 1 - 5) / 3).toNat = a := by omega
    simp only [fds, guest, numbered, third, index, if_true]
  · have third : ¬ ((3 * b + 5 : Int) + 1) % 3 = 2 := by omega
    have index : (((3 * b + 5 : Int) + 1 - 6) / 3).toNat = b := by omega
    simp only [fds, guest, numbered, third, index, if_false]

/-- The clients of a greeting. -/
theorem seated_greeting : ∃ cs s, serve start (greeting true) = some (s, cs) ∧
    Seated cs numbered 0 fun _ => guest := by
  have served : (serve start (greeting true)).isSome := by decide
  obtain ⟨⟨s, cs⟩, served⟩ := Option.isSome_iff_exists.mp served
  have run := Run.start.serve served
  refine ⟨cs, s, served, Run.seated run numbered 0 (fun _ => guest) fun x member => ?_⟩
  obtain ⟨a, b, -, -, -, fds⟩ := (run.wired.2.1 x member).2.1
  exact guest_served fds

end Chessh.Daemon
