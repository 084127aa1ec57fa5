import Chessh.Verif.Pairing

/-!
# Who is wired to whom

The sets that `run_daemon` has sent, over all of its rounds. They go to the connections in the order
in which these were accepted, and two of them belong to the players of one game or have no pipe in
common: `Run.wired`.
-/

namespace Chessh.Daemon

/-- A set that was sent: to whom, what, and who the receiver is to be. -/
structure Delivery where
  dest : Option Descriptor
  fds : Descriptor × Descriptor
  id : Nat
  deriving DecidableEq

/-- The set that a call has sent. -/
def Call.delivery : Call → Option Delivery
  | .sendfds dest fds id true => some ⟨dest, fds, id⟩
  | .sendfds _ _ _ false | .pipe _ | .accept _ | .close _ => none

/-- The sets that calls have sent, in order. -/
def deliveries (cs : List Call) : List Delivery := cs.filterMap Call.delivery

namespace Delivery

/-- It holds an end of the pipe. -/
def Touches (x : Delivery) (n : Nat) : Prop := x.fds.1 = .readEnd n ∨ x.fds.2 = .writeEnd n

/-- They share no pipe. -/
def Strangers (x y : Delivery) : Prop := ∀ n, x.Touches n → ¬ y.Touches n

/-- Each reads what the other one writes, and one of them is nought and the other one. -/
def Opponents (x y : Delivery) : Prop := Crossed x.fds y.fds ∧ x.id + y.id = 1

/-- It went to a connection that was accepted before the given one. -/
def Before (x : Delivery) (n : Nat) : Prop := ∃ m < n, x.dest = some (.connection m)

/-- The second went to a connection that was accepted later, and they belong to one game or have
nothing in common. -/
def Apart (x y : Delivery) : Prop :=
  (∃ n, y.dest = some (.connection n) ∧ x.Before n) ∧ (x.Opponents y ∨ x.Strangers y)

/-- Opponents share both of their pipes. -/
theorem Opponents.touches {x y : Delivery} (opponents : x.Opponents y) :
    ∃ a b, a ≠ b ∧ x.fds = (.readEnd a, .writeEnd b) ∧ y.fds = (.readEnd b, .writeEnd a) :=
  opponents.1

/-- Opponents of one player are not opponents of each other, and no strangers. -/
theorem Opponents.not_apart {x y z : Delivery} (first : x.Opponents y) (second : x.Opponents z) :
    ¬ y.Apart z := by
  obtain ⟨a, b, differ, mine, theirs⟩ := first.touches
  obtain ⟨a', b', -, mine', theirs'⟩ := second.touches
  rw [mine, Prod.mk.injEq, Descriptor.readEnd.injEq, Descriptor.writeEnd.injEq] at mine'
  obtain ⟨rfl, rfl⟩ := mine'
  rintro ⟨-, ⟨⟨c, d, apart, here, there⟩, -⟩ | strangers⟩
  · rw [theirs, Prod.mk.injEq, Descriptor.readEnd.injEq, Descriptor.writeEnd.injEq] at here
    rw [theirs', Prod.mk.injEq, Descriptor.readEnd.injEq, Descriptor.writeEnd.injEq] at there
    exact apart (here.1.symm.trans there.1)
  · exact strangers b (Or.inl (by rw [theirs])) (Or.inl (by rw [theirs']))

end Delivery

open Delivery

/-- No set sent so far holds an end of the pipe. -/
def Fresh (ds : List Delivery) (n : Nat) : Prop := ∀ x ∈ ds, ¬ x.Touches n

/-- The descriptor is −1, or a connection accepted after those that sets were sent to. -/
def Newer (ds : List Delivery) (connections : Nat) (fd : Option Descriptor) : Prop :=
  ∀ d, fd = some d → ∃ n < connections, d = .connection n ∧ ∀ x ∈ ds, x.Before n

/-- The pipes of a round are new, and crossed for its players. -/
structure Piped (ds : List Delivery) (s : Matchmaker) : Prop where
  ids : s.id1 + s.id2 = 1
  pipes : ∃ a b, a ≠ b ∧ (a < s.pipes ∧ b < s.pipes) ∧ s.pipe1 = (.readEnd a, .writeEnd a) ∧
    s.pipe2 = (.readEnd b, .writeEnd b) ∧ Fresh ds a ∧ Fresh ds b

/-- The second player came after the first. -/
def Queued (s : Matchmaker) : Prop :=
  ∀ m n, s.p1fd = some (.connection m) → s.p2fd = some (.connection n) → m < n

/-- What holds of the sets at each call of `run_daemon`. -/
def Placed (ds : List Delivery) (s : Matchmaker) : Prop :=
  match s.point with
  | .random => True
  | .pipe1 => s.id1 + s.id2 = 1
  | .pipe2 => s.id1 + s.id2 = 1 ∧ ∃ a < s.pipes, s.pipe1 = (.readEnd a, .writeEnd a) ∧ Fresh ds a
  | .accept1 => Piped ds s
  | .accept2 => Piped ds s ∧ Newer ds s.connections s.p1fd
  | .sendfds1 => Piped ds s ∧ Newer ds s.connections s.p1fd ∧
    Newer ds s.connections s.p2fd ∧ Queued s
  | .sendfds2 => ∃ earlier, ds = earlier ++ [⟨s.p1fd, s.p1set, s.id1⟩] ∧ Piped earlier s ∧
      Newer ds s.connections s.p2fd

/-- The set was made of what the system had made. -/
structure Formed (s : Matchmaker) (x : Delivery) : Prop where
  dest : x.Before s.connections
  pipes : ∃ a b, a ≠ b ∧ (a < s.pipes ∧ b < s.pipes) ∧ x.fds = (.readEnd a, .writeEnd b)
  id : x.id = 0 ∨ x.id = 1

/-- The sets sent so far, and where the daemon is. -/
structure Wired (ds : List Delivery) (s : Matchmaker) : Prop where
  formed : ∀ x ∈ ds, Formed s x
  apart : ds.Pairwise Apart
  placed : Placed ds s

section Steps

variable {ds : List Delivery} {s t : Matchmaker} {o : Outcome} {new : List Call}

/-- The system makes more. -/
theorem Formed.later {x : Delivery} (formed : Formed s x)
    (connections : s.connections ≤ t.connections) (pipes : s.pipes ≤ t.pipes) : Formed t x := by
  obtain ⟨⟨m, before, dest⟩, ⟨a, b, differ, ⟨old, old'⟩, fds⟩, id⟩ := formed
  exact ⟨⟨m, by omega, dest⟩, ⟨a, b, differ, ⟨by omega, by omega⟩, fds⟩, id⟩

/-- A pipe that is made now is new. -/
theorem Wired.fresh (wired : Wired ds s) {n : Nat} (now : s.pipes ≤ n) : Fresh ds n := by
  intro x member touches
  obtain ⟨-, ⟨a, b, -, ⟨old, old'⟩, fds⟩, -⟩ := wired.formed x member
  unfold Touches at touches
  rw [fds] at touches
  rcases touches with same | same <;> cases same <;> omega

/-- A connection that is accepted now is newer. -/
theorem Wired.newer (wired : Wired ds s) :
    Newer ds (s.connections + 1) (some (.connection s.connections)) := by
  rintro d ⟨⟩
  exact ⟨s.connections, Nat.lt_succ_self _, rfl, fun x member => (wired.formed x member).dest⟩

/-- More connections are accepted. -/
theorem Newer.later {fd : Option Descriptor} {n n' : Nat} (newer : Newer ds n fd) (grows : n ≤ n') :
    Newer ds n' fd := by
  intro d here
  obtain ⟨m, below, name, before⟩ := newer d here
  exact ⟨m, by omega, name, before⟩

/-- The pipes of a round stay. -/
theorem Piped.moved (piped : Piped ds s) (id1 : t.id1 = s.id1) (id2 : t.id2 = s.id2)
    (pipe1 : t.pipe1 = s.pipe1) (pipe2 : t.pipe2 = s.pipe2) (pipes : t.pipes = s.pipes) :
    Piped ds t := by
  obtain ⟨ids, ends⟩ := piped
  refine ⟨by rw [id1, id2, ids], ?_⟩
  rw [pipe1, pipe2, pipes]
  exact ends

/-- A step that sends nothing leaves the sets as they are. -/
theorem Wired.quiet (wired : Wired ds s) (connections : s.connections ≤ t.connections)
    (pipes : s.pipes ≤ t.pipes) (placed : Placed ds t) : Wired ds t :=
  ⟨fun x member => (wired.formed x member).later connections pipes, wired.apart, placed⟩

/-- A set that is sent with new pipes to a newer connection is apart from the others. -/
theorem Wired.sent {x : Delivery} (wired : Wired ds s) (formed : Formed t x)
    (connections : s.connections ≤ t.connections) (pipes : s.pipes ≤ t.pipes)
    (apart : ∀ y ∈ ds, y.Apart x) (placed : Placed (ds ++ [x]) t) : Wired (ds ++ [x]) t := by
  refine ⟨fun y member => ?_, ?_, placed⟩
  · rcases List.mem_append.mp member with before | now
    · exact (wired.formed y before).later connections pipes
    · rw [List.mem_singleton.mp now]
      exact formed
  · refine List.pairwise_append.mpr ⟨wired.apart, List.pairwise_singleton _ _, ?_⟩
    intro y member z last
    rw [List.mem_singleton.mp last]
    exact apart y member

/-- A call that sends nothing. -/
theorem deliveries_quiet (cs : List Call) (silent : ∀ c ∈ new, c.delivery = none) :
    deliveries (cs ++ new) = deliveries cs := by
  unfold deliveries
  rw [List.filterMap_append, List.filterMap_eq_nil_iff.mpr silent, List.append_nil]

/-- What the first player is sent. -/
theorem deliveries_told (cs : List Call) (s : Matchmaker) :
    deliveries (cs ++ [.sendfds s.p1fd s.p1set s.id1 true]) =
      deliveries cs ++ [⟨s.p1fd, s.p1set, s.id1⟩] := by
  simp [deliveries, Call.delivery]

/-- What the last calls of a round send. -/
theorem deliveries_finish (cs : List Call) (s : Matchmaker) (ok : Bool) :
    deliveries (cs ++ .sendfds s.p2fd s.p2set s.id2 ok :: s.finish.2) =
      deliveries cs ++ if ok then [⟨s.p2fd, s.p2set, s.id2⟩] else [] := by
  unfold deliveries
  rw [List.filterMap_append]
  cases ok <;> simp [Matchmaker.finish, Matchmaker.error2, Call.delivery]

/-- The set of a player with new pipes shares none with those sent before. -/
theorem Piped.strangers {x y : Delivery} (piped : Piped ds s) (earlier : y ∈ ds)
    (set : x.fds = s.p1set ∨ x.fds = s.p2set) : y.Strangers x := by
  obtain ⟨-, a, b, -, -, first, second, fresh, fresh'⟩ := piped
  intro n theirs mine
  have one : s.p1set = (.readEnd a, .writeEnd b) := by rw [Matchmaker.p1set, first, second]
  have two : s.p2set = (.readEnd b, .writeEnd a) := by rw [Matchmaker.p2set, first, second]
  have named : n = a ∨ n = b := by
    unfold Touches at mine
    rcases set with same | same
    · rw [same, one] at mine
      rcases mine with here | here <;> cases here
      exacts [Or.inl rfl, Or.inr rfl]
    · rw [same, two] at mine
      rcases mine with here | here <;> cases here
      exacts [Or.inr rfl, Or.inl rfl]
  rcases named with rfl | rfl
  exacts [fresh y earlier theirs, fresh' y earlier theirs]

/-- The set of a player is made of the pipes of the round. -/
theorem Piped.formed {x : Delivery} (piped : Piped ds s) (set : x.fds = s.p1set ∨ x.fds = s.p2set)
    (id : x.id = s.id1 ∨ x.id = s.id2) (dest : x.Before s.connections) : Formed s x := by
  obtain ⟨ids, a, b, differ, ⟨old, old'⟩, first, second, -, -⟩ := piped
  refine ⟨dest, ?_, by omega⟩
  rcases set with same | same
  · exact ⟨a, b, differ, ⟨old, old'⟩, by rw [same, Matchmaker.p1set, first, second]⟩
  · exact ⟨b, a, differ.symm, ⟨old', old⟩, by rw [same, Matchmaker.p2set, first, second]⟩

/-- The sets of a round cross its pipes. -/
theorem Piped.crossed (piped : Piped ds s) : Crossed s.p1set s.p2set := by
  obtain ⟨-, a, b, differ, -, first, second, -, -⟩ := piped
  exact ⟨a, b, differ, by rw [Matchmaker.p1set, first, second],
    by rw [Matchmaker.p2set, first, second]⟩

/-- The second pipe of a round is made. -/
theorem Wired.piped (wired : Wired ds s) (here : s.point = .pipe2) :
    Wired ds { s with point := .accept1, pipe2 := (.readEnd s.pipes, .writeEnd s.pipes),
                      pipes := s.pipes + 1 } := by
  have placed := wired.placed
  simp only [Placed, here] at placed
  obtain ⟨ids, a, old, first, fresh⟩ := placed
  refine wired.quiet le_rfl (Nat.le_succ _) ⟨ids, a, s.pipes, by omega, ?_, first, rfl, fresh,
    wired.fresh le_rfl⟩
  exact ⟨Nat.lt_succ_of_lt old, Nat.lt_succ_self _⟩

/-- The second player comes. -/
theorem Wired.joined (wired : Wired ds s) (here : s.point = .accept2) :
    Wired ds { s with point := .sendfds1, p2fd := some (.connection s.connections),
                      connections := s.connections + 1 } := by
  have placed := wired.placed
  simp only [Placed, here] at placed
  obtain ⟨piped, newer⟩ := placed
  refine wired.quiet (Nat.le_succ _) le_rfl ⟨piped.moved rfl rfl rfl rfl rfl,
    newer.later (Nat.le_succ _), wired.newer, fun m n first second => ?_⟩
  obtain ⟨m', below, name, -⟩ := newer _ first
  cases name
  cases second
  exact below

/-- The first player is sent its set. -/
theorem Wired.told (wired : Wired ds s) (here : s.point = .sendfds1) (first : s.p1fd ≠ none) :
    Wired (ds ++ [⟨s.p1fd, s.p1set, s.id1⟩]) { s with point := .sendfds2 } := by
  have placed := wired.placed
  simp only [Placed, here] at placed
  obtain ⟨piped, newer, newer', queued⟩ := placed
  obtain ⟨d, name⟩ := Option.ne_none_iff_exists'.mp first
  obtain ⟨m, below, rfl, before⟩ := newer d name
  have formed : Formed s ⟨s.p1fd, s.p1set, s.id1⟩ :=
    piped.formed (Or.inl rfl) (Or.inl rfl) ⟨m, below, name⟩
  refine wired.sent (formed.later le_rfl le_rfl) le_rfl le_rfl
    (fun y earlier => ⟨⟨m, name, before y earlier⟩, Or.inr (piped.strangers earlier (Or.inl rfl))⟩)
    ⟨ds, rfl, piped.moved rfl rfl rfl rfl rfl, fun e name' => ?_⟩
  obtain ⟨n, below', rfl, before'⟩ := newer' e name'
  refine ⟨n, below', rfl, fun y member => ?_⟩
  rcases List.mem_append.mp member with earlier | last
  · exact before' y earlier
  · rw [List.mem_singleton.mp last]
    exact ⟨m, queued m n name name', name⟩

/-- The second player is sent its set. -/
theorem Wired.finished (wired : Wired ds s) (here : s.point = .sendfds2) (second : s.p2fd ≠ none) :
    Wired (ds ++ [⟨s.p2fd, s.p2set, s.id2⟩]) s.finish.1 := by
  have placed := wired.placed
  simp only [Placed, here] at placed
  obtain ⟨earlier, same, piped, newer⟩ := placed
  obtain ⟨d, name⟩ := Option.ne_none_iff_exists'.mp second
  obtain ⟨n, below, rfl, before⟩ := newer d name
  have formed : Formed s ⟨s.p2fd, s.p2set, s.id2⟩ :=
    piped.formed (Or.inr rfl) (Or.inr rfl) ⟨n, below, name⟩
  refine wired.sent (formed.later le_rfl le_rfl) le_rfl le_rfl
    (fun y member => ⟨⟨n, name, before y member⟩, ?_⟩) trivial
  rw [same] at member
  rcases List.mem_append.mp member with old | last
  · exact Or.inr (piped.strangers old (Or.inr rfl))
  · rw [List.mem_singleton.mp last]
    exact Or.inl ⟨piped.crossed, piped.ids⟩

/-- A step keeps the wiring. -/
theorem Wired.step {cs : List Call} (wired : Wired (deliveries cs) s) (moves : Moves s o t new) :
    Wired (deliveries (cs ++ new)) t := by
  have placed := wired.placed
  cases moves with
  | drawn here opposite =>
    rw [deliveries_quiet cs (by simp)]
    exact wired.quiet le_rfl le_rfl opposite
  | noPipe1 here =>
    rw [deliveries_quiet cs (by simp)]
    exact wired.quiet le_rfl le_rfl trivial
  | pipe1 here =>
    rw [deliveries_quiet cs (by simp [Call.delivery])]
    simp only [Placed, here] at placed
    exact wired.quiet le_rfl (Nat.le_succ _)
      ⟨placed, s.pipes, Nat.lt_succ_self _, rfl, wired.fresh le_rfl⟩
  | noPipe2 here =>
    rw [deliveries_quiet cs (by simp [Matchmaker.error2, Call.delivery])]
    exact wired.quiet le_rfl le_rfl trivial
  | pipe2 here =>
    rw [deliveries_quiet cs (by simp [Call.delivery])]
    exact wired.piped here
  | noAccept1 here =>
    rw [deliveries_quiet cs (by simp)]
    exact wired
  | accept1 here =>
    rw [deliveries_quiet cs (by simp [Call.delivery])]
    simp only [Placed, here] at placed
    exact wired.quiet (Nat.le_succ _) le_rfl ⟨placed.moved rfl rfl rfl rfl rfl, wired.newer⟩
  | noAccept2 here =>
    rw [deliveries_quiet cs (by simp)]
    simp only [Placed, here] at placed
    exact wired.quiet le_rfl le_rfl ⟨placed.1.moved rfl rfl rfl rfl rfl, placed.2, by simp [Newer],
      by simp [Queued]⟩
  | accept2 here =>
    rw [deliveries_quiet cs (by simp [Call.delivery])]
    exact wired.joined here
  | gone here =>
    rw [deliveries_quiet cs (by simp [Call.delivery])]
    simp only [Placed, here] at placed
    obtain ⟨piped, -, newer, -⟩ := placed
    exact wired.quiet le_rfl le_rfl ⟨piped.moved rfl rfl rfl rfl rfl, newer⟩
  | told here first =>
    rw [deliveries_told]
    exact wired.told here first
  | @finished ok here second =>
    rw [deliveries_finish]
    cases ok with
    | false =>
      rw [if_neg Bool.false_ne_true, List.append_nil]
      exact wired.quiet le_rfl le_rfl trivial
    | true =>
      rw [if_pos rfl]
      exact wired.finished here (second rfl)

end Steps

/-- The sets of every run. -/
theorem Run.placed {os : List Outcome} {cs : List Call} {s : Matchmaker} (run : Run os cs s) :
    Wired (deliveries cs) s := by
  induction run with
  | start => exact ⟨by simp [deliveries], List.Pairwise.nil, trivial⟩
  | step run steps ih => exact ih.step (runDaemon_moves steps)

/-- A connection that the system counts was accepted. -/
theorem Run.accepted {os : List Outcome} {cs : List Call} {s : Matchmaker} (run : Run os cs s)
    {n : Nat} (counted : n < s.connections) : .accept n ∈ cs := by
  obtain ⟨c, member, makes⟩ := makes_iff.mpr ((run.booked.made (.connection n)).mpr counted)
  cases c with
  | accept m =>
    cases makes
    exact member
  | pipe m => rcases makes with made | made <;> cases made
  | sendfds | close => exact makes.elim

/-- A pipe that the system counts was made. -/
theorem Run.piped {os : List Outcome} {cs : List Call} {s : Matchmaker} (run : Run os cs s)
    {n : Nat} (counted : n < s.pipes) : .pipe n ∈ cs := by
  obtain ⟨c, member, makes⟩ := makes_iff.mpr ((run.booked.made (.readEnd n)).mpr counted)
  cases c with
  | pipe m =>
    rcases makes with made | made <;> cases made
    exact member
  | accept m => cases makes
  | sendfds | close => exact makes.elim

/-- Whoever is sent a set by the daemon is wired to one player or to nobody: the sets go to the
connections in the order in which they were accepted, at most one to each; no set has an end of a
pipe twice; any two of them cross their pipes and name one nought and one one, or they have no pipe
in common; and at most one other crosses the pipes of a set. -/
theorem Run.wired {os : List Outcome} {cs : List Call} {s : Matchmaker} (run : Run os cs s) :
    (deliveries cs).Pairwise Apart ∧
      (∀ x ∈ deliveries cs, (∃ n, x.dest = some (.connection n) ∧ .accept n ∈ cs) ∧
        (∃ a b, a ≠ b ∧ .pipe a ∈ cs ∧ .pipe b ∈ cs ∧ x.fds = (.readEnd a, .writeEnd b)) ∧
        (x.id = 0 ∨ x.id = 1)) ∧
      ∀ x ∈ deliveries cs, ∀ y ∈ deliveries cs, ∀ z ∈ deliveries cs,
        x.Opponents y → x.Opponents z → y = z := by
  have wired := run.placed
  refine ⟨wired.apart, fun x member => ?_, fun x _ y first z second opponents opponents' => ?_⟩
  · obtain ⟨⟨n, accepted, dest⟩, ⟨a, b, differ, ⟨old, old'⟩, fds⟩, id⟩ := wired.formed x member
    exact ⟨⟨n, dest, run.accepted accepted⟩,
      ⟨a, b, differ, run.piped old, run.piped old', fds⟩, id⟩
  · have symm : Std.Symm fun x y : Delivery => x.Apart y ∨ y.Apart x := ⟨fun _ _ => Or.symm⟩
    have either : (deliveries cs).Pairwise fun x y => x.Apart y ∨ y.Apart x :=
      wired.apart.imp Or.inl
    by_contra differ
    rcases either.forall first second differ with apart | apart
    · exact opponents.not_apart opponents' apart
    · exact opponents'.not_apart opponents apart

end Chessh.Daemon
