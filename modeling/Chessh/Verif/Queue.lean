import Chessh.Verif.Wiring

/-!
# First come, first served

`run_daemon` against the queue it stands for. Of two connections that wait, the first is told of its
game if it is still there, and then the second as well; if it is not, the second takes its place and
waits for the next. `Run.queue` says that the sets of every run are those that this queue hands out.
-/

namespace Chessh.Daemon

open Delivery

/-! ## The queue -/

/-- What the queue hands out to those who come, in order; `live` are those who are still there when
their turn comes. A failed `accept` comes as −1. -/
inductive Handed (live : Option Descriptor → Bool) : List (Option Descriptor) → List Delivery → Prop
  | nil : Handed live [] []
  /-- The last one waits. -/
  | waits (a : Option Descriptor) : Handed live [a] []
  | gone {a b : Option Descriptor} {rest : List (Option Descriptor)} {ds : List Delivery}
      (left : live a = false) (handed : Handed live (b :: rest) ds) :
        Handed live (a :: b :: rest) ds
  /-- Two players. -/
  | both {a b : Option Descriptor} {rest : List (Option Descriptor)} {x y : Delivery}
      {ds : List Delivery} (first : live a = true) (second : live b = true) (dest : x.dest = a)
      (dest' : y.dest = b) (opponents : x.Opponents y) (handed : Handed live rest ds) :
      Handed live (a :: b :: rest) (x :: y :: ds)
  /-- The second is gone, and the first has nobody to play with. -/
  | alone {a b : Option Descriptor} {rest : List (Option Descriptor)} {x : Delivery}
      {ds : List Delivery} (first : live a = true) (second : live b = false) (dest : x.dest = a)
      (handed : Handed live rest ds) : Handed live (a :: b :: rest) (x :: ds)

/-- Those who came are served, and the sets for them are these, whoever comes later. -/
def Dealt (live : Option Descriptor → Bool) (came : List (Option Descriptor)) (ds : List Delivery) :
    Prop :=
  ∀ later more, Handed live later more → Handed live (came ++ later) (ds ++ more)

section Queue

variable {live : Option Descriptor → Bool} {came : List (Option Descriptor)} {ds : List Delivery}
  {a b : Option Descriptor} {x y : Delivery}

/-- Nobody has come. -/
theorem Dealt.start : Dealt live [] [] := fun _ _ handed => handed

/-- What has been handed out so far. -/
theorem Dealt.handed (dealt : Dealt live came ds) : Handed live came ds := by
  have now := dealt [] [] .nil
  rwa [List.append_nil, List.append_nil] at now

/-- One more waits. -/
theorem Dealt.waits (dealt : Dealt live came ds) (a : Option Descriptor) :
    Handed live (came ++ [a]) ds := by
  have now := dealt [a] [] (.waits a)
  rwa [List.append_nil] at now

/-- One is gone before the next has come. -/
theorem Dealt.gone (dealt : Dealt live came ds) (left : live a = false) :
    Dealt live (came ++ [a]) ds := by
  intro later more handed
  rw [List.append_assoc]
  refine dealt _ _ ?_
  cases later with
  | nil =>
    cases handed
    exact .waits a
  | cons b rest => exact .gone left handed

/-- Two players are served. -/
theorem Dealt.both (dealt : Dealt live came ds) (first : live a = true) (second : live b = true)
    (dest : x.dest = a) (dest' : y.dest = b) (opponents : x.Opponents y) :
    Dealt live (came ++ [a, b]) (ds ++ [x, y]) := by
  intro later more handed
  rw [List.append_assoc, List.append_assoc]
  exact dealt _ _ (.both first second dest dest' opponents handed)

/-- One is served and has no opponent. -/
theorem Dealt.alone (dealt : Dealt live came ds) (first : live a = true) (second : live b = false)
    (dest : x.dest = a) : Dealt live (came ++ [a, b]) (ds ++ [x]) := by
  intro later more handed
  rw [List.append_assoc, List.append_assoc]
  exact dealt _ _ (.alone first second dest handed)

/-- If everyone stays, everyone is served in order, but for the last of an odd number. -/
theorem Handed.everyone (handed : Handed live came ds) (stay : ∀ a ∈ came, live a = true) :
    ds.map Delivery.dest = came.take (came.length / 2 * 2) := by
  induction handed with
  | nil => rfl
  | waits a => simp
  | @gone a b rest ds left handed ih =>
    rw [stay a List.mem_cons_self] at left
    cases left
  | @both a b rest x y ds first second dest dest' opponents handed ih =>
    have others : ∀ c ∈ rest, live c = true := fun c member =>
      stay c (List.mem_cons_of_mem a (List.mem_cons_of_mem b member))
    have size : (rest.length + 2) / 2 * 2 = rest.length / 2 * 2 + 2 := by omega
    rw [List.map_cons, List.map_cons, ih others, dest, dest', List.length_cons,
      List.length_cons, size]
    rfl
  | @alone a b rest x ds first second dest handed ih =>
    rw [stay b (by simp)] at second
    cases second

end Queue

/-! ## Who comes -/

/-- Who comes with an outcome. -/
def arrival (s : Matchmaker) : Outcome → Option (Option Descriptor)
  | .accept true =>
    if s.point = .accept1 ∨ s.point = .accept2 then some (some (.connection s.connections))
    else none
  | .accept false => if s.point = .accept2 then some none else none
  | .random _ | .pipe _ | .sendfds _ => none

/-- Who comes with outcomes. -/
def arrivals : Matchmaker → List Outcome → List (Option Descriptor)
  | _, [] => []
  | s, o :: os => (arrival s o).toList ++ (runDaemon s o).elim [] fun next => arrivals next.1 os

/-- Who comes in a run and after it. -/
theorem Run.arrivals_append {os : List Outcome} {cs : List Call} {s : Matchmaker}
    (run : Run os cs s) (more : List Outcome) :
    arrivals Daemon.start (os ++ more) =
      arrivals Daemon.start os ++ arrivals s more := by
  induction run generalizing more with
  | start => rfl
  | step run steps ih =>
    rw [List.append_assoc, ih, ih, List.append_assoc]
    congr 1
    rw [List.singleton_append, arrivals, arrivals, steps]
    simp [arrivals]

/-- Whether a set could be sent is whether its receiver was still there. -/
def Agrees (live : Option Descriptor → Bool) (cs : List Call) : Prop :=
  ∀ dest fds id ok, .sendfds dest fds id ok ∈ cs → ok = live dest

/-- How far the queue is at each call of `run_daemon`. -/
def Lined (live : Option Descriptor → Bool) (came : List (Option Descriptor)) (ds : List Delivery)
    (s : Matchmaker) : Prop :=
  match s.point with
  | .random | .pipe1 | .pipe2 | .accept1 => Dealt live came ds
  | .accept2 => ∃ served, came = served ++ [s.p1fd] ∧ Dealt live served ds
  | .sendfds1 => ∃ served, came = served ++ [s.p1fd, s.p2fd] ∧ Dealt live served ds
  | .sendfds2 => ∃ served old, came = served ++ [s.p1fd, s.p2fd] ∧
      ds = old ++ [⟨s.p1fd, s.p1set, s.id1⟩] ∧ live s.p1fd = true ∧ Dealt live served old

section Steps

variable {live : Option Descriptor → Bool} {came : List (Option Descriptor)} {ds : List Delivery}
  {cs new : List Call} {s t : Matchmaker} {o : Outcome}

/-- The second of two comes, or −1. -/
theorem Lined.joined (lined : Lined live came ds s) (here : s.point = .accept2)
    (fd : Option Descriptor) (n : Nat) :
    Lined live (came ++ [fd]) ds { s with point := .sendfds1, p2fd := fd, connections := n } := by
  simp only [Lined, here] at lined
  obtain ⟨served, rfl, dealt⟩ := lined
  exact ⟨served, by simp, dealt⟩

/-- The first of two is gone. -/
theorem Lined.gone (lined : Lined live came ds s) (here : s.point = .sendfds1)
    (left : live s.p1fd = false) :
    Lined live came ds { s with point := .accept2, p1fd := s.p2fd } := by
  simp only [Lined, here] at lined
  obtain ⟨served, rfl, dealt⟩ := lined
  exact ⟨served ++ [s.p1fd], by simp, dealt.gone left⟩

/-- The first of two is told. -/
theorem Lined.told (lined : Lined live came ds s) (here : s.point = .sendfds1)
    (stays : live s.p1fd = true) :
    Lined live came (ds ++ [⟨s.p1fd, s.p1set, s.id1⟩]) { s with point := .sendfds2 } := by
  simp only [Lined, here] at lined
  obtain ⟨served, rfl, dealt⟩ := lined
  exact ⟨served, ds, rfl, rfl, stays, dealt⟩

/-- The second of two is told, or is gone. -/
theorem Lined.finished (lined : Lined live came ds s) (here : s.point = .sendfds2)
    (wired : Wired ds s) : Lined live came
      (ds ++ if live s.p2fd then [⟨s.p2fd, s.p2set, s.id2⟩] else []) s.finish.1 := by
  have placed := wired.placed
  simp only [Placed, here] at placed
  simp only [Lined, here] at lined
  obtain ⟨served, old, rfl, rfl, stays, dealt⟩ := lined
  obtain ⟨earlier, same, piped, -⟩ := placed
  by_cases there : live s.p2fd = true
  · rw [if_pos there, List.append_assoc]
    exact dealt.both stays there rfl rfl ⟨piped.crossed, piped.ids⟩
  · rw [if_neg there, List.append_nil]
    exact dealt.alone stays (by simpa using there) rfl

/-- A step moves the queue as it should. -/
theorem Lined.step (lined : Lined live came (deliveries cs) s) (moves : Moves s o t new)
    (agrees : Agrees live new) (wired : Wired (deliveries cs) s) :
    Lined live (came ++ (arrival s o).toList) (deliveries (cs ++ new)) t := by
  cases moves with
  | drawn here =>
    rw [deliveries_quiet cs (by simp)]
    simpa [Lined, here, arrival] using lined
  | noPipe1 here =>
    rw [deliveries_quiet cs (by simp)]
    simpa [Lined, here, arrival] using lined
  | pipe1 here =>
    rw [deliveries_quiet cs (by simp [Call.delivery])]
    simpa [Lined, here, arrival] using lined
  | noPipe2 here =>
    rw [deliveries_quiet cs (by simp [Matchmaker.error2, Call.delivery])]
    simpa [Lined, here, arrival, Matchmaker.error2] using lined
  | pipe2 here =>
    rw [deliveries_quiet cs (by simp [Call.delivery])]
    simpa [Lined, here, arrival] using lined
  | noAccept1 here =>
    rw [deliveries_quiet cs (by simp)]
    simpa [Lined, here, arrival] using lined
  | accept1 here =>
    rw [deliveries_quiet cs (by simp [Call.delivery]), arrival, if_pos (Or.inl here)]
    simp only [Lined, here] at lined
    exact ⟨came, rfl, lined⟩
  | noAccept2 here =>
    rw [deliveries_quiet cs (by simp), arrival, if_pos here]
    exact lined.joined here none s.connections
  | accept2 here =>
    rw [deliveries_quiet cs (by simp [Call.delivery]), arrival, if_pos (Or.inr here)]
    exact lined.joined here _ _
  | gone here =>
    have left := agrees s.p1fd s.p1set s.id1 false List.mem_cons_self
    rw [deliveries_quiet cs (by simp [Call.delivery]), arrival, Option.toList_none, List.append_nil]
    exact lined.gone here left.symm
  | told here first =>
    have stays := agrees s.p1fd s.p1set s.id1 true List.mem_cons_self
    rw [deliveries_told, arrival, Option.toList_none, List.append_nil]
    exact lined.told here stays.symm
  | @finished ok here second =>
    have answer := agrees s.p2fd s.p2set s.id2 ok List.mem_cons_self
    rw [deliveries_finish, arrival, Option.toList_none, List.append_nil, answer]
    exact lined.finished here wired

end Steps

/-- The queue in every run. -/
theorem Run.lined {os : List Outcome} {cs : List Call} {s : Matchmaker}
    {live : Option Descriptor → Bool} (run : Run os cs s) (agrees : Agrees live cs) :
    Lined live (arrivals Daemon.start os) (deliveries cs) s := by
  induction run with
  | start => exact Dealt.start
  | @step os o cs new s t run steps ih =>
    have before : Agrees live cs := fun dest fds id ok member =>
      agrees dest fds id ok (List.mem_append_left _ member)
    have now : Agrees live new := fun dest fds id ok member =>
      agrees dest fds id ok (List.mem_append_right _ member)
    have comes : arrivals s [o] = (arrival s o).toList := by
      rw [arrivals, steps]
      simp [arrivals]
    rw [run.arrivals_append, comes]
    exact (ih before).step (runDaemon_moves steps) now run.placed

/-! ## No receiver is tried twice -/

/-- A set was meant for the descriptor. -/
def Tried (cs : List Call) (d : Descriptor) : Prop :=
  ∃ fds id ok, .sendfds (some d) fds id ok ∈ cs

/-- The receiver a set was meant for. -/
def Call.receiver : Call → Option Descriptor
  | .sendfds dest _ _ _ => dest
  | .pipe _ | .accept _ | .close _ => none

/-- The descriptor is −1 or an accepted connection that no set was meant for. -/
def Untried (cs : List Call) (connections : Nat) (fd : Option Descriptor) : Prop :=
  ∀ d, fd = some d → ¬ Tried cs d ∧ ∃ m < connections, d = .connection m

/-- Those who wait have not been tried. -/
def Fair (cs : List Call) (s : Matchmaker) : Prop :=
  match s.point with
  | .random | .pipe1 | .pipe2 | .accept1 => True
  | .accept2 => Untried cs s.connections s.p1fd
  | .sendfds1 => Untried cs s.connections s.p1fd ∧ Untried cs s.connections s.p2fd ∧
      ∀ d, s.p1fd = some d → s.p2fd ≠ some d
  | .sendfds2 => Untried cs s.connections s.p2fd

/-- Sets were meant for connections of the past, one for each, and whether they could be sent
depends on their receivers alone. -/
structure Trials (cs : List Call) (s : Matchmaker) : Prop where
  once : (cs.filterMap Call.receiver).Nodup
  agree : ∃ live, live none = false ∧ Agrees live cs
  past : ∀ d, Tried cs d → ∃ m < s.connections, d = .connection m
  fair : Fair cs s

section Trials

variable {cs new : List Call} {s t : Matchmaker} {o : Outcome} {fd : Option Descriptor}
  {d : Descriptor}

/-- Calls of other kinds try nobody. -/
theorem tried_quiet (quiet : ∀ dest fds id ok, .sendfds dest fds id ok ∉ new) :
    Tried (cs ++ new) d ↔ Tried cs d := by
  unfold Tried
  simp [quiet]

/-- A call of `sendfds` tries its receiver. -/
theorem tried_sendfds {dest : Option Descriptor} {fds : Descriptor × Descriptor}
    {id : Nat} {ok : Bool} (quiet : ∀ dest fds id ok, .sendfds dest fds id ok ∉ new) :
    Tried (cs ++ .sendfds dest fds id ok :: new) d ↔ Tried cs d ∨ dest = some d := by
  unfold Tried
  simp [quiet, exists_or, eq_comm]

/-- A receiver is one that was tried. -/
theorem mem_receivers : d ∈ cs.filterMap Call.receiver ↔ Tried cs d := by
  rw [List.mem_filterMap]
  constructor
  · rintro ⟨c, member, same⟩
    cases c with
    | sendfds dest fds id ok =>
      cases same
      exact ⟨fds, id, ok, member⟩
    | pipe | accept | close => cases same
  · rintro ⟨fds, id, ok, member⟩
    exact ⟨_, member, rfl⟩

/-- Calls of other kinds have no receiver. -/
theorem receivers_quiet (quiet : ∀ dest fds id ok, .sendfds dest fds id ok ∉ new) :
    new.filterMap Call.receiver = [] := by
  refine List.eq_nil_iff_forall_not_mem.mpr fun d member => ?_
  obtain ⟨fds, id, ok, call⟩ := mem_receivers.mp member
  exact quiet _ fds id ok call

/-- Calls of other kinds keep what was found out. -/
theorem Trials.quiet (trials : Trials cs s)
    (quiet : ∀ dest fds id ok, .sendfds dest fds id ok ∉ new)
    (connections : s.connections ≤ t.connections) (fair : Fair cs t) : Trials (cs ++ new) t := by
  obtain ⟨live, nobody, agrees⟩ := trials.agree
  refine ⟨?_, ⟨live, nobody, fun dest fds id ok member => ?_⟩, fun d tried => ?_, ?_⟩
  · rw [List.filterMap_append, receivers_quiet quiet, List.append_nil]
    exact trials.once
  · rcases List.mem_append.mp member with before | now
    · exact agrees dest fds id ok before
    · exact absurd now (quiet dest fds id ok)
  · obtain ⟨m, past, name⟩ := trials.past d ((tried_quiet quiet).mp tried)
    exact ⟨m, past.trans_le connections, name⟩
  · simpa only [Fair, Untried, tried_quiet quiet] using fair

/-- A receiver that has not been tried is found to be there or not. -/
theorem Trials.tries (trials : Trials cs s) {dest : Option Descriptor}
    {fds : Descriptor × Descriptor} {id : Nat} {ok : Bool}
    (untried : Untried cs s.connections dest) (nobody : ok = true → dest ≠ none)
    (quiet : ∀ dest fds id ok, .sendfds dest fds id ok ∉ new)
    (connections : s.connections = t.connections)
    (fair : Fair (cs ++ .sendfds dest fds id ok :: new) t) :
    Trials (cs ++ .sendfds dest fds id ok :: new) t := by
  obtain ⟨live, none, agrees⟩ := trials.agree
  refine ⟨?_, ⟨Function.update live dest ok, ?_, ?_⟩, fun d tried => ?_, fair⟩
  · rw [List.filterMap_append, List.filterMap_cons, receivers_quiet quiet]
    cases dest with
    | none => simpa [Call.receiver] using trials.once
    | some d =>
      refine List.nodup_append.mpr ⟨trials.once, List.nodup_singleton d, fun x tried y last => ?_⟩
      rw [List.mem_singleton.mp last]
      rintro rfl
      exact (untried x rfl).1 (mem_receivers.mp tried)
  · by_cases same : dest = Option.none
    · subst same
      rw [Function.update_self]
      by_contra there
      exact nobody (by simpa using there) rfl
    · rw [Function.update_of_ne (Ne.symm same), none]
  · intro dest' fds' id' ok' member
    rcases List.mem_append.mp member with before | now
    · by_cases same : dest' = dest
      · subst same
        cases dest' with
        | none =>
          rw [Function.update_self, agrees _ _ _ _ before, none]
          by_contra there
          exact nobody (by simpa using Ne.symm there) rfl
        | some d => exact absurd ⟨fds', id', ok', before⟩ (untried d rfl).1
      · rw [Function.update_of_ne same]
        exact agrees dest' fds' id' ok' before
    · rcases List.mem_cons.mp now with this | later
      · cases this
        rw [Function.update_self]
      · exact absurd later (quiet dest' fds' id' ok')
  · rw [← connections]
    rcases (tried_sendfds quiet).mp tried with before | now
    · exact trials.past d before
    · exact (untried d now).2

/-- A connection that is accepted now has not been tried. -/
theorem Trials.untried (trials : Trials cs s) :
    Untried cs (s.connections + 1) (some (.connection s.connections)) := by
  rintro d ⟨⟩
  refine ⟨fun tried => ?_, s.connections, Nat.lt_succ_self _, rfl⟩
  obtain ⟨m, past, name⟩ := trials.past _ tried
  cases name
  exact Nat.lt_irrefl _ past

/-- More connections are accepted. -/
theorem Untried.later {n n' : Nat} (untried : Untried cs n fd) (grows : n ≤ n') :
    Untried cs n' fd := by
  intro d here
  obtain ⟨never, m, below, name⟩ := untried d here
  exact ⟨never, m, by omega, name⟩

/-- A step tries nobody twice. -/
theorem Trials.step (trials : Trials cs s) (moves : Moves s o t new) : Trials (cs ++ new) t := by
  have fair := trials.fair
  cases moves with
  | drawn here => exact trials.quiet (by simp) le_rfl trivial
  | noPipe1 here => exact trials.quiet (by simp) le_rfl trivial
  | pipe1 here => exact trials.quiet (by simp) le_rfl trivial
  | noPipe2 here => exact trials.quiet (by simp [Matchmaker.error2]) le_rfl trivial
  | pipe2 here => exact trials.quiet (by simp) le_rfl trivial
  | noAccept1 here => exact trials.quiet (by simp) le_rfl fair
  | accept1 here => exact trials.quiet (by simp) (Nat.le_succ _) trials.untried
  | noAccept2 here =>
    simp only [Fair, here] at fair
    exact trials.quiet (by simp) le_rfl ⟨fair, by simp [Untried], by simp⟩
  | accept2 here =>
    simp only [Fair, here] at fair
    refine trials.quiet (by simp) (Nat.le_succ _)
      ⟨fair.later (Nat.le_succ _), trials.untried, fun d first second => ?_⟩
    obtain ⟨-, m, below, name⟩ := fair d first
    rw [name] at second
    cases second
    exact Nat.lt_irrefl _ below
  | gone here =>
    simp only [Fair, here] at fair
    obtain ⟨first, second, differ⟩ := fair
    refine trials.tries first (by simp) (by simp) rfl fun d name => ?_
    obtain ⟨never, made⟩ := second d name
    refine ⟨fun tried => ?_, made⟩
    rcases (tried_sendfds (by simp)).mp tried with before | now
    · exact never before
    · exact differ d now name
  | told here player =>
    simp only [Fair, here] at fair
    obtain ⟨first, second, differ⟩ := fair
    refine trials.tries first (fun _ => player) (by simp) rfl fun d name => ?_
    obtain ⟨never, made⟩ := second d name
    refine ⟨fun tried => ?_, made⟩
    rcases (tried_sendfds (by simp)).mp tried with before | now
    · exact never before
    · exact differ d now name
  | @finished ok here second =>
    simp only [Fair, here] at fair
    exact trials.tries fair second (by simp [Matchmaker.finish, Matchmaker.error2]) rfl trivial

end Trials

/-- In no run somebody is tried twice. -/
theorem Run.trials {os : List Outcome} {cs : List Call} {s : Matchmaker} (run : Run os cs s) :
    Trials cs s := by
  induction run with
  | start =>
    exact ⟨List.nodup_nil, ⟨fun _ => false, rfl, by simp [Agrees]⟩, by simp [Tried], trivial⟩
  | step run steps ih => exact ih.step (runDaemon_moves steps)

/-- The sets of a run are those of the queue. -/
structure FirstCome (os : List Outcome) (cs : List Call) (s : Matchmaker) : Prop where
  /-- No connection is tried twice. -/
  once : (cs.filterMap Call.receiver).Nodup
  /-- Whether a set can be sent is a matter of its receiver. -/
  agree : ∃ live, Agrees live cs
  /-- The queue hands out to those who came what the daemon has sent. -/
  handed : ∀ live, Agrees live cs → s.point ≠ .sendfds1 → s.point ≠ .sendfds2 →
    Handed live (arrivals Daemon.start os) (deliveries cs)
  /-- If all are there, they are served in order, but for the last of an odd number. -/
  everyone : ∀ live, Agrees live cs → s.point ≠ .sendfds1 → s.point ≠ .sendfds2 →
    (∀ a ∈ arrivals Daemon.start os, live a = true) → (deliveries cs).map Delivery.dest =
      (arrivals Daemon.start os).take ((arrivals Daemon.start os).length / 2 * 2)

/-- The daemon is the queue in every run, whenever it is at a call other than `sendfds`. -/
theorem Run.queue {os : List Outcome} {cs : List Call} {s : Matchmaker} (run : Run os cs s) :
    FirstCome os cs s := by
  obtain ⟨live, -, agrees⟩ := run.trials.agree
  have handed : ∀ live, Agrees live cs → s.point ≠ .sendfds1 → s.point ≠ .sendfds2 →
      Handed live (arrivals Daemon.start os) (deliveries cs) := by
    intro live agrees first second
    have lined := run.lined agrees
    unfold Lined at lined
    cases here : s.point <;> simp only [here] at lined first second
    case accept2 =>
      obtain ⟨served, same, dealt⟩ := lined
      rw [same]
      exact dealt.waits s.p1fd
    case sendfds1 => exact absurd rfl first
    case sendfds2 => exact absurd rfl second
    all_goals exact lined.handed
  exact ⟨run.trials.once, ⟨live, agrees⟩, handed, fun live agrees first second =>
    (handed live agrees first second).everyone⟩

/-- The queue of a greeting. -/
theorem queue_greeting :
    ∃ cs s, serve start (greeting true) = some (s, cs) ∧ FirstCome (greeting true) cs s := by
  have served : (serve start (greeting true)).isSome := by decide
  obtain ⟨⟨s, cs⟩, served⟩ := Option.isSome_iff_exists.mp served
  exact ⟨cs, s, served, Run.queue (Run.start.serve served)⟩

end Chessh.Daemon
