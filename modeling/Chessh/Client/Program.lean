import Mathlib.Tactic

/-!
# Programs that share a state

A program is a tree of operations that goes on with their answers. Any number of programs take turns
on a shared state; what answers an operation may get, and what it does to the state, is a relation.
`Prog.Does` is what a program does on every path through its tree, whatever the answers;
`Reaches.path` says that the operations of each program form such a path, however the programs take
turns.
-/

namespace Program

/-- An operation with its answer. -/
structure Interaction {Op : Type} (Ans : Op → Type) where
  /-- The operation. -/
  op : Op
  /-- Its answer. -/
  ans : Ans op

/-- A program. -/
inductive Prog {Op : Type} (Ans : Op → Type) (α : Type)
  | ret (a : α)
  | call (op : Op) (next : Ans op → Prog Ans α)

variable {Op : Type} {Ans : Op → Type} {α β ρ σ : Type}

namespace Prog

/-- One program after another. -/
protected def bind : Prog Ans α → (α → Prog Ans β) → Prog Ans β
  | .ret a, f => f a
  | .call op next, f => .call op fun ans => (next ans).bind f

/-- After a result comes what follows. -/
@[simp] theorem ret_bind (a : α) (f : α → Prog Ans β) : (Prog.ret a).bind f = f a := rfl

instance : Monad (Prog Ans) where
  pure := .ret
  bind := Prog.bind

/-- The program of one operation. -/
def ask (op : Op) : Prog Ans (Ans op) := .call op .ret

/-- A program goes on as another after the events. -/
inductive Path : Prog Ans α → List (Interaction Ans) → Prog Ans α → Prop
  | nil (p : Prog Ans α) : Path p [] p
  | cons {op : Op} {next : Ans op → Prog Ans α} {ans : Ans op} {es : List (Interaction Ans)}
      {q : Prog Ans α} (path : Path (next ans) es q) : Path (.call op next) (⟨op, ans⟩ :: es) q

/-- One event more. -/
theorem Path.snoc {p : Prog Ans α} {es : List (Interaction Ans)} {op : Op}
    {next : Ans op → Prog Ans α}
    (path : Path p es (.call op next)) (ans : Ans op) : Path p (es ++ [⟨op, ans⟩]) (next ans) := by
  generalize same : Prog.call op next = q at path
  induction path with
  | nil p =>
    subst same
    exact .cons (.nil _)
  | cons path ih => exact .cons (ih same)

/-- On every path all events satisfy `P`, and the events and the result of a path to the end
satisfy `Q`. -/
def Does (P : Interaction Ans → Prop) : Prog Ans α → (List (Interaction Ans) → α → Prop) → Prop
  | .ret a, Q => Q [] a
  | .call op next, Q =>
    ∀ ans, P ⟨op, ans⟩ ∧ Does P (next ans) fun es a => Q (⟨op, ans⟩ :: es) a

section Rules

variable {P : Interaction Ans → Prop} {Q : List (Interaction Ans) → α → Prop}
  {R : List (Interaction Ans) → β → Prop} {p : Prog Ans α} {f : α → Prog Ans β}

/-- The rule of a result. -/
@[simp] theorem does_pure (a : α) : Does P (pure a : Prog Ans α) Q ↔ Q [] a := Iff.rfl

/-- The rule of an operation. -/
@[simp] theorem does_ask {op : Op} {Q : List (Interaction Ans) → Ans op → Prop} :
    Does P (ask op) Q ↔ ∀ ans, P ⟨op, ans⟩ ∧ Q [⟨op, ans⟩] ans := Iff.rfl

/-- The rule of a sequence. -/
theorem does_bind :
    Does P (p >>= f) R ↔ Does P p fun es a => Does P (f a) fun more b => R (es ++ more) b := by
  induction p generalizing R with
  | ret a => exact Iff.rfl
  | call op next ih => exact forall_congr' fun ans => and_congr_right fun _ => ih ans

/-- The rule of consequence. -/
theorem Does.mono {Q' : List (Interaction Ans) → α → Prop} (does : Does P p Q)
    (weaker : ∀ es a, Q es a → Q' es a) : Does P p Q' := by
  induction p generalizing Q Q' with
  | ret a => exact weaker [] a does
  | call op next ih =>
    exact fun ans => ⟨(does ans).1, ih ans (does ans).2 fun es a => weaker (⟨op, ans⟩ :: es) a⟩

/-- What is left after the events of a path. -/
theorem Does.path {es : List (Interaction Ans)} {q : Prog Ans α} (does : Does P p Q)
    (path : Path p es q) : (∀ e ∈ es, P e) ∧ Does P q fun more a => Q (es ++ more) a := by
  induction path generalizing Q with
  | nil p => exact ⟨fun e member => absurd member List.not_mem_nil, does⟩
  | cons path ih =>
    obtain ⟨first, rest⟩ := does _
    obtain ⟨events, left⟩ := ih rest
    exact ⟨List.forall_mem_cons.mpr ⟨first, events⟩, left⟩

/-- The events and the result of a path to the end. -/
theorem Does.final {es : List (Interaction Ans)} {a : α} (does : Does P p Q)
    (path : Path p es (.ret a)) : Q es a := by
  have here : Q (es ++ []) a := (does.path path).2
  rwa [List.append_nil] at here

end Rules

/-- As long as its events satisfy `P`, the program makes at most `n` operations, and only such that
are fit. -/
def Ends (Fit : Op → Prop) (P : Interaction Ans → Prop) : Nat → Prog Ans α → Prop
  | _, .ret _ => True
  | 0, .call _ _ => False
  | n + 1, .call op next => Fit op ∧ ∀ ans, P ⟨op, ans⟩ → Ends Fit P n (next ans)

section Ends

variable {Fit : Op → Prop} {P : Interaction Ans → Prop} {m n : Nat} {p q : Prog Ans α}

/-- A result takes no operation. -/
theorem ends_pure (a : α) : Ends Fit P 0 (pure a : Prog Ans α) := trivial

/-- More operations are allowed. -/
theorem Ends.mono (ends : Ends Fit P m p) (more : m ≤ n) : Ends Fit P n p := by
  induction p generalizing m n with
  | ret a => simp only [Ends]
  | call op next ih =>
    cases m with
    | zero => exact False.elim ends
    | succ m =>
      obtain ⟨n, rfl⟩ : ∃ k, n = k + 1 := ⟨n - 1, by omega⟩
      exact ⟨ends.1, fun ans holds => ih ans (ends.2 ans holds) (by omega)⟩

/-- One program after another. -/
theorem Ends.bind {f : α → Prog Ans β} (first : Ends Fit P m p) (second : ∀ a, Ends Fit P n (f a)) :
    Ends Fit P (m + n) (p >>= f) := by
  induction p generalizing m with
  | ret a => exact (second a).mono (Nat.le_add_left n m)
  | call op next ih =>
    cases m with
    | zero => exact False.elim first
    | succ m =>
      rw [Nat.add_right_comm]
      exact ⟨first.1, fun ans holds => ih ans (first.2 ans holds)⟩

/-- What is left after the events of a path. -/
theorem Ends.path {es : List (Interaction Ans)} (ends : Ends Fit P n p) (path : Path p es q)
    (events : ∀ e ∈ es, P e) : ∃ left, es.length + left = n ∧ Ends Fit P left q := by
  induction path generalizing n with
  | nil p => exact ⟨n, Nat.zero_add n, ends⟩
  | cons path ih =>
    cases n with
    | zero => exact False.elim ends
    | succ n =>
      obtain ⟨first, later⟩ := List.forall_mem_cons.mp events
      obtain ⟨left, total, rest⟩ := ih (ends.2 _ first) later
      exact ⟨left, by rw [List.length_cons]; omega, rest⟩

end Ends

end Prog

/-! ## Taking turns -/

/-- The shared state, the programs with what is left of them, and the events in order. -/
structure World (Ans : Op → Type) (ρ α σ : Type) where
  /-- The shared state. -/
  shared : σ
  /-- Every caller with the rest of its program. -/
  callers : List (ρ × Prog Ans α)
  /-- Every event with its caller. -/
  history : List (Nat × Interaction Ans)

section Turns

variable (serves : σ → Interaction Ans → σ → Prop) (code : ρ → Prog Ans α)

/-- A new caller, or one operation of a caller. -/
inductive Step : World Ans ρ α σ → World Ans ρ α σ → Prop
  | enter (w : World Ans ρ α σ) (r : ρ) : Step w { w with callers := w.callers ++ [(r, code r)] }
  | act (w : World Ans ρ α σ) (i : Nat) (r : ρ) (op : Op) (next : Ans op → Prog Ans α)
      (ans : Ans op) (after : σ) (turn : w.callers[i]? = some (r, .call op next))
      (served : serves w.shared ⟨op, ans⟩ after) :
      Step w ⟨after, w.callers.set i (r, next ans), w.history ++ [(i, ⟨op, ans⟩)]⟩

/-- Any number of steps. -/
abbrev Reaches : World Ans ρ α σ → World Ans ρ α σ → Prop :=
  Relation.ReflTransGen (Step serves code)

/-- The shared state after events. -/
inductive Served (init : σ) : List (Interaction Ans) → σ → Prop
  | nil : Served init [] init
  | snoc {es : List (Interaction Ans)} {e : Interaction Ans} {s t : σ} (served : Served init es s)
      (serve : serves s e t) : Served init (es ++ [e]) t

end Turns

/-- Nobody has called yet. -/
def World.start (init : σ) : World Ans ρ α σ := ⟨init, [], []⟩

/-- The events of one caller. -/
def World.own (w : World Ans ρ α σ) (i : Nat) : List (Interaction Ans) :=
  w.history.filterMap fun entry => if entry.1 = i then some entry.2 else none

section Reached

variable {serves : σ → Interaction Ans → σ → Prop} {code : ρ → Prog Ans α} {init : σ}
  {w : World Ans ρ α σ} {i : Nat} {r : ρ} {p : Prog Ans α} {e : Interaction Ans}

/-- The events of a caller are those of the history. -/
theorem World.mem_own : e ∈ w.own i ↔ (i, e) ∈ w.history := by
  unfold World.own
  rw [List.mem_filterMap]
  constructor
  · rintro ⟨entry, member, own⟩
    split at own
    · rename_i mine
      cases own
      rw [← mine]
      exact member
    · cases own
  · exact fun member => ⟨(i, e), member, if_pos rfl⟩

/-- Every event has a caller. -/
theorem Reaches.caller (reached : Reaches serves code (World.start init) w)
    (member : (i, e) ∈ w.history) : i < w.callers.length := by
  induction reached with
  | refl => exact absurd member List.not_mem_nil
  | tail reached step ih =>
    cases step with
    | enter r =>
      rw [List.length_append]
      exact Nat.lt_add_right _ (ih member)
    | act j r op next ans after turn served =>
      rw [List.length_set]
      rcases List.mem_append.mp member with before | now
      · exact ih before
      · cases List.mem_singleton.mp now
        exact (List.getElem?_eq_some_iff.mp turn).1

/-- A caller who has not entered has no events. -/
theorem Reaches.own_nil (reached : Reaches serves code (World.start init) w)
    (absent : w.callers.length ≤ i) : w.own i = [] := by
  refine List.eq_nil_iff_forall_not_mem.mpr fun e member => ?_
  have entered := Reaches.caller reached (World.mem_own.mp member)
  omega

/-- The events of the caller whose turn it is. -/
theorem World.own_same {after : σ} {callers : List (ρ × Prog Ans α)} :
    (⟨after, callers, w.history ++ [(i, e)]⟩ : World Ans ρ α σ).own i = w.own i ++ [e] := by
  simp [World.own]

/-- The events of the others. -/
theorem World.own_other {after : σ} {callers : List (ρ × Prog Ans α)} {j : Nat} (other : j ≠ i) :
    (⟨after, callers, w.history ++ [(j, e)]⟩ : World Ans ρ α σ).own i = w.own i := by
  simp [World.own, other]

/-- The events of a caller are a path through its program. -/
theorem Reaches.path (reached : Reaches serves code (World.start init) w)
    (calls : w.callers[i]? = some (r, p)) : Prog.Path (code r) (w.own i) p := by
  induction reached generalizing p with
  | refl => cases calls
  | @tail w v reached step ih =>
    cases step with
    | enter r' =>
      dsimp only at calls
      rcases Nat.lt_or_ge i w.callers.length with before | now
      · rw [List.getElem?_append_left before] at calls
        exact ih calls
      · rw [List.getElem?_append_right now] at calls
        rw [List.getElem?_singleton] at calls
        split at calls
        · cases calls
          have none : w.own i = [] := Reaches.own_nil reached now
          change Prog.Path (code r) (w.own i) (code r)
          rw [none]
          exact .nil _
        · cases calls
    | act j r' op next ans after turn served =>
      by_cases mine : j = i
      · subst mine
        rw [World.own_same]
        have inside := (List.getElem?_eq_some_iff.mp turn).1
        rw [List.getElem?_set_self inside] at calls
        cases calls
        exact (ih turn).snoc ans
      · rw [World.own_other mine]
        rw [List.getElem?_set_ne mine] at calls
        exact ih calls

/-- The shared state is what the events make of it. -/
theorem Reaches.served (reached : Reaches serves code (World.start init) w) :
    Served serves init (w.history.map Prod.snd) w.shared := by
  induction reached with
  | refl => exact .nil
  | tail reached step ih =>
    cases step with
    | enter r => exact ih
    | act j r op next ans after turn served =>
      rw [List.map_append]
      exact ih.snoc served

/-- Events up to one of them, that one, and those after it. -/
theorem Served.split {front back : List (Interaction Ans)} {s : σ}
    (served : Served serves init (front ++ e :: back) s) :
    ∃ before after, Served serves init front before ∧ serves before e after ∧
      Served serves after back s := by
  induction back using List.reverseRecOn generalizing s with
  | nil =>
    generalize same : front ++ [e] = es at served
    cases served with
    | nil => simp at same
    | snoc served serve =>
      obtain ⟨rfl, ends⟩ := List.append_inj' same rfl
      obtain rfl := List.singleton_inj.mp ends
      exact ⟨_, s, served, serve, .nil⟩
  | append_singleton back last ih =>
    generalize same : front ++ e :: (back ++ [last]) = es at served
    cases served with
    | nil => simp at same
    | snoc served serve =>
      rw [← List.cons_append, ← List.append_assoc] at same
      obtain ⟨rfl, ends⟩ := List.append_inj' same rfl
      obtain rfl := List.singleton_inj.mp ends
      obtain ⟨before, after, first, now, rest⟩ := ih served
      exact ⟨before, after, first, now, rest.snoc serve⟩

end Reached

/-! ## One program in place of another -/

/-- The program makes the operations of the other one, and may end before it. `Told` is between its
result and what the other one is then. -/
inductive Prog.Follows (Told : β → Prog Ans α → Prop) : Prog Ans β → Prog Ans α → Prop
  | ret {b : β} {p : Prog Ans α} (told : Told b p) : Follows Told (.ret b) p
  | call {op : Op} {next : Ans op → Prog Ans β} {next' : Ans op → Prog Ans α}
    (each : ∀ ans, Follows Told (next ans) (next' ans)) :
    Follows Told (.call op next) (.call op next')

/-- Three programs one after another. -/
theorem Prog.bind_assoc {γ : Type} (p : Prog Ans α) (f : α → Prog Ans β) (g : β → Prog Ans γ) :
    (p >>= f) >>= g = p >>= fun a => f a >>= g := by
  induction p with
  | ret a => rfl
  | call op next ih => exact congrArg (Prog.call op) (funext ih)

/-- A program whose result is changed follows it. -/
theorem Prog.Follows.of_bind {Told : β → Prog Ans α → Prop} {f : α → β}
    (told : ∀ a, Told (f a) (.ret a)) (p : Prog Ans α) :
    Follows Told (p >>= fun a => pure (f a)) p := by
  induction p with
  | ret a => exact .ret (told a)
  | call op next ih => exact .call ih

section Mirrored

variable {ρ' : Type} {serves : σ → Interaction Ans → σ → Prop} {code : ρ → Prog Ans α}
  {code' : ρ' → Prog Ans β} {init : σ} {Told : ρ' → β → Prog Ans α → Prop} {as : ρ' → ρ}

/-- The same has happened in two worlds, and the callers of the first follow those of the second. -/
structure World.Mirrors (Told : ρ' → β → Prog Ans α → Prop) (as : ρ' → ρ) (w' : World Ans ρ' β σ)
    (w : World Ans ρ α σ) : Prop where
  shared : w'.shared = w.shared
  history : w'.history = w.history
  count : w'.callers.length = w.callers.length
  callers : ∀ (i : Nat) (r : ρ') (p : Prog Ans β), w'.callers[i]? = some (r, p) →
    ∃ q, w.callers[i]? = some (as r, q) ∧ Prog.Follows (Told r) p q

/-- A caller enters both worlds. -/
theorem World.Mirrors.enter {w' : World Ans ρ' β σ} {w : World Ans ρ α σ}
    (mirrors : World.Mirrors Told as w' w) {r : ρ'}
    (follows : Prog.Follows (Told r) (code' r) (code (as r))) :
    World.Mirrors Told as { w' with callers := w'.callers ++ [(r, code' r)] }
      { w with callers := w.callers ++ [(as r, code (as r))] } where
  shared := mirrors.shared
  history := mirrors.history
  count := by simp [mirrors.count]
  callers i r' p calls := by
    dsimp only at calls ⊢
    rcases Nat.lt_or_ge i w'.callers.length with before | now
    · rw [List.getElem?_append_left before] at calls
      rw [List.getElem?_append_left (mirrors.count ▸ before)]
      exact mirrors.callers i r' p calls
    · rw [List.getElem?_append_right now] at calls
      rw [List.getElem?_append_right (mirrors.count ▸ now), ← mirrors.count]
      rw [List.getElem?_singleton] at calls ⊢
      split at calls
      · rename_i first
        cases calls
        exact ⟨code (as r), if_pos first, follows⟩
      · cases calls

/-- A caller has an answer in both worlds. -/
theorem World.Mirrors.act {w' : World Ans ρ' β σ} {w : World Ans ρ α σ}
    (mirrors : World.Mirrors Told as w' w) {i : Nat} {r : ρ'} {op : Op} {next : Ans op → Prog Ans β}
    {next' : Ans op → Prog Ans α} {ans : Ans op} {after : σ}
    (turn : w.callers[i]? = some (as r, .call op next'))
    (each : Prog.Follows (Told r) (next ans) (next' ans)) :
    World.Mirrors Told as
      ⟨after, w'.callers.set i (r, next ans), w'.history ++ [(i, ⟨op, ans⟩)]⟩
      ⟨after, w.callers.set i (as r, next' ans), w.history ++ [(i, ⟨op, ans⟩)]⟩ where
  shared := rfl
  history := by rw [mirrors.history]
  count := by simp [mirrors.count]
  callers j r' p calls := by
    dsimp only at calls ⊢
    have inside := (List.getElem?_eq_some_iff.mp turn).1
    by_cases mine : i = j
    · subst mine
      rw [List.getElem?_set_self (mirrors.count.symm ▸ inside)] at calls
      cases calls
      exact ⟨next' ans, List.getElem?_set_self inside, each⟩
    · rw [List.getElem?_set_ne mine] at calls ⊢
      exact mirrors.callers j r' p calls

/-- What programs do that follow others, the others can do as well. -/
theorem Reaches.mirroring (follows : ∀ r, Prog.Follows (Told r) (code' r) (code (as r)))
    {w' : World Ans ρ' β σ} (reached : Reaches serves code' (World.start init) w') :
    ∃ w, Reaches serves code (World.start init) w ∧ World.Mirrors Told as w' w := by
  induction reached with
  | refl => exact ⟨World.start init, .refl, ⟨rfl, rfl, rfl, fun i r p calls => by cases calls⟩⟩
  | tail reached step ih =>
    obtain ⟨w, here, mirrors⟩ := ih
    cases step with
    | enter r => exact ⟨_, here.tail (.enter w (as r)), mirrors.enter (follows r)⟩
    | act i r op next ans after turn served =>
      obtain ⟨q, calls, following⟩ := mirrors.callers i r _ turn
      cases following with
      | call each =>
        rw [mirrors.shared] at served
        exact ⟨_, here.tail (.act w i (as r) op _ ans after calls served),
          mirrors.act calls (each ans)⟩

end Mirrored

/-! ## Executions -/

section Executed

variable {serves : σ → Interaction Ans → σ → Prop} {code : ρ → Prog Ans α}

/-- At most `fuel` turns of one caller. -/
def World.alone (answers : σ → (op : Op) → Option (Ans op × σ)) (i : Nat) :
    Nat → World Ans ρ α σ → World Ans ρ α σ
  | 0, w => w
  | fuel + 1, w =>
    match w.callers[i]? with
    | some (r, .call op next) =>
      match answers w.shared op with
      | some (ans, after) =>
        World.alone answers i fuel ⟨after, w.callers.set i (r, next ans),
          w.history ++ [(i, ⟨op, ans⟩)]⟩
      | none => w
    | some (_, .ret _) | none => w

/-- Callers that enter one by one, each with so many turns. -/
def World.inTurn (answers : σ → (op : Op) → Option (Ans op × σ)) (code : ρ → Prog Ans α)
    (fuel : Nat) :
    List ρ → World Ans ρ α σ → World Ans ρ α σ
  | [], w => w
  | r :: rest, w =>
    World.inTurn answers code fuel rest
      (World.alone answers w.callers.length fuel { w with callers := w.callers ++ [(r, code r)] })

variable {answers : σ → (op : Op) → Option (Ans op × σ)}

/-- The turns of one caller are steps. -/
theorem Reaches.alone
    (sound : ∀ s op ans after, answers s op = some (ans, after) → serves s ⟨op, ans⟩ after)
    (i fuel : Nat) (w : World Ans ρ α σ) : Reaches serves code w (w.alone answers i fuel) := by
  induction fuel generalizing w with
  | zero => exact .refl
  | succ fuel ih =>
    unfold World.alone
    split
    · rename_i r op next turn
      split
      · rename_i ans after answered
        exact .head (.act w i r op next ans after turn (sound _ _ _ _ answered)) (ih _)
      · exact .refl
    · exact .refl
    · exact .refl

/-- Callers that enter one by one make steps. -/
theorem Reaches.inTurn
    (sound : ∀ s op ans after, answers s op = some (ans, after) → serves s ⟨op, ans⟩ after)
    (fuel : Nat) (rs : List ρ) (w : World Ans ρ α σ) :
    Reaches serves code w (w.inTurn answers code fuel rs) := by
  induction rs generalizing w with
  | nil => exact .refl
  | cons r rest ih =>
    exact .head (.enter w r) ((Reaches.alone sound w.callers.length fuel _).trans (ih _))

end Executed

end Program
