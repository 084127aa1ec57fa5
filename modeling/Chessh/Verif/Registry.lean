import Chessh.Verif.Users

/-!
# All calls of the user store

The database under any number of calls of `register_user` and `user_is_valid` that take turns. Of
`crypt` two things are assumed: it does not fail, and with a hash in the place of the salt it takes
the salt of the hash. `Hashes` names the salts and the passwords for which they are needed.
-/

namespace Chessh.Users

open Program Program.Prog Wire

variable {crypt : CString → CString → Option CString}

/-! ## The database -/

section Database

variable {s t : Store} {e : Interaction Op.Answer} {es front back : List (Interaction Op.Answer)}
  {key : List UInt8} {value value' : ChesshUser}

/-- No event changes a record. -/
theorem Serves.kept (serves : Serves s e t) (stored : s key = some value) : t key = some value := by
  cases serves with
  | @inserted key' value' absent =>
    have other : key ≠ key' := by
      rintro rfl
      rw [absent] at stored
      cases stored
    rw [Function.update_of_ne other]
    exact stored
  | random | write | taken | unwritten | found | notFound | unread => exact stored

/-- A record is new only when it is inserted. -/
theorem Serves.new (serves : Serves s e t) (stored : t key = some value) :
    s key = some value ∨ e = ⟨.put key value, (none : Option DbError)⟩ := by
  cases serves with
  | @inserted key' value' absent =>
    by_cases same : key = key'
    · subst same
      rw [Function.update_self] at stored
      cases stored
      exact Or.inr rfl
    · rw [Function.update_of_ne same] at stored
      exact Or.inl stored
  | random | write | taken | unwritten | found | notFound | unread => exact Or.inl stored

/-- No events change a record. -/
theorem served_kept (served : Served Serves s es t) (stored : s key = some value) :
    t key = some value := by
  induction served with
  | nil => exact stored
  | snoc served serve ih => exact serve.kept ih

/-- Every record was there before or was inserted. -/
theorem served_new (served : Served Serves s es t) (stored : t key = some value) :
    s key = some value ∨ ⟨.put key value, (none : Option DbError)⟩ ∈ es := by
  induction served with
  | nil => exact Or.inl stored
  | snoc served serve ih =>
    rcases serve.new stored with before | rfl
    · exact (ih before).imp_right (List.mem_append_left _)
    · exact Or.inr (by simp)

/-- A record is inserted where there is none, and stays. -/
theorem served_put
    (served : Served Serves s (front ++ ⟨.put key value, (none : Option DbError)⟩ :: back) t) :
    (∃ before, Served Serves s front before ∧ before key = none) ∧ t key = some value := by
  obtain ⟨before, after, first, serve, rest⟩ := served.split
  cases serve with
  | inserted absent => exact ⟨⟨before, first, absent⟩, served_kept rest (Function.update_self ..)⟩

/-- No record is inserted after another of the same name. -/
theorem served_put_once
    (served : Served Serves s (front ++ ⟨.put key value, (none : Option DbError)⟩ :: back) t) :
    ⟨.put key value', (none : Option DbError)⟩ ∉ front := by
  intro earlier
  obtain ⟨first, second, rfl⟩ := List.append_of_mem earlier
  obtain ⟨⟨before, served', absent⟩, -⟩ := served_put served
  rw [(served_put served').2] at absent
  cases absent

/-- A record that is returned is stored. -/
theorem served_get
    (served : Served Serves s
      (front ++ ⟨.get key, (.ok value : Except DbError ChesshUser)⟩ :: back) t) :
    ∃ before, Served Serves s front before ∧ before key = some value := by
  obtain ⟨before, after, first, serve, -⟩ := served.split
  cases serve with
  | found present => exact ⟨before, first, present⟩

end Database

/-! ## The calls -/

/-- What a call of `user_is_valid` makes of the answer of the database. A record that is returned
was put by a call of `register_user` before, and its hash decides. -/
def Answered (crypt : CString → CString → Option CString) (w : Calls) (user pass : CString)
    (front : List (Nat × Interaction Op.Answer)) (result : Int) : Except DbError ChesshUser → Prop
  | .error _ => result = 0
  | .ok _ => ∃ j pass' rest salt hash, w.callers[j]? = some (.register user pass', rest) ∧
      (j, ⟨.put user.val (newUser user hash), (none : Option DbError)⟩) ∈ front ∧ Drawn salt ∧
      crypt pass' salt = some hash ∧ (result ≠ 0 ↔ crypt pass salt = some hash)

/-- The passwords of all calls are such. -/
def Calls.All (Password : CString → Prop) (w : Calls) : Prop :=
  ∀ (i : Nat) (request : Request) (rest : Program Int), w.callers[i]? = some (request, rest) →
    Password request.password

/-- What holds of the database and the calls at any time. -/
structure Kept (crypt : CString → CString → Option CString) (w : Calls) : Prop where
  /-- No user is registered twice. -/
  once : ∀ i j user pass pass', Returned w i (.register user pass) 0 →
    Returned w j (.register user pass') 0 → i = j
  /-- The record of a registered user never changes. -/
  fixed : ∀ i user pass, Returned w i (.register user pass) 0 → ∃ salt hash,
    crypt pass salt = some hash ∧
      ∀ w', Reaches crypt w w' → w'.shared user.val = some (newUser user hash)
  /-- A user is valid exactly when the password is that of an earlier registration, provided that
  the database returns the record. -/
  validated : ∀ i user pass result, Returned w i (.validate user pass) result →
    ∃ answer front back, w.history = front ++ (i, ⟨.get user.val, answer⟩) :: back ∧
      Answered crypt w user pass front result answer
  /-- No reserved or long name has a record, and every record holds its name. -/
  names : ∀ key value, w.shared key = some value →
    key.length ≤ 255 ∧ key.head? ≠ some 95 ∧ value.name.val = key
  /-- Every call writes one reply, which tells its result. -/
  replied : ∀ i request result, Returned w i request result →
    Replied (w.own i) request.success request.failure (request.Succeeds result)
  /-- Every call that has not returned goes on, and for no more than 25 operations in all. -/
  ends : ∀ i request p, w.callers[i]? = some (request, p) → (w.own i).length ≤ 25 ∧
    ∀ op next, p = .call op next → ∃ ans after, Serves w.shared ⟨op, ans⟩ after

section Calls

variable {w w' : Calls} {i : Nat} {request : Request} {result : Int} {e : Interaction Op.Answer}

/-- What a call that has returned did. -/
theorem Returned.done (returned : Returned w i request result)
    (reached : Reaches crypt Calls.start w) : Done crypt request (w.own i) result :=
  (program_does request).final (Program.Reaches.path reached returned)

/-- An event of the history is one its call may have. -/
theorem Reaches.allowed (reached : Reaches crypt Calls.start w) (member : (i, e) ∈ w.history) :
    ∃ request rest, w.callers[i]? = some (request, rest) ∧ Allowed crypt request e := by
  have inside := Program.Reaches.caller reached member
  obtain ⟨⟨request, rest⟩, entered⟩ : ∃ caller, w.callers[i]? = some caller :=
    ⟨_, List.getElem?_eq_getElem inside⟩
  have path := Program.Reaches.path reached entered
  exact ⟨request, rest, entered, ((program_does request).path path).1 e (World.mem_own.mpr member)⟩

/-- A put is one of a registration. -/
theorem Reaches.registration {key : List UInt8} {value : ChesshUser} {answer : Option DbError}
    (reached : Reaches crypt Calls.start w) (member : (i, ⟨.put key value, answer⟩) ∈ w.history) :
    ∃ user pass rest, w.callers[i]? = some (.register user pass, rest) ∧
      Registration crypt user pass key value := by
  obtain ⟨request, rest, entered, allowed⟩ := reached.allowed member
  cases request with
  | register user pass => exact ⟨user, pass, rest, entered, allowed key value rfl⟩
  | validate user pass => exact absurd rfl (allowed key value)

/-- No step changes a record. -/
theorem Reaches.kept {key : List UInt8} {value : ChesshUser} (later : Reaches crypt w w')
    (stored : w.shared key = some value) : w'.shared key = some value := by
  induction later with
  | refl => exact stored
  | tail later step ih =>
    cases step with
    | enter => exact ih
    | act _ _ _ _ _ _ _ served => exact served.kept ih

/-- What a call asked and got, among the events before and after. -/
theorem Reaches.moment (reached : Reaches crypt Calls.start w) (member : (i, e) ∈ w.history) :
    ∃ front back, w.history = front ++ (i, e) :: back ∧
      Served Serves (fun _ => none) (front.map Prod.snd ++ e :: back.map Prod.snd) w.shared := by
  obtain ⟨front, back, split⟩ := List.append_of_mem member
  have served := Program.Reaches.served reached
  rw [split, List.map_append, List.map_cons] at served
  exact ⟨front, back, split, served⟩

/-- Two registrations of one name are one. -/
theorem Reaches.put_once {j : Nat} {key : List UInt8} {value value' : ChesshUser}
    (reached : Reaches crypt Calls.start w)
    (first : (i, ⟨.put key value, (none : Option DbError)⟩) ∈ w.history)
    (second : (j, ⟨.put key value', (none : Option DbError)⟩) ∈ w.history) : i = j := by
  obtain ⟨front, back, split, served⟩ := reached.moment first
  have others := second
  rw [split] at others
  rcases List.mem_append.mp others with earlier | rest
  · exact absurd (List.mem_map_of_mem earlier) (served_put_once served)
  rcases List.mem_cons.mp rest with same | later
  · cases same
    rfl
  · obtain ⟨middle, last, rfl⟩ := List.append_of_mem later
    rw [List.map_append, List.map_cons, ← List.cons_append, ← List.append_assoc] at served
    have never := @served_put_once _ _ _ _ _ _ value served
    exact absurd (List.mem_append_right _ List.mem_cons_self) never

/-- The hash of a registration is read back. -/
theorem Registration.hash {user pass : CString} {key : List UInt8} {value : ChesshUser}
    (registration : Registration crypt user pass key value) :
    ∃ salt hash, Drawn salt ∧ crypt pass salt = some hash ∧ value = newUser user hash ∧
      value.hash = hash := by
  obtain ⟨salt, hash, drawn, hashed, fits, rfl⟩ := registration.record
  exact ⟨salt, hash, drawn, hashed, rfl, cString_copied (by omega)⟩

/-- A record that is stored comes from a registration. -/
theorem Reaches.registered {key : List UInt8} {value : ChesshUser}
    (reached : Reaches crypt Calls.start w) {entries : List (Nat × Interaction Op.Answer)}
    {s : Store} (past : ∀ entry ∈ entries, entry ∈ w.history)
    (served : Served Serves (fun _ => none) (entries.map Prod.snd) s)
    (stored : s key = some value) :
    ∃ j user pass rest, (j, ⟨.put key value, (none : Option DbError)⟩) ∈ entries ∧
      w.callers[j]? = some (.register user pass, rest) ∧
        Registration crypt user pass key value := by
  rcases served_new served stored with before | inserted
  · cases before
  · obtain ⟨entry, member, event⟩ := List.mem_map.mp inserted
    obtain ⟨j, e⟩ := entry
    dsimp only at event
    subst event
    obtain ⟨user, pass, rest, entered, registration⟩ := reached.registration (past _ member)
    exact ⟨j, user, pass, rest, member, entered, registration⟩

/-- The put of a call that has registered its user. -/
theorem Returned.registered {user pass : CString} (returned : Returned w i (.register user pass) 0)
    (reached : Reaches crypt Calls.start w) :
    ∃ value, (i, ⟨.put user.val value, (none : Option DbError)⟩) ∈ w.history ∧
      Registration crypt user pass user.val value := by
  obtain ⟨value, member⟩ := (returned.done reached).2 rfl
  have entry := World.mem_own.mp member
  obtain ⟨user', pass', rest, entered, registration⟩ := reached.registration entry
  cases Option.some.inj (returned.symm.trans entered)
  exact ⟨value, entry, registration⟩

/-- A record that is returned was put before, by a call that registers the name. -/
theorem Reaches.recorded {key : List UInt8} {value : ChesshUser}
    (reached : Reaches crypt Calls.start w)
    {front back : List (Nat × Interaction Op.Answer)}
    (split : w.history = front ++ (i, ⟨.get key, (.ok value : Except DbError ChesshUser)⟩) :: back)
    (served : Served Serves (fun _ => none)
      (front.map Prod.snd ++ ⟨.get key, (.ok value : Except DbError ChesshUser)⟩ ::
        back.map Prod.snd) w.shared) :
    ∃ j user pass rest salt hash, w.callers[j]? = some (.register user pass, rest) ∧
      (j, ⟨.put key value, (none : Option DbError)⟩) ∈ front ∧ key = user.val ∧
      value = newUser user hash ∧ value.hash = hash ∧ Drawn salt ∧ crypt pass salt = some hash := by
  obtain ⟨before, first, stored⟩ := served_get served
  have past : ∀ entry ∈ front, entry ∈ w.history := by
    intro entry member
    rw [split]
    exact List.mem_append_left _ member
  obtain ⟨j, user, pass, rest, put, entered, registration⟩ := reached.registered past first stored
  obtain ⟨salt, hash, drawn, hashed, same, whole⟩ := registration.hash
  exact ⟨j, user, pass, rest, salt, hash, entered, put, registration.key, same, whole,
    drawn, hashed⟩

section Hashed

variable {Password : CString → Prop} (hashes : Hashes crypt Password) (all : w.All Password)
include hashes all

/-- What a call that has judged a password found in the database. -/
theorem Returned.answered {user pass : CString}
    (returned : Returned w i (.validate user pass) result) (reached : Reaches crypt Calls.start w) :
    ∃ answer front back, w.history = front ++ (i, ⟨.get user.val, answer⟩) :: back ∧
      Answered crypt w user pass front result answer := by
  obtain ⟨-, answer, asked, failed, judged⟩ := returned.done reached
  obtain ⟨front, back, split, served⟩ := reached.moment (World.mem_own.mp asked)
  refine ⟨answer, front, back, split, ?_⟩
  cases answer with
  | error code => exact failed code asked
  | ok value =>
    obtain ⟨j, user', pass', rest, salt, hash, entered, put, key, rfl, whole, drawn, hashed⟩ :=
      reached.recorded split served
    obtain rfl := Subtype.ext key
    have absorbed := hashes.absorbs pass pass' salt hash (all i _ _ returned) (all j _ _ entered)
      drawn hashed
    refine ⟨j, pass', rest, salt, hash, entered, put, drawn, hashed, ?_⟩
    rw [← absorbed, judged _ asked, whole]

/-- A call can hash its password with every record that is returned to it. -/
theorem Reaches.hashable (reached : Reaches crypt Calls.start w) {p : Program Int}
    (entered : w.callers[i]? = some (request, p)) : ∀ e ∈ w.own i, Hashable crypt request e := by
  rintro e asked key value rfl
  obtain ⟨front, back, split, served⟩ := reached.moment (World.mem_own.mp asked)
  obtain ⟨j, user, pass, rest, salt, hash, entered', -, -, -, rfl, drawn, hashed⟩ :=
    reached.recorded split served
  rw [hashes.absorbs _ pass salt _ (all i _ _ entered) (all j _ _ entered') drawn hashed]
  exact hashes.total _ salt (all i _ _ entered) drawn

/-- A call is through after 25 operations, and the next one of them is defined. -/
theorem Reaches.within (reached : Reaches crypt Calls.start w) {p : Program Int}
    (entered : w.callers[i]? = some (request, p)) :
    (w.own i).length ≤ 25 ∧ ∀ op next, p = .call op next → Defined op := by
  obtain ⟨left, count, ends⟩ := (program_ends request).path (Program.Reaches.path reached entered)
    (Reaches.hashable hashes all reached entered)
  refine ⟨by omega, ?_⟩
  rintro op next rfl
  cases left with
  | zero => exact False.elim ends
  | succ left => exact ends.1

end Hashed

/-- What a record in the database is like. -/
theorem Reaches.named {key : List UInt8} {value : ChesshUser}
    (reached : Reaches crypt Calls.start w) (stored : w.shared key = some value) :
    key.length ≤ 255 ∧ key.head? ≠ some 95 ∧ value.name.val = key := by
  obtain ⟨j, user, pass, rest, -, -, registration⟩ :=
    reached.registered (fun _ member => member) (Program.Reaches.served reached) stored
  obtain ⟨salt, hash, -, -, rfl, -⟩ := registration.hash
  have length := registration.length
  rw [registration.key]
  refine ⟨length, registration.reserved, ?_⟩
  exact congrArg Subtype.val (cString_copied (by omega))

/-- The database answers every operation that is defined. -/
theorem serves_defined {op : Op} (fit : Defined op) (s : Store) :
    ∃ ans after, Serves s ⟨op, ans⟩ after := by
  cases op with
  | random => exact ⟨0, s, .random s 0⟩
  | write bytes => exact ⟨(), s, .write s bytes⟩
  | fault => exact absurd rfl fit
  | put key value =>
    by_cases absent : s key = none
    · exact ⟨none, _, .inserted absent⟩
    · exact ⟨some .keyExist, s, .taken absent⟩
  | get key =>
    cases present : s key with
    | none => exact ⟨.error .notFound, s, .notFound present⟩
    | some value => exact ⟨.ok value, s, .found present⟩

end Calls

/-- However many calls of `register_user` and `user_is_valid` take turns on an empty database, no
user is registered twice, no record changes, passwords are judged by the registration, no reserved
or long name gets a record, and each call writes the one reply that tells its result. -/
theorem Reaches.store_kept (total : ∀ key salt, crypt key salt ≠ none)
    (absorbs : ∀ key key' salt hash, crypt key' salt = some hash → crypt key hash = crypt key salt)
    {w : Calls} (reached : Reaches crypt Calls.start w) : Kept crypt w where
  once i j user pass pass' first second := by
    obtain ⟨value, put, -⟩ := first.registered reached
    obtain ⟨value', put', -⟩ := second.registered reached
    exact reached.put_once put put'
  fixed i user pass returned := by
    obtain ⟨value, put, registration⟩ := returned.registered reached
    obtain ⟨salt, hash, -, hashed, rfl, -⟩ := registration.hash
    obtain ⟨front, back, split, served⟩ := reached.moment put
    exact ⟨salt, hash, hashed, fun w' later => later.kept (served_put served).2⟩
  validated i user pass result returned :=
    Returned.answered (.of_total total absorbs) (fun _ _ _ _ => trivial) returned reached
  names key value stored := reached.named stored
  replied i request result returned := by
    have done := returned.done reached
    cases request with
    | register user pass => exact done.1
    | validate user pass => exact done.1
  ends i request p entered := by
    have within := Reaches.within (.of_total total absorbs) (fun _ _ _ _ => trivial) reached entered
    exact ⟨within.1, fun op next same => serves_defined (within.2 op next same) w.shared⟩

/-! ## One execution -/

/-- An answer of the database to an operation, where random numbers are nought. -/
def answer (s : Store) : (op : Op) → Option (op.Answer × Store)
  | .random => some (0, s)
  | .write _ => some ((), s)
  | .fault => none
  | .put key value =>
    match s key with
    | none => some (none, Function.update s key (some value))
    | some _ => some (some .keyExist, s)
  | .get key =>
    match s key with
    | none => some (.error .notFound, s)
    | some value => some (.ok value, s)

/-- The database may answer so. -/
theorem serves_answer {s after : Store} {op : Op} {ans : op.Answer}
    (answers : answer s op = some (ans, after)) : Serves s ⟨op, ans⟩ after := by
  cases op with
  | random =>
    cases answers
    exact .random s 0
  | write bytes =>
    cases answers
    exact .write s bytes
  | fault => cases answers
  | put key value =>
    cases present : s key with
    | none =>
      simp only [answer, present, Option.some.injEq, Prod.mk.injEq] at answers
      obtain ⟨rfl, rfl⟩ := answers
      exact .inserted present
    | some old =>
      simp only [answer, present, Option.some.injEq, Prod.mk.injEq] at answers
      obtain ⟨rfl, rfl⟩ := answers
      exact .taken (by rw [present]; nofun)
  | get key =>
    cases present : s key with
    | none =>
      simp only [answer, present, Option.some.injEq, Prod.mk.injEq] at answers
      obtain ⟨rfl, rfl⟩ := answers
      exact .notFound present
    | some value =>
      simp only [answer, present, Option.some.injEq, Prod.mk.injEq] at answers
      obtain ⟨rfl, rfl⟩ := answers
      exact .found present

/-- A call that runs by itself. -/
def alone : Nat → Calls → Nat → Calls
  | 0, w, _ => w
  | fuel + 1, w, i =>
    match w.callers[i]? with
    | some (request, .call op next) =>
      match answer w.shared op with
      | some (ans, after) =>
        alone fuel ⟨after, w.callers.set i (request, next ans), w.history ++ [(i, ⟨op, ans⟩)]⟩ i
      | none => w
    | some (_, .ret _) | none => w

/-- A call that runs by itself takes its turns. -/
theorem reaches_alone (fuel : Nat) (w : Calls) (i : Nat) : Reaches crypt w (alone fuel w i) := by
  induction fuel generalizing w with
  | zero => exact .refl
  | succ fuel ih =>
    unfold alone
    split
    · rename_i request op next turn
      split
      · rename_i ans after answers
        exact .head (.act w i request op next ans after turn (serves_answer answers)) (ih _)
      · exact .refl
    · exact .refl
    · exact .refl

/-- Calls one after another. -/
def inTurn (crypt : CString → CString → Option CString) : List Request → Calls → Calls
  | [], w => w
  | request :: rest, w =>
    inTurn crypt rest
      (alone 25 { w with callers := w.callers ++ [(request, request.program crypt)] }
        w.callers.length)

/-- Calls one after another are an execution. -/
theorem reaches_inTurn (requests : List Request) (w : Calls) :
    Reaches crypt w (inTurn crypt requests w) := by
  induction requests generalizing w with
  | nil => exact .refl
  | cons request rest ih =>
    exact .head (.enter w request) (.trans (reaches_alone 25 _ _) (ih _))

/-- The text as a C string. -/
def text (chars : String) : CString := cString (ascii chars)

/-- The settings that a salt or a hash starts with. -/
def settings (salt : CString) : List UInt8 := (salt.val ++ List.replicate 20 46).take 20

/-- A stand-in for SHA-crypt that knows the hashes of the passwords b and c with the salt of sixteen
a. -/
def knownCrypt (key salt : CString) : Option CString :=
  some (cString (settings salt ++
    if key = text "b" then ascii "rt6WLlw/VXirJhlyRPsRRqjKCrd.PJ4kg.Nysp3p3x/"
    else if key = text "c" then ascii "8C8eWtQh1fDfFEggLoaL8prMJJwoRvPobZRqwtn8iQC"
    else ascii "..........................................."))

/-- The settings are twenty bytes, none of which is a terminator. -/
theorem settings_spec (salt : CString) : (settings salt).length = 20 ∧ 0 ∉ settings salt := by
  constructor
  · simp [settings]
  · intro member
    rcases List.mem_append.mp (List.mem_of_mem_take member) with given | filled
    · exact salt.property given
    · cases List.eq_of_mem_replicate filled

/-- The stand-in takes the settings of a hash. -/
theorem knownCrypt_absorbs (key key' salt hash : CString)
    (hashed : knownCrypt key' salt = some hash) :
    knownCrypt key hash = knownCrypt key salt := by
  obtain ⟨length, noNul⟩ := settings_spec salt
  have tail : ∀ tail : List UInt8, 0 ∉ tail →
      settings (cString (settings salt ++ tail)) = settings salt := by
    intro tail absent
    have whole : (cString (settings salt ++ tail)).val = settings salt ++ tail := by
      refine List.takeWhile_eq_self_iff.mpr fun byte member => decide_eq_true fun zero => ?_
      subst zero
      exact (List.mem_append.mp member).elim noNul absent
    rw [settings, whole, List.append_assoc, List.take_left' length]
  have same : settings hash = settings salt := by
    unfold knownCrypt at hashed
    cases hashed
    split
    · exact tail _ (by decide)
    split
    · exact tail _ (by decide)
    · exact tail _ (by decide)
  unfold knownCrypt
  rw [same]

/-- The stand-in is what `crypt` is assumed to be. -/
theorem knownCrypt_hashes {Password : CString → Prop} : Hashes knownCrypt Password where
  total _ _ _ _ := Option.some_ne_none _
  absorbs key key' salt hash _ _ _ := knownCrypt_absorbs key key' salt hash

/-- A user registers, tries to register again, and logs in with the right and with a wrong
password. -/
def sessions : List Request :=
  [.register (text "a") (text "b"), .register (text "a") (text "c"),
    .validate (text "a") (text "b"),
    .validate (text "a") (text "c")]

/-- The sessions, executed. -/
theorem store_kept_sessions : ∃ w, Kept knownCrypt w ∧
    Returned w 0 (.register (text "a") (text "b")) 0 ∧
    Returned w 1 (.register (text "a") (text "c")) (-1) ∧
    Returned w 2 (.validate (text "a") (text "b")) 1 ∧
    Returned w 3 (.validate (text "a") (text "c")) 0 :=
  ⟨inTurn knownCrypt sessions Calls.start,
    @Reaches.store_kept knownCrypt (fun _ _ => Option.some_ne_none _) knownCrypt_absorbs _
      (reaches_inTurn sessions Calls.start),
    rfl, rfl, rfl, rfl⟩

end Chessh.Users
