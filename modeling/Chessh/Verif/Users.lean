import Mathlib.Data.List.GetD
import Chessh.Client.Users

/-!
# The user store

What `register_user` and `user_is_valid` do on every path through them, and from it what holds of
the database and of the replies in every interleaving of any number of calls.
-/

namespace Chessh.Users

open Program Program.Prog Wire

variable {crypt : CString → CString → Option CString}

/-! ## Strings in arrays -/

/-- A C string is read back from an array that is longer. -/
theorem cString_copied {n : Nat} {text : CString} (fits : text.val.length < n) :
    cString (List.ofFn (copied n text.val)) = text := by
  obtain ⟨bytes, noNul⟩ := text
  have split : List.ofFn (copied n bytes) = bytes ++ List.replicate (n - bytes.length) 0 := by
    refine List.ext_getElem ?_ fun i first second => ?_
    · simp
      dsimp only at fits
      omega
    · simp only [List.getElem_ofFn, copied]
      by_cases within : i < bytes.length
      · rw [List.getElem_append_left within, List.getD_eq_getElem _ _ within]
      · rw [List.getElem_append_right (by omega), List.getElem_replicate,
          List.getD_eq_default _ _ (by omega)]
  apply Subtype.ext
  change (List.ofFn (copied n bytes)).takeWhile (· ≠ 0) = bytes
  rw [split]
  have nonzero : ∀ byte ∈ bytes, decide (byte ≠ 0) = true := by
    intro byte member
    exact decide_eq_true fun zero => noNul (zero ▸ member)
  rw [List.takeWhile_append_of_pos nonzero]
  cases left : n - bytes.length with
  | zero => simp
  | succ k => simp [List.replicate_succ]

/-! ## Salts and hashes -/

/-- The bytes fill the `X` of a template with characters of a salt. -/
def Fills : List UInt8 → List UInt8 → Prop :=
  List.Forall₂ fun byte drawn => if byte = 88 then drawn ∈ saltChars else drawn = byte

/-- A salt that `crypt_salt` may draw. -/
def Drawn (salt : CString) : Prop :=
  ∃ bytes, Fills (ascii "$5$XXXXXXXXXXXXXXXX$") bytes ∧ salt = cString bytes

/-- What is assumed of `crypt`, for the salts of `crypt_salt` and for certain passwords: it does not
fail, and it takes a hash for the salt that the hash was made with. -/
structure Hashes (crypt : CString → CString → Option CString)
    (Password : CString → Prop) : Prop where
  total : ∀ key salt, Password key → Drawn salt → crypt key salt ≠ none
  absorbs : ∀ key key' salt hash, Password key → Password key' → Drawn salt →
    crypt key' salt = some hash → crypt key hash = crypt key salt

/-- The assumptions for all passwords, when they hold of all salts. -/
theorem Hashes.of_total (total : ∀ key salt, crypt key salt ≠ none)
    (absorbs : ∀ key key' salt hash, crypt key' salt = some hash →
      crypt key hash = crypt key salt) :
    Hashes crypt fun _ => True where
  total key salt _ _ := total key salt
  absorbs key key' salt hash _ _ _ := absorbs key key' salt hash

/-! ## What the functions do -/

section Paths

variable {P : Interaction Op.Answer → Prop}

/-- A random number picks a character of a salt. -/
theorem saltChars_getD (drawn : Nat) : saltChars.getD (drawn &&& 63) 0 ∈ saltChars := by
  have inside : drawn &&& 63 < saltChars.length :=
    lt_of_le_of_lt Nat.and_le_right (show 63 < saltChars.length by decide)
  rw [List.getD_eq_getElem _ _ inside]
  exact List.getElem_mem inside

/-- The salt is drawn without a write. -/
theorem fillSalt_does (draws : ∀ n : Nat, P ⟨.random, n⟩) (template : List UInt8) :
    Does P (fillSalt template) fun es salt => es.flatMap written = [] ∧ Fills template salt := by
  induction template with
  | nil => exact ⟨rfl, .nil⟩
  | cons byte rest ih =>
    have first : Does P (if byte = 88 then genSaltChar else pure byte) fun es drawn =>
        es.flatMap written = [] ∧ if byte = 88 then drawn ∈ saltChars else drawn = byte := by
      split
      · exact fun drawn => ⟨draws drawn, rfl, saltChars_getD drawn⟩
      · exact ⟨rfl, rfl⟩
    unfold fillSalt
    refine does_bind.mpr (first.mono fun es drawn filled => ?_)
    refine does_bind.mpr (ih.mono fun more others filled' => ?_)
    rw [does_pure, List.append_nil, List.flatMap_append, filled.1, filled'.1]
    exact ⟨rfl, .cons filled.2 filled'.2⟩

/-- The hash is that of the password with a salt that was drawn, or there is none. -/
theorem cryptSalt_does (draws : ∀ n : Nat, P ⟨.random, n⟩) (key : CString) :
    Does P (cryptSalt crypt key) fun es hash =>
      es.flatMap written = [] ∧ ∃ salt, Drawn salt ∧ hash = crypt key salt := by
  unfold cryptSalt
  refine does_bind.mpr ((fillSalt_does draws _).mono fun es salt filled => ?_)
  rw [does_pure, List.append_nil]
  exact ⟨filled.1, cString salt, ⟨salt, filled.2, rfl⟩, rfl⟩

/-- The bytes of a reply. -/
theorem reportMsg_does (writes : ∀ bytes, P ⟨.write bytes, ()⟩) (code : AuthCode)
    {text : List UInt8} (short : text.length < 256) :
    Does P (reportMsg code.byte text) fun es _ =>
      es.flatMap written = (Message.authResponse code ⟨text, short⟩).encode ∧
        ∀ e ∈ es, ∃ bytes, e.op = .write bytes := by
  unfold reportMsg
  rw [if_neg (by omega)]
  refine fun _ => ⟨writes _, fun _ => ⟨writes _, fun _ => ⟨writes _, fun _ => ⟨writes _, ?_, ?_⟩⟩⟩⟩
  · simp [written, Message.encode, Message.command, Message.arguments, textBytes, countByte,
      Command.byte]
  · simp

/-- A reply and a result. -/
theorem reply_does {α : Type} (writes : ∀ bytes, P ⟨.write bytes, ()⟩) (code : AuthCode)
    {text : List UInt8} (short : text.length < 256) (result : α) :
    Does P (do reportMsg code.byte text; return result) fun es r =>
      r = result ∧ es.flatMap written = (Message.authResponse code ⟨text, short⟩).encode ∧
        ∀ e ∈ es, ∃ bytes, e.op = .write bytes := by
  refine does_bind.mpr ((reportMsg_does writes code short).mono fun es _ replied => ?_)
  rw [does_pure, List.append_nil]
  exact ⟨rfl, replied⟩

end Paths

/-- A put that registers a user. -/
structure Registration (crypt : CString → CString → Option CString) (user pass : CString)
    (key : List UInt8) (value : ChesshUser) : Prop where
  /-- The key is the name. -/
  key : key = user.val
  /-- The name fits its field. -/
  length : user.val.length ≤ 255
  /-- The name is not reserved. -/
  reserved : user.val.head? ≠ some 95
  /-- The record holds the name and a hash of the password. -/
  record : ∃ salt hash, Drawn salt ∧ crypt pass salt = some hash ∧ hash.val.length < 87 ∧
    value = newUser user hash

/-- The events a call may have. -/
def Allowed (crypt : CString → CString → Option CString) : Request → Interaction Op.Answer → Prop
  | .register user pass, e => ∀ key value, e.op = .put key value →
    Registration crypt user pass key value
  | .validate _ _, e => ∀ key value, e.op ≠ .put key value

/-- One reply was written, and it says success exactly when the result does. -/
def Replied (es : List (Interaction Op.Answer)) (success failure : AuthCode)
    (succeeds : Prop) : Prop :=
  ∃ code text, es.flatMap written = (Message.authResponse code text).encode ∧
    (code = success ∨ code = failure) ∧ (code = success ↔ succeeds)

/-- A reply after events that write nothing. -/
theorem Replied.after {front more : List (Interaction Op.Answer)} {code success failure : AuthCode}
    {text : Text} {succeeds : Prop} (quiet : front.flatMap written = [])
    (bytes : more.flatMap written = (Message.authResponse code text).encode)
    (either : code = success ∨ code = failure) (told : code = success ↔ succeeds) :
    Replied (front ++ more) success failure succeeds := by
  refine ⟨code, text, ?_, either, told⟩
  rw [List.flatMap_append, quiet, List.nil_append, bytes]

/-- What holds of the events and the result of a call that has returned. -/
def Done (crypt : CString → CString → Option CString) :
    Request → List (Interaction Op.Answer) → Int → Prop
  | .register user _, es, result =>
    Replied es .registered .notRegistered (result = 0) ∧
      (result = 0 → ∃ value, ⟨.put user.val value, (none : Option DbError)⟩ ∈ es)
  | .validate user pass, es, result =>
    Replied es .authenticated .notAuthenticated (result ≠ 0) ∧
      ∃ answer, ⟨.get user.val, answer⟩ ∈ es ∧
        (∀ code, ⟨.get user.val, (.error code : Except DbError ChesshUser)⟩ ∈ es → result = 0) ∧
        ∀ value, ⟨.get user.val, (.ok value : Except DbError ChesshUser)⟩ ∈ es →
          (result ≠ 0 ↔ crypt pass value.hash = some value.hash)

/-- A write is allowed in every call. -/
theorem allowed_write (request : Request) (bytes : List UInt8) :
    Allowed crypt request ⟨.write bytes, ()⟩ := by
  cases request <;> exact fun _ _ put => by cases put

/-- A random number is allowed in every call. -/
theorem allowed_random (request : Request) (n : Nat) : Allowed crypt request ⟨.random, n⟩ := by
  cases request <;> exact fun _ _ put => by cases put

/-- Every exit of `register_user` without success is a reply and −1. -/
theorem refuses_does {user pass : CString} {front : List (Interaction Op.Answer)}
    {text : List UInt8} (quiet : front.flatMap written = []) (short : text.length < 256) :
    Does (Allowed crypt (.register user pass))
      (do reportMsg registrationFailed text; return -1) fun es result =>
        Done crypt (.register user pass) (front ++ es) result := by
  refine (reply_does (allowed_write _) .notRegistered short (-1 : Int)).mono fun es r replied => ?_
  obtain ⟨rfl, bytes, -⟩ := replied
  exact ⟨.after quiet bytes (Or.inr rfl) (by decide), fun zero => absurd zero (by decide)⟩

/-- What `register_user` does. -/
theorem registerUser_does (user pass : CString) :
    Does (Allowed crypt (.register user pass)) (registerUser crypt user pass)
      (Done crypt (.register user pass)) := by
  unfold registerUser
  split
  · exact @refuses_does _ _ _ [] _ rfl (by decide)
  rename_i length
  split
  · exact @refuses_does _ _ _ [] _ rfl (by decide)
  rename_i reserved
  refine does_bind.mpr ((cryptSalt_does (allowed_random _) pass).mono fun es hash hashed => ?_)
  obtain ⟨quiet, salt, drawn, rfl⟩ := hashed
  cases hashed : crypt pass salt with
  | none => exact refuses_does quiet (by decide)
  | some hash =>
    dsimp only
    split
    · exact refuses_does quiet (by decide)
    rename_i fits
    refine fun answer => ⟨?_, ?_⟩
    · intro key value put
      cases put
      exact ⟨rfl, by omega, reserved, salt, hash, drawn, hashed, by omega, rfl⟩
    -- the put writes nothing to the client either
    have quiet' : (es ++ [(⟨.put user.val (newUser user hash), answer⟩ :
        Interaction Op.Answer)]).flatMap written = [] := by
      rw [List.flatMap_append, quiet]
      rfl
    cases answer with
    | none =>
      refine (reply_does (allowed_write _) .registered (by decide) (0 : Int)).mono
        fun more r replied => ?_
      obtain ⟨rfl, bytes, -⟩ := replied
      rw [← List.singleton_append, ← List.append_assoc]
      exact ⟨.after quiet' bytes (Or.inl rfl) (by decide), fun _ => ⟨newUser user hash, by simp⟩⟩
    | some error =>
      have refused := fun text short => @refuses_does crypt user pass _ text quiet' short
      simp only [List.append_assoc, List.singleton_append] at refused
      cases error with
      | keyExist =>
        refine refused _ ?_
        decide
      | notFound | other =>
        refine refused _ ?_
        decide

/-- A get that is among a get and writes is the first. -/
theorem get_mem {key : List UInt8} {answer answer' : Except DbError ChesshUser}
    {es : List (Interaction Op.Answer)} (writes : ∀ e ∈ es, ∃ bytes, e.op = .write bytes)
    (member : (⟨.get key, answer⟩ : Interaction Op.Answer) ∈
      (⟨.get key, answer'⟩ : Interaction Op.Answer) :: es) :
    answer = answer' := by
  rcases List.mem_cons.mp member with first | later
  · cases first
    rfl
  · obtain ⟨bytes, same⟩ := writes _ later
    cases same

/-- Without a record `user_is_valid` refuses. -/
theorem unknown_does {user pass : CString} (code : DbError) {text : List UInt8}
    (short : text.length < 256) :
    Does (Allowed crypt (.validate user pass)) (do reportMsg authFailed text; return false)
      fun es valid => Done crypt (.validate user pass)
        (⟨.get user.val, (.error code : Except DbError ChesshUser)⟩ :: es)
        (if valid then 1 else 0) := by
  refine (reply_does (allowed_write _) .notAuthenticated short false).mono
    fun es valid replied => ?_
  obtain ⟨rfl, bytes, quiet⟩ := replied
  have told := @Replied.after [⟨.get user.val, (.error code : Except DbError ChesshUser)⟩] es
    .notAuthenticated .authenticated .notAuthenticated _ ((0 : Int) ≠ 0) rfl bytes (Or.inr rfl)
    (by decide)
  refine ⟨told, _, List.mem_cons_self, fun _ _ => rfl, fun value member => ?_⟩
  cases get_mem quiet member

/-- With a record `user_is_valid` answers what the hash of the password says. -/
theorem judged_does {user pass : CString} {value : ChesshUser} {text : List UInt8} {code : AuthCode}
    {valid : Bool} (short : text.length < 256)
    (either : code = .authenticated ∨ code = .notAuthenticated)
    (told : code = .authenticated ↔ valid = true)
    (judged : valid = true ↔ crypt pass value.hash = some value.hash) :
    Does (Allowed crypt (.validate user pass)) (do reportMsg code.byte text; return valid)
      fun es valid => Done crypt (.validate user pass)
        (⟨.get user.val, (.ok value : Except DbError ChesshUser)⟩ :: es)
        (if valid then 1 else 0) := by
  refine (reply_does (allowed_write _) code short valid).mono fun es result replied => ?_
  obtain ⟨same, bytes, quiet⟩ := replied
  have success : (if valid = true then (1 : Int) else 0) ≠ 0 ↔ valid = true := by
    cases valid <;> decide
  have replied := @Replied.after [⟨.get user.val, (.ok value : Except DbError ChesshUser)⟩] es
    code .authenticated .notAuthenticated _ _ rfl bytes either (told.trans success.symm)
  rw [same]
  refine ⟨replied, _, List.mem_cons_self, fun error member => ?_, fun value' member => ?_⟩
  · cases get_mem quiet member
  · cases get_mem quiet member
    exact success.trans judged

/-- What `user_is_valid` does. -/
theorem userIsValid_does (user pass : CString) :
    Does (Allowed crypt (.validate user pass)) (userIsValid crypt user pass) fun es valid =>
      Done crypt (.validate user pass) es (if valid then 1 else 0) := by
  refine fun answer => ⟨fun key value put => (by cases put), ?_⟩
  cases answer with
  | error code =>
    apply unknown_does code
    split <;> decide
  | ok value =>
    simp only [ret_bind]
    cases hashed : crypt pass value.hash with
    | none => exact fun never => Empty.elim never
    | some hash =>
      dsimp only
      split
      · rename_i differs
        refine @judged_does _ _ _ _ _ .notAuthenticated false ?_ (Or.inr rfl) (by decide) ?_
        · decide
        · simpa [hashed] using differs
      · rename_i same
        refine @judged_does _ _ _ _ _ .authenticated true ?_ (Or.inl rfl) (by decide) ?_
        · decide
        · simpa [hashed] using same

/-- What a call does. -/
theorem program_does (request : Request) :
    Does (Allowed crypt request) (request.program crypt) (Done crypt request) := by
  cases request with
  | register user pass => exact registerUser_does user pass
  | validate user pass =>
    refine does_bind.mpr ((userIsValid_does user pass).mono fun es valid done => ?_)
    rw [does_pure, List.append_nil]
    exact done

/-! ## Calls come to an end -/

/-- An operation that is defined. -/
def Defined (op : Op) : Prop := op ≠ .fault

/-- With a record that is returned the password can be hashed. -/
def Hashable (crypt : CString → CString → Option CString) (request : Request)
    (e : Interaction Op.Answer) : Prop :=
  ∀ key value, e = ⟨.get key, (.ok value : Except DbError ChesshUser)⟩ →
    crypt request.password value.hash ≠ none

section Ends

variable {P : Interaction Op.Answer → Prop}

/-- A message takes four writes. -/
theorem reportMsg_ends (code : UInt8) (text : List UInt8) :
    Ends Defined P 4 (reportMsg code text) := by
  unfold reportMsg
  split
  · exact trivial
  · exact ⟨nofun, fun _ _ => ⟨nofun, fun _ _ => ⟨nofun, fun _ _ => ⟨nofun, fun _ _ => trivial⟩⟩⟩⟩

/-- A message and a result. -/
theorem reply_ends {α : Type} (code : UInt8) (text : List UInt8) (result : α) :
    Ends Defined P 4 (do reportMsg code text; return result) :=
  (reportMsg_ends code text).bind fun _ => ends_pure result

/-- A salt takes a random number for each `X`. -/
theorem fillSalt_ends (template : List UInt8) :
    Ends Defined P template.length (fillSalt template) := by
  induction template with
  | nil => exact trivial
  | cons byte rest ih =>
    have first : Ends Defined P 1 (if byte = 88 then genSaltChar else pure byte) := by
      split
      · exact ⟨nofun, fun _ _ => trivial⟩
      · exact trivial
    have others := first.bind fun first => ih.bind fun others => ends_pure (first :: others)
    exact others.mono (by rw [List.length_cons]; omega)

/-- `register_user` comes to an end. -/
theorem registerUser_ends (user pass : CString) :
    Ends Defined P 25 (registerUser crypt user pass) := by
  unfold registerUser
  split
  · exact (reply_ends _ _ _).mono (by decide)
  split
  · exact (reply_ends _ _ _).mono (by decide)
  have salted : Ends Defined P 20 (cryptSalt crypt pass) :=
    (fillSalt_ends (ascii "$5$XXXXXXXXXXXXXXXX$")).bind fun salt => ends_pure _
  refine Ends.bind (n := 5) salted fun hash => ?_
  cases hash with
  | none => exact (reply_ends _ _ _).mono (by decide)
  | some hash =>
    dsimp only
    split
    · exact (reply_ends _ _ _).mono (by decide)
    refine ⟨nofun, fun answer _ => ?_⟩
    cases answer with
    | none => exact reply_ends _ _ _
    | some error =>
      cases error with
      | keyExist | notFound | other => exact reply_ends _ _ _

/-- `user_is_valid` comes to an end when the password can be hashed. -/
theorem userIsValid_ends (user pass : CString) :
    Ends Defined (Hashable crypt (.validate user pass)) 5 (userIsValid crypt user pass) := by
  refine ⟨nofun, fun answer hashable => ?_⟩
  cases answer with
  | error code => exact reply_ends _ _ _
  | ok value =>
    simp only [ret_bind]
    cases hashed : crypt pass value.hash with
    | none => exact absurd hashed (hashable user.val value rfl)
    | some hash =>
      dsimp only
      split
      · exact reply_ends _ _ _
      · exact reply_ends _ _ _

/-- Every call comes to an end. -/
theorem program_ends (request : Request) :
    Ends Defined (Hashable crypt request) 25 (request.program crypt) := by
  cases request with
  | register user pass => exact registerUser_ends user pass
  | validate user pass =>
    have ends : Ends Defined (Hashable crypt (.validate user pass)) 5
        (Request.program crypt (.validate user pass)) :=
      (userIsValid_ends user pass).bind fun _ => ends_pure _
    exact ends.mono (by decide)

end Ends

end Chessh.Users
