import Mathlib.Tactic

/-!
# Ledgers of resources

A trace acquires, uses and releases resources. `Ledger.audit` keeps the list of what is held and
refuses an acquisition of what is held already and a use or a release of what is not. Of a trace
that passes, the rules here say how often a resource is released and what may follow its release.
-/

namespace Ledger

/-- What a trace does to one resource. -/
inductive Entry (α : Type*)
  | acquire (a : α)
  | use (a : α)
  | release (a : α)
  deriving DecidableEq

open Entry

variable {α : Type*} [DecidableEq α]

/-- What is held after one action. -/
def book (held : List α) : Entry α → Option (List α)
  | acquire a => if a ∈ held then none else some (a :: held)
  | use a => if a ∈ held then some held else none
  | release a => if a ∈ held then some (held.erase a) else none

/-- What is held after a trace. -/
def audit : List α → List (Entry α) → Option (List α)
  | held, [] => some held
  | held, action :: rest => (book held action).bind fun held => audit held rest

variable {held after : List α} {action : Entry α} {trace front back : List (Entry α)} {a : α}

@[simp] theorem audit_nil (held : List α) : audit held [] = some held := rfl

/-- A trace of one action more. -/
theorem audit_cons :
    audit held (action :: trace) = some after ↔
      ∃ middle, book held action = some middle ∧ audit middle trace = some after :=
  Option.bind_eq_some_iff

/-- One trace after another. -/
theorem audit_append :
    audit held (front ++ back) = some after ↔
      ∃ middle, audit held front = some middle ∧ audit middle back = some after := by
  induction front generalizing held with
  | nil => simp
  | cons action rest ih =>
    rw [List.cons_append, audit_cons]
    simp only [ih, audit_cons]
    constructor
    · rintro ⟨first, booked, middle, walked, rest⟩
      exact ⟨middle, ⟨first, booked, walked⟩, rest⟩
    · rintro ⟨middle, ⟨first, booked, walked⟩, rest⟩
      exact ⟨first, booked, middle, walked, rest⟩

/-- What is acquired was not held. -/
theorem book_acquire : book held (acquire a) = some after ↔ a ∉ held ∧ after = a :: held := by
  by_cases within : a ∈ held
  · simp [book, within]
  · simp [book, within, eq_comm]

/-- What is used is held. -/
theorem book_use : book held (use a) = some after ↔ a ∈ held ∧ after = held := by
  by_cases within : a ∈ held
  · simp [book, within, eq_comm]
  · simp [book, within]

/-- What is released was held. -/
theorem book_release : book held (release a) = some after ↔ a ∈ held ∧ after = held.erase a := by
  by_cases within : a ∈ held
  · simp [book, within, eq_comm]
  · simp [book, within]

/-- One action keeps the resources held apart. -/
theorem book_nodup (apart : held.Nodup) (booked : book held action = some after) : after.Nodup := by
  cases action with
  | acquire b =>
    obtain ⟨fresh, rfl⟩ := book_acquire.mp booked
    exact List.nodup_cons.mpr ⟨fresh, apart⟩
  | use b =>
    obtain ⟨-, rfl⟩ := book_use.mp booked
    exact apart
  | release b =>
    obtain ⟨-, rfl⟩ := book_release.mp booked
    exact apart.erase b

/-- One action balances the releases and what is held against the acquisitions. -/
theorem book_balance (booked : book held action = some after) :
    [action].count (release a) + after.count a = [action].count (acquire a) + held.count a := by
  cases action with
  | acquire b =>
    obtain ⟨-, rfl⟩ := book_acquire.mp booked
    by_cases same : b = a
    · subst same
      simp [Nat.add_comm]
    · simp [same]
  | use b =>
    obtain ⟨-, rfl⟩ := book_use.mp booked
    simp
  | release b =>
    obtain ⟨within, rfl⟩ := book_release.mp booked
    by_cases same : b = a
    · subst same
      have some := List.count_pos_iff.mpr within
      simp only [List.count_singleton_self, List.count_erase_self]
      simp
      omega
    · simp [same, List.count_erase_of_ne (Ne.symm same)]

/-- Releases and what is held in the end balance the acquisitions and what was held before. -/
theorem audit_balance (audited : audit held trace = some after) (a : α) :
    trace.count (release a) + after.count a = trace.count (acquire a) + held.count a := by
  induction trace generalizing held with
  | nil =>
    cases audited
    simp
  | cons action rest ih =>
    obtain ⟨middle, booked, walked⟩ := audit_cons.mp audited
    have first := @book_balance α _ held middle action a booked
    have others := ih walked
    rw [← List.singleton_append, List.count_append, List.count_append]
    omega

/-- What is neither held nor acquired is not used and not released. -/
theorem audit_absent (audited : audit held trace = some after) (absent : a ∉ held)
    (never : acquire a ∉ trace) : use a ∉ trace ∧ release a ∉ trace ∧ a ∉ after := by
  induction trace generalizing held with
  | nil =>
    cases audited
    exact ⟨List.not_mem_nil, List.not_mem_nil, absent⟩
  | cons action rest ih =>
    obtain ⟨middle, booked, walked⟩ := audit_cons.mp audited
    rw [List.mem_cons, not_or] at never
    have gone : a ∉ middle ∧ use a ≠ action ∧ release a ≠ action := by
      cases action with
      | acquire b =>
        obtain ⟨-, rfl⟩ := book_acquire.mp booked
        have other : a ≠ b := fun same => never.1 (by rw [same])
        simp [other, absent]
      | use b =>
        obtain ⟨within, rfl⟩ := book_use.mp booked
        have other : a ≠ b := fun same => absent (by rw [same]; exact within)
        simp [other, absent]
      | release b =>
        obtain ⟨within, rfl⟩ := book_release.mp booked
        have other : a ≠ b := fun same => absent (by rw [same]; exact within)
        exact ⟨fun found => absent (List.mem_of_mem_erase found), by simp, by simpa using other⟩
    obtain ⟨unused, unreleased, later⟩ := ih walked gone.1 never.2
    rw [List.mem_cons, List.mem_cons, not_or, not_or]
    exact ⟨⟨gone.2.1, unused⟩, ⟨gone.2.2, unreleased⟩, later⟩

/-- A trace keeps the resources held apart. -/
theorem audit_nodup (apart : held.Nodup) (audited : audit held trace = some after) :
    after.Nodup := by
  induction trace generalizing held with
  | nil =>
    cases audited
    exact apart
  | cons action rest ih =>
    obtain ⟨middle, booked, walked⟩ := audit_cons.mp audited
    exact ih (book_nodup apart booked) walked

/-- Uses acquire nothing. -/
@[simp] theorem count_acquire_uses (as : List α) (a : α) : (as.map use).count (acquire a) = 0 :=
  List.count_eq_zero.mpr fun member => by simp at member

/-- Releases acquire nothing. -/
@[simp] theorem count_acquire_releases (as : List α) (a : α) :
    (as.map release).count (acquire a) = 0 :=
  List.count_eq_zero.mpr fun member => by simp at member

/-- Uses release nothing. -/
@[simp] theorem count_release_uses (as : List α) (a : α) : (as.map use).count (release a) = 0 :=
  List.count_eq_zero.mpr fun member => by simp at member

/-- What is held may be used. -/
theorem audit_uses {as : List α} (within : ∀ a ∈ as, a ∈ held) :
    audit held (as.map use) = some held := by
  induction as with
  | nil => rfl
  | cons a rest ih =>
    have first := book_use.mpr ⟨within a List.mem_cons_self, rfl⟩
    exact audit_cons.mpr ⟨held, first, ih fun b member => within b (List.mem_cons_of_mem a member)⟩

/-- Part of what is held may be released. -/
theorem audit_releases {front as back : List α} (apart : (front ++ as ++ back).Nodup) :
    audit (front ++ as ++ back) (as.map release) = some (front ++ back) := by
  induction as with
  | nil => simp
  | cons a rest ih =>
    have moved : front ++ a :: rest ++ back = front ++ a :: (rest ++ back) := by simp
    have perm : (front ++ a :: (rest ++ back)).Perm (a :: (front ++ (rest ++ back))) :=
      List.perm_middle
    rw [moved] at apart ⊢
    have split := List.nodup_cons.mp (perm.nodup_iff.mp apart)
    have erased : (front ++ a :: (rest ++ back)).erase a = front ++ rest ++ back := by
      rw [List.erase_append_right _ fun member => split.1 (List.mem_append_left _ member),
        List.erase_cons_head, List.append_assoc]
    have first := book_release.mpr ⟨perm.mem_iff.mpr List.mem_cons_self, erased.symm⟩
    rw [← List.append_assoc] at split
    exact audit_cons.mpr ⟨_, first, ih split.2⟩

/-- All that is held may be released, in any order. -/
theorem audit_releases_all {as : List α} (perm : as.Perm held) :
    audit held (as.map release) = some [] := by
  induction as generalizing held with
  | nil =>
    cases perm.nil_eq
    rfl
  | cons a rest ih =>
    obtain ⟨within, others⟩ := List.cons_perm_iff_perm_erase.mp perm
    exact audit_cons.mpr ⟨held.erase a, book_release.mpr ⟨within, rfl⟩, ih others⟩

/-- Nothing is used after its release unless it is acquired again. -/
theorem audit_released (apart : held.Nodup)
    (audited : audit held (front ++ release a :: back) = some after) (never : acquire a ∉ back) :
    use a ∉ back ∧ release a ∉ back := by
  obtain ⟨before, first, rest⟩ := audit_append.mp audited
  obtain ⟨middle, booked, walked⟩ := audit_cons.mp rest
  obtain ⟨-, rfl⟩ := book_release.mp booked
  have gone : a ∉ before.erase a := (audit_nodup apart first).not_mem_erase
  obtain ⟨unused, unreleased, -⟩ := audit_absent walked gone never
  exact ⟨unused, unreleased⟩

/-- What is acquired once is not used after its release. -/
theorem audit_final (audited : audit [] (front ++ release a :: back) = some after)
    (once : (front ++ release a :: back).count (acquire a) ≤ 1) :
    use a ∉ back ∧ release a ∉ back := by
  refine audit_released List.nodup_nil audited fun again => ?_
  have acquired : acquire a ∈ front := by
    by_contra never
    obtain ⟨before, walked, rest⟩ := audit_append.mp audited
    obtain ⟨middle, booked, -⟩ := audit_cons.mp rest
    exact (audit_absent walked List.not_mem_nil never).2.2 (book_release.mp booked).1
  have first := List.count_pos_iff.mpr acquired
  have second := List.count_pos_iff.mpr again
  rw [List.count_append, List.count_cons] at once
  omega

end Ledger
