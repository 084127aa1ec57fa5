import Mathlib.Tactic

/-!
# Self-delimiting encodings

An encoding is self-delimiting when whoever knows where an encoded value starts also knows
where it ends, whatever follows. Fields put together, lists behind a count of their elements
and values under a tag keep this, and a sequence of such values is read back in one way only.
-/

namespace Wire

variable {α β γ : Type*}

/-- Encoded values with anything behind them agree only when the values do. -/
def SelfDelimiting (encode : α → List β) : Prop :=
  ∀ ⦃a b : α⦄ ⦃s t : List β⦄, encode a ++ s = encode b ++ t → a = b ∧ s = t

namespace SelfDelimiting

/-- A value that is a single letter. -/
theorem letter : SelfDelimiting fun b : β => [b] :=
  fun _ _ _ _ same => List.cons.inj same

/-- Words of one length stand for themselves. -/
theorem fixed (n : Nat) : SelfDelimiting fun word : { w : List β // w.length = n } => word.val := by
  intro a b s t same
  obtain ⟨words, rest⟩ := List.append_inj same (a.property.trans b.property.symm)
  exact ⟨Subtype.ext words, rest⟩

/-- Two fields in order. -/
theorem pair {first : α → List β} {second : γ → List β} (front : SelfDelimiting first)
    (back : SelfDelimiting second) :
    SelfDelimiting fun value : α × γ => first value.1 ++ second value.2 := by
  intro a b s t same
  simp only [List.append_assoc] at same
  obtain ⟨left, same⟩ := front same
  obtain ⟨right, rest⟩ := back same
  exact ⟨Prod.ext left right, rest⟩

/-- Another name for the values. -/
theorem comap {encode : α → List β} (code : SelfDelimiting encode) {name : γ → α}
    (injective : Function.Injective name) : SelfDelimiting fun value => encode (name value) := by
  intro a b s t same
  obtain ⟨names, rest⟩ := code same
  exact ⟨injective names, rest⟩

/-- As many values on both sides. -/
theorem values {encode : α → List β} (code : SelfDelimiting encode) :
    ∀ {as bs : List α} {s t : List β}, as.length = bs.length →
      as.flatMap encode ++ s = bs.flatMap encode ++ t → as = bs ∧ s = t := by
  intro as
  induction as with
  | nil =>
    intro bs s t long same
    obtain rfl := List.length_eq_zero_iff.mp long.symm
    exact ⟨rfl, same⟩
  | cons a as ih =>
    intro bs s t long same
    cases bs with
    | nil => exact absurd long (Nat.succ_ne_zero _)
    | cons b bs =>
      simp only [List.flatMap_cons, List.append_assoc] at same
      obtain ⟨rfl, behind⟩ := code same
      obtain ⟨rfl, rest⟩ := ih (Nat.succ.inj long) behind
      exact ⟨rfl, rest⟩

/-- A list behind the count of its elements. -/
theorem counted {encode : α → List β} (code : SelfDelimiting encode) {bound : Nat}
    {count : Nat → List β} (counts : SelfDelimiting fun n : Fin bound => count n) :
    SelfDelimiting fun list : { l : List α // l.length < bound } =>
      count list.val.length ++ list.val.flatMap encode := by
  intro a b s t same
  simp only [List.append_assoc] at same
  obtain ⟨long, same⟩ := @counts ⟨a.val.length, a.property⟩ ⟨b.val.length, b.property⟩ _ _ same
  obtain ⟨lists, rest⟩ := code.values (Fin.val_eq_of_eq long) same
  exact ⟨Subtype.ext lists, rest⟩

/-- Every value is read back from a sequence of values. -/
theorem flatMap_injective {encode : α → List β} (code : SelfDelimiting encode)
    (full : ∀ a, encode a ≠ []) : Function.Injective (List.flatMap encode) := by
  intro as
  induction as with
  | nil =>
    intro bs same
    cases bs with
    | nil => rfl
    | cons b bs => exact absurd (List.append_eq_nil_iff.mp same.symm).1 (full b)
  | cons a as ih =>
    intro bs same
    cases bs with
    | nil => exact absurd (List.append_eq_nil_iff.mp same).1 (full a)
    | cons b bs =>
      obtain ⟨rfl, rest⟩ := code same
      exact congrArg _ (ih rest)

end SelfDelimiting

end Wire
