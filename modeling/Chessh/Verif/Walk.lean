import Mathlib.Data.Set.Card
import Mathlib.Tactic

/-!
# Walks through a tree

The edges of a node are labelled and come in an order; an edge leads to a node or to an end. A word
is read along a path. A walk in preorder, down to a bound, visits each node above the bound and each
end behind one of them: at a depth above the bound it makes as many visits as there are words of
that length, and at the bound as many as there are words of that length that lead to an end.
-/

namespace Walk

variable {σ α : Type} (next : σ → List (α × Option σ))

/-- The words of a length. -/
def words : Nat → Option σ → List (List α)
  | 0, _ => [[]]
  | _ + 1, none => []
  | n + 1, some s => (next s).flatMap fun edge => (words n edge.2).map (edge.1 :: ·)

/-- The words of a length that lead to an end. -/
def lastWords : Nat → Option σ → List (List α)
  | 0, none => [[]]
  | 0, some _ => []
  | _ + 1, none => []
  | n + 1, some s => (next s).flatMap fun edge => (lastWords n edge.2).map (edge.1 :: ·)

/-- The depths that a walk visits, in its order. -/
def visits : Nat → Option σ → List Nat
  | _, none => [0]
  | 0, some _ => []
  | n + 1, some s => 0 :: (next s).flatMap fun edge => (visits n edge.2).map (· + 1)

/-- The word can be read. -/
def Reads : Option σ → List α → Prop
  | _, [] => True
  | none, _ :: _ => False
  | some s, a :: w => ∃ t, (a, t) ∈ next s ∧ Reads t w

/-- The word can be read, and leads to an end. -/
def Finishes : Option σ → List α → Prop
  | none, [] => True
  | some _, [] => False
  | none, _ :: _ => False
  | some s, a :: w => ∃ t, (a, t) ∈ next s ∧ Finishes t w

variable {next}

/-- A word behind one of the edges. -/
theorem cons_mem_flatMap {edges : List (α × Option σ)} {rest : Option σ → List (List α)} {a : α}
    {w : List α} : (a :: w) ∈ edges.flatMap (fun edge => (rest edge.2).map (edge.1 :: ·)) ↔
      ∃ t, (a, t) ∈ edges ∧ w ∈ rest t := by
  rw [List.mem_flatMap]
  constructor
  · rintro ⟨⟨b, t⟩, edge, member⟩
    obtain ⟨v, member, same⟩ := List.mem_map.mp member
    cases same
    exact ⟨t, edge, member⟩
  · rintro ⟨t, edge, member⟩
    exact ⟨(a, t), edge, List.mem_map.mpr ⟨w, member, rfl⟩⟩

/-- The words of a length are those that can be read. -/
theorem mem_words {n : Nat} {here : Option σ} {w : List α} :
    w ∈ words next n here ↔ w.length = n ∧ Reads next here w := by
  induction n generalizing here w with
  | zero =>
    rw [words, List.mem_singleton, List.length_eq_zero_iff]
    constructor
    · rintro rfl
      exact ⟨rfl, by simp only [Reads]⟩
    · exact fun empty => empty.1
  | succ n ih =>
    cases here with
    | none => cases w <;> simp [words, Reads]
    | some s =>
      cases w with
      | nil => simp [words]
      | cons a w =>
        rw [words, cons_mem_flatMap, List.length_cons, Nat.add_right_cancel_iff, Reads]
        simp only [ih, and_left_comm, exists_and_left]

/-- The words that lead to an end. -/
theorem mem_lastWords {n : Nat} {here : Option σ} {w : List α} :
    w ∈ lastWords next n here ↔ w.length = n ∧ Finishes next here w := by
  induction n generalizing here w with
  | zero => cases here <;> cases w <;> simp [lastWords, Finishes]
  | succ n ih =>
    cases here with
    | none => cases w <;> simp [lastWords, Finishes]
    | some s =>
      cases w with
      | nil => simp [lastWords]
      | cons a w =>
        rw [lastWords, cons_mem_flatMap, List.length_cons, Nat.add_right_cancel_iff, Finishes]
        simp only [ih, and_left_comm, exists_and_left]

/-- One label more. -/
theorem length_words_succ (n : Nat) (s : σ) :
    (words next (n + 1) (some s)).length =
      ((next s).map fun edge => (words next n edge.2).length).sum := by
  simp only [words, List.length_flatMap, List.length_map]

/-- One label in front of a word to an end. -/
theorem length_lastWords_succ (n : Nat) (s : σ) :
    (lastWords next (n + 1) (some s)).length =
      ((next s).map fun edge => (lastWords next n edge.2).length).sum := by
  simp only [lastWords, List.length_flatMap, List.length_map]

/-- The visits at a depth are the words of that length. -/
theorem count_visits (n d : Nat) (here : Option σ) :
    (visits next n here).count d =
      if d < n then (words next d here).length
      else if d = n then (lastWords next d here).length else 0 := by
  induction n generalizing d here with
  | zero =>
    cases here with
    | none => cases d <;> simp [visits, lastWords]
    | some s => cases d <;> simp [visits, lastWords]
  | succ n ih =>
    cases here with
    | none => cases d <;> simp [visits, words, lastWords]
    | some s =>
      cases d with
      | zero =>
        have deeper :
          ((next s).flatMap fun edge => (visits next n edge.2).map (· + 1)).count 0 = 0 := by
          rw [List.count_eq_zero]
          simp
        rw [visits, List.count_cons_self, deeper, if_pos (Nat.succ_pos n), words]
        rfl
      | succ d =>
        have below : ∀ edge : α × Option σ,
            ((visits next n edge.2).map (· + 1)).count (d + 1) = (visits next n edge.2).count d :=
          fun edge => List.count_map_of_injective _ _ (add_left_injective 1) d
        rw [visits, List.count_cons_of_ne (Nat.succ_ne_zero d).symm, List.count_flatMap]
        simp only [Function.comp_def, below, ih, Nat.add_lt_add_iff_right, Nat.add_right_cancel_iff]
        split
        · rw [length_words_succ]
        split
        · rw [length_lastWords_succ]
        · simp

/-- A walk goes no further than its bound. -/
theorem visits_le {n d : Nat} {here : Option σ} (visited : d ∈ visits next n here) : d ≤ n := by
  by_contra beyond
  have none := @count_visits _ _ next n d here
  rw [if_neg (by omega), if_neg (by omega), List.count_eq_zero] at none
  exact none visited

/-- A walk comes to its bound where a word of that length leads to an end. -/
theorem bound_mem_visits {n : Nat} {here : Option σ} :
    n ∈ visits next n here ↔ ∃ w, w.length = n ∧ Finishes next here w := by
  rw [← List.count_pos_iff, count_visits, if_neg (lt_irrefl n), if_pos rfl,
    List.length_pos_iff_exists_mem]
  exact exists_congr fun w => mem_lastWords

/-- A word is listed once when no node has two edges with one label. -/
theorem nodup_words (labels : ∀ s, ((next s).map Prod.fst).Nodup) (n : Nat) (here : Option σ) :
    (words next n here).Nodup := by
  induction n generalizing here with
  | zero => exact List.nodup_singleton _
  | succ n ih =>
    cases here with
    | none => exact List.nodup_nil
    | some s =>
      rw [words, List.nodup_flatMap]
      constructor
      · intro edge _
        exact (ih edge.2).map fun v w same => (List.cons.inj same).2
      · have apart := List.pairwise_map.mp (labels s)
        refine apart.imp fun differ => ?_
        rw [Function.onFun, List.disjoint_left]
        intro w first second
        obtain ⟨v, -, rfl⟩ := List.mem_map.mp first
        obtain ⟨u, -, same⟩ := List.mem_map.mp second
        exact differ (List.cons.inj same).1.symm

/-- How many words can be read. -/
theorem ncard_reads (labels : ∀ s, ((next s).map Prod.fst).Nodup) (n : Nat) (here : Option σ) :
    {w | w.length = n ∧ Reads next here w}.ncard = (words next n here).length := by
  classical
  have listed : {w | w.length = n ∧ Reads next here w} = ↑(words next n here).toFinset := by
    ext w
    rw [Set.mem_ofPred_eq, List.coe_toFinset, Set.mem_ofPred_eq, mem_words]
  rw [listed, Set.ncard_coe_finset, List.toFinset_card_of_nodup (nodup_words labels n here)]

end Walk
