import Mathlib.Data.List.Induction
import Mathlib.Data.Nat.ModEq
import Mathlib.Logic.Function.Basic

/-! An array that entries are written to one after the other, under any assignment of slots. -/
namespace RingLog

structure Ring (α : Type) where
  next : Nat
  slots : Nat → α

section
variable {α : Type} (slotOf : Nat → Nat)

def Ring.push (r : Ring α) (x : α) : Ring α where
  next := r.next + 1
  slots := Function.update r.slots (slotOf r.next) x

/-- The array after all entries, empty at the start. -/
def pushAll (empty : Nat → α) (xs : List α) : Ring α := xs.foldl (Ring.push slotOf) ⟨0, empty⟩

/-- The last entries of the list, up to the size, each in the slot after the one before it,
    and nothing else. -/
def HoldsLast (size : Nat) (empty slots : Nat → α) (xs : List α) : Prop :=
  ∃ first, (∀ k x, xs[k]? = some x → xs.length ≤ k + size → slots ((first + k) % size) = x) ∧
    ∀ s < size, (∀ k < xs.length, xs.length ≤ k + size → (first + k) % size ≠ s) →
      slots s = empty s

variable {slotOf} {empty : Nat → α} {xs : List α} {x : α} {k s size : Nat}

theorem push_all_append (xs : List α) (x : α) :
    pushAll slotOf empty (xs ++ [x]) = (pushAll slotOf empty xs).push slotOf x := by
  unfold pushAll
  rw [List.foldl_append]
  rfl

@[simp] theorem push_all_next (xs : List α) : (pushAll slotOf empty xs).next = xs.length := by
  induction xs using List.reverseRecOn with
  | nil => rfl
  | append_singleton xs x ih => simp [push_all_append, Ring.push, ih]

theorem push_all_slots (xs : List α) (x : α) : (pushAll slotOf empty (xs ++ [x])).slots =
    Function.update (pushAll slotOf empty xs).slots (slotOf xs.length) x := by
  rw [push_all_append, Ring.push, push_all_next]

theorem slot_untouched (untouched : ∀ k < xs.length, slotOf k ≠ s) :
    (pushAll slotOf empty xs).slots s = empty s := by
  induction xs using List.reverseRecOn with
  | nil => rfl
  | append_singleton xs x ih =>
    rw [List.length_append, List.length_singleton] at untouched
    have other : s ≠ slotOf xs.length := (untouched xs.length (by omega)).symm
    rw [push_all_slots, Function.update_of_ne other]
    exact ih fun k small => untouched k (by omega)

theorem slot_held (entry : xs[k]? = some x)
    (last : ∀ j < xs.length, k < j → slotOf j ≠ slotOf k) :
    (pushAll slotOf empty xs).slots (slotOf k) = x := by
  induction xs using List.reverseRecOn with
  | nil => simp at entry
  | append_singleton xs y ih =>
    rw [List.length_append, List.length_singleton] at last
    rw [push_all_slots]
    by_cases newest : k = xs.length
    · subst newest
      rw [List.getElem?_concat_length] at entry
      rw [Function.update_self]
      exact Option.some.inj entry
    · have small : k < xs.length := by
        have bound := (List.getElem?_eq_some_iff.mp entry).1
        rw [List.length_append, List.length_singleton] at bound
        omega
      have other : slotOf k ≠ slotOf xs.length := (last xs.length (by omega) small).symm
      rw [List.getElem?_append_left small] at entry
      rw [Function.update_of_ne other]
      exact ih entry fun j below later => last j (by omega) later

theorem slot_holder (empty : Nat → α) (touched : ∃ k < xs.length, slotOf k = s) :
    ∃ k, slotOf k = s ∧ xs[k]? = some ((pushAll slotOf empty xs).slots s) := by
  induction xs using List.reverseRecOn with
  | nil =>
    obtain ⟨k, small, _⟩ := touched
    exact absurd small (Nat.not_lt_zero k)
  | append_singleton xs y ih =>
    rw [push_all_slots]
    by_cases newest : slotOf xs.length = s
    · refine ⟨xs.length, newest, ?_⟩
      rw [← newest, Function.update_self, List.getElem?_concat_length]
    · obtain ⟨k, small, mine⟩ := touched
      rw [List.length_append, List.length_singleton] at small
      have before : k < xs.length := by
        have other : k ≠ xs.length := fun same => newest (same ▸ mine)
        omega
      obtain ⟨j, there, entry⟩ := ih ⟨k, before, mine⟩
      have inside := (List.getElem?_eq_some_iff.mp entry).1
      refine ⟨j, there, ?_⟩
      rw [Function.update_of_ne fun same => newest same.symm, List.getElem?_append_left inside]
      exact entry

/-- An entry that occurs once is found in its own slot alone. -/
theorem slot_of_unique (touched : ∃ k < xs.length, slotOf k = s)
    (unique : ∀ j, xs[j]? = some x → j = k) (found : (pushAll slotOf empty xs).slots s = x) :
    slotOf k = s := by
  obtain ⟨j, there, holds⟩ := slot_holder empty touched
  rw [found] at holds
  rw [← unique j holds]
  exact there

theorem mod_ne_of_lt {a b : Nat} (order : a < b) (close : b < a + size) : b % size ≠ a % size := by
  intro same
  have divides : size ∣ b - a := (Nat.modEq_iff_dvd' (Nat.le_of_lt order)).mp same.symm
  have bound := Nat.le_of_dvd (by omega) divides
  omega

theorem turn_reaches (start : Nat) (small : s < size) : ∃ i < size, (start + i) % size = s := by
  have positive : 0 < size := by omega
  have bound := Nat.mod_lt start positive
  refine ⟨(s + size - start % size) % size, Nat.mod_lt _ positive, ?_⟩
  rw [Nat.add_mod_mod, ← Nat.mod_add_mod]
  have sum : start % size + (s + size - start % size) = s + size := by omega
  rw [sum, Nat.add_mod_right, Nat.mod_eq_of_lt small]

/-- Slots taken in turn by the last entries: the array is a ring. -/
theorem holds_last {first : Nat}
    (turn : ∀ k < xs.length, xs.length ≤ k + size → slotOf k = (first + k) % size) :
    HoldsLast size empty (pushAll slotOf empty xs).slots xs := by
  refine ⟨first, ?_, ?_⟩
  · intro k x entry recent
    have inside := (List.getElem?_eq_some_iff.mp entry).1
    rw [← turn k inside recent]
    apply slot_held entry
    intro j small later
    rw [turn j small (by omega), turn k inside recent]
    exact mod_ne_of_lt (by omega) (by omega)
  · intro s small free
    by_cases short : xs.length < size
    · apply slot_untouched
      intro k below
      rw [turn k below (by omega)]
      exact free k below (by omega)
    · -- the last entries fill the whole array
      obtain ⟨i, inside, reached⟩ := turn_reaches (first + (xs.length - size)) small
      have slot : (first + (xs.length - size + i)) % size = s := by
        rw [← Nat.add_assoc]
        exact reached
      exact absurd slot (free _ (by omega) (by omega))

end
end RingLog
