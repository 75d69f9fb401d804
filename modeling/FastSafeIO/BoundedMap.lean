import Mathlib.Data.List.AList

/-!
A map with a fixed number of places. A new key finds a place or is refused; the value
of a key that is already there can always be replaced.
-/
structure BoundedMap (κ ν : Type) (places : Nat) where
  entries : AList fun _ : κ => ν
  fits : entries.keys.length ≤ places

namespace BoundedMap
variable {κ ν : Type} {places : Nat}

def empty : BoundedMap κ ν places := ⟨∅, Nat.zero_le _⟩

variable [DecidableEq κ]

def lookup (m : BoundedMap κ ν places) (k : κ) : Option ν := m.entries.lookup k

def Takes (m : BoundedMap κ ν places) (k : κ) : Prop :=
  k ∈ m.entries ∨ m.entries.keys.length < places

instance (m : BoundedMap κ ν places) (k : κ) : Decidable (m.Takes k) :=
  inferInstanceAs (Decidable (_ ∨ _))

theorem length_insert_le {m : BoundedMap κ ν places} {k : κ} (takes : m.Takes k) (v : ν) :
    (m.entries.insert k v).keys.length ≤ places := by
  rw [AList.keys_insert, List.length_cons]
  have fits := m.fits
  have shrink : (m.entries.keys.erase k).length ≤ m.entries.keys.length :=
    List.erase_sublist.length_le
  cases takes with
  | inl held =>
    have member : k ∈ m.entries.keys := AList.mem_keys.mp held
    have erased := List.length_erase_of_mem member
    have positive := List.length_pos_of_mem member
    omega
  | inr room => omega

theorem length_erase_le (m : BoundedMap κ ν places) (k : κ) :
    (m.entries.erase k).keys.length ≤ places := by
  rw [AList.keys_erase]
  exact Nat.le_trans List.erase_sublist.length_le m.fits

def update (m : BoundedMap κ ν places) (k : κ) (v : ν) : BoundedMap κ ν places :=
  if takes : m.Takes k then ⟨m.entries.insert k v, length_insert_le takes v⟩ else m

def delete (m : BoundedMap κ ν places) (k : κ) : BoundedMap κ ν places :=
  ⟨m.entries.erase k, length_erase_le m k⟩

@[simp] theorem lookup_empty (k : κ) : (empty : BoundedMap κ ν places).lookup k = none := rfl

theorem lookup_update {m : BoundedMap κ ν places} {k : κ} (takes : m.Takes k) (v : ν) (i : κ) :
    (m.update k v).lookup i = if i = k then some v else m.lookup i := by
  unfold update lookup
  rw [dif_pos takes]
  by_cases here : i = k
  · rw [if_pos here, here]
    exact AList.lookup_insert _
  · rw [if_neg here]
    exact AList.lookup_insert_ne here

theorem lookup_delete (m : BoundedMap κ ν places) (k i : κ) :
    (m.delete k).lookup i = if i = k then none else m.lookup i := by
  unfold delete lookup
  by_cases here : i = k
  · rw [if_pos here, here]
    exact AList.lookup_erase _ _
  · rw [if_neg here]
    exact AList.lookup_erase_ne here

end BoundedMap
