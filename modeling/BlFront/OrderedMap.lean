/-!
# Maps in insertion order

A map is a list of entries with distinct keys.  A new key goes to the end; a known key keeps
its place and takes the new value.
-/

namespace BlFront

abbrev OrderedMap (κ α : Type) : Type := List (κ × α)

namespace OrderedMap

variable {κ α : Type} [BEq κ]

def get? : OrderedMap κ α → κ → Option α
  | [], _ => none
  | (k, v) :: rest, key => if key == k then some v else get? rest key

def contains (m : OrderedMap κ α) (key : κ) : Bool := (m.get? key).isSome

def insert (key : κ) (value : α) : OrderedMap κ α → OrderedMap κ α
  | [] => [(key, value)]
  | (k, v) :: rest => if key == k then (key, value) :: rest else (k, v) :: insert key value rest

def keys (m : OrderedMap κ α) : List κ := m.map Prod.fst

@[simp] theorem get?_nil (key : κ) : get? ([] : OrderedMap κ α) key = none := rfl

theorem get?_insert [LawfulBEq κ] (m : OrderedMap κ α) (key other : κ) (value : α) :
    (insert key value m).get? other = if other == key then some value else m.get? other := by
  induction m with
  | nil => rfl
  | cons entry rest ih =>
    obtain ⟨k, v⟩ := entry
    by_cases hk : key = k
    · subst hk
      simp only [insert, get?, beq_self_eq_true, if_true]
      split <;> rfl
    · simp only [insert, get?, beq_iff_eq, hk, if_false, ih]
      by_cases ho : other = k
      · subst ho
        simp [Ne.symm hk]
      · simp [ho]

end OrderedMap

end BlFront
