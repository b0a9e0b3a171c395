/-!
Finite maps from names to values, as lists of pairs in which no name occurs twice.
-/

namespace LoxLang

abbrev Bindings (α : Type) := List (String × α)

namespace Bindings

variable {α : Type}

def find? : Bindings α → String → Option α
  | [], _ => none
  | (k, v) :: rest, name => if k = name then some v else find? rest name

/-- Gives a name a value, in the place of the one that it has. -/
def insert : Bindings α → String → α → Bindings α
  | [], name, value => [(name, value)]
  | (k, v) :: rest, name, value =>
    if k = name then (name, value) :: rest else (k, v) :: insert rest name value

def contains (b : Bindings α) (name : String) : Bool :=
  (b.find? name).isSome

def names (b : Bindings α) : List String :=
  b.map Prod.fst

theorem find?_insert (b : Bindings α) (name other : String) (value : α) :
    (b.insert name value).find? other = if name = other then some value else b.find? other := by
  induction b with
  | nil => rfl
  | cons entry rest ih =>
    obtain ⟨k, v⟩ := entry
    by_cases hk : k = name
    · subst hk
      by_cases ho : k = other <;> simp [insert, find?, ho]
    · by_cases ho : k = other
      · subst ho
        have : ¬name = k := fun h => hk h.symm
        simp [insert, find?, hk, this]
      · simp [insert, find?, hk, ho, ih]

end Bindings

end LoxLang
