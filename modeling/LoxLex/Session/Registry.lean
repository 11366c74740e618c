import LoxLex.Text.Basic

/-!
# Registries

A `Registry` holds values under names. A name that is given again belongs to the new value.
-/

namespace LoxLex

structure Registry (α : Type) where
  entries : List (Text × α) := []

namespace Registry

variable {α : Type}

def find? (r : Registry α) (name : Text) : Option α := r.entries.lookup name

def put (r : Registry α) (name : Text) (value : α) : Registry α :=
  ⟨(name, value) :: r.entries.filter fun e => e.1 ≠ name⟩

theorem find?_put (r : Registry α) (name other : Text) (value : α) :
    (r.put name value).find? other = if other = name then some value else r.find? other := by
  by_cases h : other = name
  · simp [find?, put, h]
  · obtain ⟨entries⟩ := r
    simp only [find?, put, List.lookup_cons, beq_false_of_ne h, h, if_false]
    induction entries with
    | nil => rfl
    | cons e es ih =>
      obtain ⟨key, x⟩ := e
      by_cases he : key = name
      · simpa [he, List.lookup_cons, beq_false_of_ne h] using ih
      · have hk : ((key, x) :: es).filter (fun e => e.1 ≠ name) =
            (key, x) :: es.filter fun e => e.1 ≠ name := List.filter_cons_of_pos (by simp [he])
        rw [hk, List.lookup_cons, List.lookup_cons, ih]

end Registry

end LoxLex
