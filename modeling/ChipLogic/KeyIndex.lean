/-!
# Tables of keys

A table of keys tells where something with a key stands. A key is entered when the thing is added,
and a key that is entered again stands for the later place.

A table is made from a row of things by entering their keys one by one; then looking up a key gives
the last place in the row that has it (`lastIndex?`).
-/

namespace ChipLogic

/-- The position of the last element with a property. -/
def lastIndex? {α : Type} (p : α → Bool) : List α → Option Nat
  | [] => none
  | x :: xs =>
    match lastIndex? p xs with
    | some i => some (i + 1)
    | none => if p x then some 0 else none

theorem lastIndex?_eq_none_iff {α : Type} {p : α → Bool} {xs : List α} :
    lastIndex? p xs = none ↔ ∀ x ∈ xs, p x = false := by
  induction xs with
  | nil => simp [lastIndex?]
  | cons y ys ih =>
    simp only [lastIndex?, List.mem_cons, forall_eq_or_imp]
    cases h : lastIndex? p ys with
    | some i => simp [h] at ih ⊢; intro _; exact ih
    | none => cases hy : p y <;> simp_all

theorem getElem?_of_lastIndex? {α : Type} {p : α → Bool} {xs : List α} {i : Nat}
    (h : lastIndex? p xs = some i) : ∃ x, xs[i]? = some x ∧ p x := by
  induction xs generalizing i with
  | nil => cases h
  | cons y ys ih =>
    simp only [lastIndex?] at h
    split at h
    · next j hj => cases h; simpa using ih hj
    · split at h
      · next hy => cases h; exact ⟨y, rfl, hy⟩
      · cases h

theorem lastIndex?_map {α β : Type} (p : β → Bool) (f : α → β) (xs : List α) :
    lastIndex? p (xs.map f) = lastIndex? (fun x => p (f x)) xs := by
  induction xs with
  | nil => rfl
  | cons x xs ih => simp only [List.map_cons, lastIndex?, ih]

/-- An element at the end comes first in the search. -/
theorem lastIndex?_concat {α : Type} (p : α → Bool) (xs : List α) (x : α) :
    lastIndex? p (xs ++ [x]) = if p x then some xs.length else lastIndex? p xs := by
  induction xs with
  | nil => simp [lastIndex?]
  | cons y ys ih =>
    simp only [List.cons_append, lastIndex?, ih]
    by_cases hx : p x <;> simp [hx]

/-- Keys and the places that they were entered for, the latest first. -/
structure KeyIndex where
  entries : List (String × Nat) := []
  deriving DecidableEq, Repr, Inhabited

namespace KeyIndex

/-- The place that a key stands for. -/
def find? (t : KeyIndex) (key : String) : Option Nat := t.entries.lookup key

/-- Enters a key for a place. -/
def insert (t : KeyIndex) (key : String) (place : Nat) : KeyIndex := ⟨(key, place) :: t.entries⟩

theorem find?_insert (t : KeyIndex) (key : String) (place : Nat) (other : String) :
    (t.insert key place).find? other = if key = other then some place else t.find? other := by
  rw [find?, insert, List.lookup_cons]
  by_cases h : key = other
  · subst h
    simp
  · have hne : (other == key) = false := by simpa using fun he => h he.symm
    rw [hne, if_neg h]
    rfl

/-- The table has the keys of a row of things, each for its place. -/
def Agrees {α : Type} (t : KeyIndex) (key : α → String) (xs : List α) : Prop :=
  ∀ k, t.find? k = lastIndex? (key · == k) xs

theorem Agrees.empty {α : Type} (key : α → String) : Agrees {} key [] := fun _ => rfl

/-- Entering the key of what is added keeps a table up to date. -/
theorem Agrees.insert {α : Type} {t : KeyIndex} {key : α → String} {xs : List α}
    (h : t.Agrees key xs) (x : α) : (t.insert (key x) xs.length).Agrees key (xs ++ [x]) := by
  intro k
  rw [find?_insert, lastIndex?_concat, h k]
  simp

/-- Only the keys matter. -/
theorem Agrees.congr {α : Type} {t : KeyIndex} {key : α → String} {xs ys : List α}
    (h : t.Agrees key xs) (hkeys : ys.map key = xs.map key) : t.Agrees key ys := by
  intro k
  rw [h k, ← lastIndex?_map (· == k) key xs, ← hkeys, lastIndex?_map]

end KeyIndex

end ChipLogic
