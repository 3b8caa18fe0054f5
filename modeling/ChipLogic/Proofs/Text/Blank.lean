import ChipLogic.Text.Blank
import Mathlib.Data.List.TakeWhile

/-!
# Trimmed texts

The **core** of a text is what is left between the blanks at its start and at its end
(`Trims`): a middle part that neither starts nor ends with a blank, between blanks. Every text has
one core, which `trimBlank` finds (`trims_iff`). It is empty if the text is blank throughout.
-/

namespace ChipLogic

/-- The core of the text is what stands between the blanks around it. -/
structure Trims (text core : List Char) : Prop where
  around : ∃ front back, text = front ++ (core ++ back) ∧
    (∀ c ∈ front, isBlank c = true) ∧ ∀ c ∈ back, isBlank c = true
  first : ∀ c, core.head? = some c → isBlank c = false
  last : ∀ c, core.getLast? = some c → isBlank c = false

variable {text core : List Char}

theorem isBlank_head?_dropWhile {c : Char} (h : (text.dropWhile isBlank).head? = some c) :
    isBlank c = false := by
  have hnot := List.head?_dropWhile_not isBlank text
  rw [h] at hnot
  simpa using hnot

theorem trims_trimBlank (text : List Char) : Trims text (trimBlank text) := by
  -- the blanks at the end are those at the start of what is left, read backwards
  let rest := text.dropWhile isBlank
  let back := (rest.reverse.takeWhile isBlank).reverse
  have hrest : trimBlank text ++ back = rest := by
    have hend := List.takeWhile_append_dropWhile (p := isBlank) (l := rest.reverse)
    rw [trimBlank, ← List.reverse_append, hend, List.reverse_reverse]
  refine ⟨⟨text.takeWhile isBlank, back, ?_, ?_, ?_⟩, ?_, ?_⟩
  · rw [hrest, List.takeWhile_append_dropWhile]
  · intro c hc
    exact List.mem_takeWhile_imp hc
  · intro c hc
    exact List.mem_takeWhile_imp (List.mem_reverse.1 hc)
  · intro c hc
    have hhead : rest.head? = some c := by
      rw [← hrest, List.head?_append, hc, Option.some_or]
    exact isBlank_head?_dropWhile hhead
  · intro c hc
    rw [trimBlank, List.getLast?_reverse] at hc
    exact isBlank_head?_dropWhile hc

/-- Blanks at the start go. -/
theorem dropWhile_blank {front : List Char} (hf : ∀ c ∈ front, isBlank c = true)
    (cs : List Char) (hcs : ∀ c, cs.head? = some c → isBlank c = false) :
    (front ++ cs).dropWhile isBlank = cs := by
  rw [List.dropWhile_append_of_pos hf]
  cases cs with
  | nil => rfl
  | cons c cs => simp [hcs c rfl]

/-- **A text has one core**, and trimming finds it. -/
theorem trims_iff : Trims text core ↔ trimBlank text = core := by
  constructor
  · rintro ⟨⟨front, back, rfl, hf, hb⟩, hfirst, hlast⟩
    unfold trimBlank
    cases core with
    | nil =>
      have hall : ∀ c ∈ front ++ back, isBlank c = true := by
        intro c hc
        rcases List.mem_append.1 hc with hc | hc
        · exact hf c hc
        · exact hb c hc
      have hnone := dropWhile_blank hall [] (by simp)
      rw [List.append_nil] at hnone
      simp [hnone]
    | cons c cs =>
      have hback : ∀ c ∈ back.reverse, isBlank c = true := by simpa using hb
      have hrev : ∀ d, (c :: cs).reverse.head? = some d → isBlank d = false := by
        rw [List.head?_reverse]
        exact hlast
      rw [dropWhile_blank hf ((c :: cs) ++ back) hfirst, List.reverse_append,
        dropWhile_blank hback _ hrev, List.reverse_reverse]
  · rintro rfl
    exact trims_trimBlank text

/-- There is a core just if not all is blank. -/
theorem Trims.eq_nil_iff (h : Trims text core) : core = [] ↔ ∀ c ∈ text, isBlank c = true := by
  obtain ⟨⟨front, back, rfl, hf, hb⟩, hfirst, -⟩ := h
  constructor
  · rintro rfl c hc
    rw [List.nil_append, List.mem_append] at hc
    exact hc.elim (hf c) (hb c)
  · intro hall
    cases core with
    | nil => rfl
    | cons c cs =>
      have hblank := hall c (by simp)
      rw [hfirst c rfl] at hblank
      cases hblank

end ChipLogic
