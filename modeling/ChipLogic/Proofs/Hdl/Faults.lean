import ChipLogic.Chip.Builder
import ChipLogic.Hdl.Parser

/-!
# Every fault of a text is an error

Reading a text reports faults of the text (`Hdl.allFaults_parse`), and declaring its chips reports
pins that cannot be declared. All of these are errors (`Hdl.allErrors_parse`,
`Definition.allErrors_ofDocument`), so a text that registers nothing leaves an error behind.
-/

namespace ChipLogic

namespace Hdl

/-- Only errors. -/
def AllErrors (ds : List Diagnostic) : Prop :=
  ∀ d ∈ ds, d.isError

theorem AllErrors.nil : AllErrors [] := by
  intro d hd
  cases hd

theorem AllErrors.append {ds es : List Diagnostic} (hd : AllErrors ds) (he : AllErrors es) :
    AllErrors (ds ++ es) := by
  intro d h
  rcases List.mem_append.1 h with h | h
  · exact hd d h
  · exact he d h

/-- Only faults of a text. -/
def AllFaults (ds : List Diagnostic) : Prop :=
  ∀ d ∈ ds, ∃ (f : Fault) (span : Span), d = f.report span

theorem AllFaults.nil : AllFaults [] := by
  intro d hd
  cases hd

theorem AllFaults.cons {f : Fault} {span : Span} {ds : List Diagnostic} (h : AllFaults ds) :
    AllFaults (f.report span :: ds) := by
  intro d hd
  rcases List.mem_cons.1 hd with rfl | hd
  · exact ⟨f, span, rfl⟩
  · exact h d hd

theorem AllFaults.append {ds es : List Diagnostic} (hd : AllFaults ds) (he : AllFaults es) :
    AllFaults (ds ++ es) := by
  intro d h
  rcases List.mem_append.1 h with h | h
  · exact hd d h
  · exact he d h

theorem AllFaults.allErrors {ds : List Diagnostic} (h : AllFaults ds) : AllErrors ds := by
  intro d hd
  obtain ⟨f, span, rfl⟩ := h d hd
  rfl

theorem allFaults_faultsFrom (file : Option Nat) (offset : Nat) (pieces : List Piece) :
    AllFaults (faultsFrom file offset pieces) := by
  induction pieces generalizing offset with
  | nil => exact .nil
  | cons piece pieces ih =>
    unfold faultsFrom
    dsimp only
    split
    · exact (ih _).cons
    · exact (ih _).cons
    · exact ih _

theorem allFaults_pinList (c : Cursor) : AllFaults (pinList c).faults := by
  fun_induction pinList c with
  | case1 => exact AllFaults.nil.cons
  | case2 _ _ _ _ _ _ ih => exact ih
  | case3 => exact AllFaults.nil.cons
  | case4 => exact .nil

theorem allFaults_partList (c : Cursor) : AllFaults (partList c).faults := by
  fun_induction partList c with
  | case1 => exact .nil
  | case2 _ _ _ _ _ ih => exact ih.cons
  | case3 _ _ _ _ _ _ ih => exact ih

theorem allFaults_partSection (c : Cursor) : AllFaults (partSection c).faults := by
  unfold partSection
  split
  · exact AllFaults.nil.cons
  · exact allFaults_partList _

theorem allFaults_sections (c : Cursor) : AllFaults (sections c).faults := by
  fun_induction sections c with
  | case1 => exact .nil
  | case2 _ _ _ _ _ ih => exact (allFaults_pinList _).append ih
  | case3 _ _ _ _ _ _ ih => exact (allFaults_pinList _).append ih
  | case4 _ _ _ _ _ _ _ ih => exact (allFaults_partSection _).append ih
  | case5 _ _ _ _ _ _ ih => exact ih.cons

theorem allFaults_chip (c : Cursor) : AllFaults (chip c).faults := by
  unfold chip
  split
  · exact AllFaults.nil.cons
  · dsimp only
    split
    · exact (allFaults_sections _).append AllFaults.nil.cons
    · exact allFaults_sections _

theorem allFaults_items (c : Cursor) : AllFaults (items c).faults := by
  fun_induction items c with
  | case1 => exact .nil
  | case2 c _ _ _ _ _ _ ih => exact (allFaults_chip c).append ih
  | case3 c _ _ _ _ _ ih => exact (allFaults_chip c).append ih
  | case4 _ _ _ _ ih => exact ih.cons

theorem allFaults_parse (file : Option Nat) (text : String) :
    AllFaults (parse file text).faults :=
  (allFaults_faultsFrom _ _ _).append (allFaults_items _)

theorem allErrors_parse (file : Option Nat) (text : String) :
    AllErrors (parse file text).faults :=
  (allFaults_parse file text).allErrors

end Hdl

namespace Definition

/-- What can be wrong with declared pins is that one of them is refused. -/
theorem exists_refusal_of_mem_declare {d : Definition} {ps : List Pin} {e : Diagnostic}
    (he : e ∈ (d.declare ps).2) :
    ∃ chip pin refusal span, e = (Problem.pinRefused chip pin refusal).report span := by
  induction ps generalizing d with
  | nil => cases he
  | cons p ps ih =>
    unfold declare at he
    split at he
    · exact ih he
    · rcases List.mem_cons.1 he with rfl | he
      · exact ⟨_, _, _, _, rfl⟩
      · exact ih he

theorem exists_refusal_of_mem_ofDocument {doc : Hdl.Document} {e : Diagnostic}
    (he : e ∈ (ofDocument doc).faults) :
    ∃ chip pin refusal span, e = (Problem.pinRefused chip pin refusal).report span := by
  obtain ⟨x, hx, he⟩ := List.mem_flatMap.1 he
  obtain ⟨c, -, rfl⟩ := List.mem_map.1 hx
  exact exists_refusal_of_mem_declare he

theorem allErrors_ofDocument (doc : Hdl.Document) : Hdl.AllErrors (ofDocument doc).faults := by
  intro e he
  obtain ⟨chip, pin, refusal, span, rfl⟩ := exists_refusal_of_mem_ofDocument he
  rfl

end Definition

end ChipLogic
