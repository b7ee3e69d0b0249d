/-! # Splitting at a mark -/

namespace ForkLog

set_option autoImplicit false

variable {α : Type} [DecidableEq α]

/-- Puts an element in front of a text that has been split. -/
def splitStep (mark a : α) (pieces : List (List α)) : List (List α) :=
  if a = mark then [] :: pieces
  else
    match pieces with
    | [] => [[a]]
    | piece :: rest => (a :: piece) :: rest

/-- The pieces between the marks of a text: one more than there are marks. -/
def splitAtEach (mark : α) (text : List α) : List (List α) := text.foldr (splitStep mark) [[]]

def splitFirst? (mark : α) : List α → Option (List α × List α)
  | [] => none
  | a :: rest =>
    if a = mark then some ([], rest)
    else (splitFirst? mark rest).map fun (before, after) => (a :: before, after)

@[simp] theorem splitAtEach_nil (mark : α) : splitAtEach mark [] = [[]] := rfl

theorem splitAtEach_cons (mark a : α) (rest : List α) :
    splitAtEach mark (a :: rest) = splitStep mark a (splitAtEach mark rest) := rfl

theorem splitAtEach_ne_nil (mark : α) (text : List α) : splitAtEach mark text ≠ [] := by
  cases text with
  | nil => simp
  | cons a rest =>
    rw [splitAtEach_cons]
    unfold splitStep
    split
    · simp
    · split <;> simp

theorem splitAtEach_of_not_mem {mark : α} {text : List α} (h : mark ∉ text) :
    splitAtEach mark text = [text] := by
  induction text with
  | nil => rfl
  | cons a rest ih =>
    rw [List.mem_cons, not_or] at h
    simp [splitAtEach_cons, ih h.2, splitStep, Ne.symm h.1]

theorem splitAtEach_append {mark : α} {piece : List α} (h : mark ∉ piece) (rest : List α) :
    splitAtEach mark (piece ++ mark :: rest) = piece :: splitAtEach mark rest := by
  induction piece with
  | nil => simp [splitAtEach_cons, splitStep]
  | cons a piece ih =>
    rw [List.mem_cons, not_or] at h
    simp [splitAtEach_cons, ih h.2, splitStep, Ne.symm h.1]

end ForkLog
