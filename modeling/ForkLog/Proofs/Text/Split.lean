import Mathlib
import ForkLog.Text.Split

/-! # Splitting what was joined

Texts in which a mark does not occur are what is found between the marks when they are joined by it.
-/

namespace ForkLog

set_option autoImplicit false

variable {α : Type} [DecidableEq α] {mark : α}

theorem splitAtEach_append_mark (mark : α) (front rest : List α) :
    splitAtEach mark (front ++ mark :: rest) = splitAtEach mark front ++ splitAtEach mark rest := by
  induction front with
  | nil => simp [splitAtEach_cons, splitStep]
  | cons a front ih =>
    rw [List.cons_append, splitAtEach_cons, splitAtEach_cons, ih]
    unfold splitStep
    split
    · rfl
    · cases hPieces : splitAtEach mark front with
      | nil => exact absurd hPieces (splitAtEach_ne_nil mark front)
      | cons piece pieces => rfl

theorem splitAtEach_intercalate {pieces : List (List α)} (h : ∀ piece ∈ pieces, mark ∉ piece)
    (hSome : pieces ≠ []) : splitAtEach mark ([mark].intercalate pieces) = pieces := by
  induction pieces with
  | nil => exact absurd rfl hSome
  | cons piece rest ih =>
    obtain ⟨hPiece, hRest⟩ := List.forall_mem_cons.mp h
    cases rest with
    | nil => rw [List.intercalate_singleton, splitAtEach_of_not_mem hPiece]
    | cons next rest =>
      rw [List.intercalate_cons_cons, List.append_assoc, List.singleton_append,
        splitAtEach_append hPiece, ih hRest (List.cons_ne_nil next rest)]

theorem splitFirst?_append {before : List α} (h : mark ∉ before) (after : List α) :
    splitFirst? mark (before ++ mark :: after) = some (before, after) := by
  induction before with
  | nil => rw [List.nil_append, splitFirst?, if_pos rfl]
  | cons a before ih =>
    obtain ⟨hFirst, hRest⟩ := not_or.mp (mt List.mem_cons.mpr h)
    rw [List.cons_append, splitFirst?, if_neg (Ne.symm hFirst), ih hRest, Option.map_some]

end ForkLog
