import Mathlib
import ForkLog.Http.Api
import ForkLog.Proofs.Text.Utf8

/-! # Routes without parameters

A route without braces is the route of one path, which is the route itself.
-/

namespace ForkLog.Http

set_option autoImplicit false

namespace Route

/-- Without braces. -/
def Plain (text : Bytes) : Prop := ∀ b ∈ text, b ≠ opening ∧ b ≠ closing

instance (text : Bytes) : Decidable (Plain text) := List.decidableBAll _ _

theorem Plain.append {front rest : Bytes} (h : Plain front) (h' : Plain rest) :
    Plain (front ++ rest) :=
  List.forall_mem_append.mpr ⟨h, h'⟩

theorem Plain.marks_eq {text : Bytes} (h : Plain text) :
    marks text = text.map fun b => ⟨b, false⟩ := by
  induction text using marks.induct with
  | case1 => rfl
  | case2 b => rfl
  | case3 b c rest hDouble ih =>
    obtain ⟨hOpening, hClosing⟩ := h b List.mem_cons_self
    simp [hOpening, hClosing] at hDouble
  | case4 b c rest hDouble ih =>
    rw [marks, if_neg hDouble, ih (List.forall_mem_cons.mp h).2]
    rfl

theorem Plain.readPieces_eq {text : Bytes} (h : Plain text) (room : Nat) :
    readPieces room (text.map fun b => ⟨b, false⟩) = .ok (text.map .literal) := by
  induction text with
  | nil => rw [List.map_nil, readPieces, List.map_nil]
  | cons b text ih =>
    obtain ⟨⟨hOpening, hClosing⟩, hText⟩ := List.forall_mem_cons.mp h
    rw [List.map_cons, readPieces, if_neg (by simp [Mark.isClosing, hClosing]),
      if_neg (by simp [Mark.isOpening, hOpening]), ih hText]
    rfl

theorem check_literal (text : Bytes) : check (text.map .literal) = .ok () := by
  induction text with
  | nil => rfl
  | cons b text ih => rw [List.map_cons, check, ih]

theorem Plain.read_eq {text : Bytes} (h : Plain text) : read text = .ok (text.map .literal) := by
  simp only [read, h.marks_eq, h.readPieces_eq, check_literal, Except.map]

theorem accepts_literal (text path : Bytes) :
    accepts (text.map .literal) path = decide (path = text) := by
  induction text generalizing path with
  | nil => cases path <;> rfl
  | cons b text ih =>
    cases path with
    | nil => rfl
    | cons c path => simp [accepts, ih, eq_comm]

end Route

namespace Api

theorem pathOf_eq_iff {beginning : List Char} {endpoint other : Endpoint} :
    Utf8.encodeChars (pathOf beginning endpoint) = Utf8.encodeChars (pathOf beginning other) ↔
      endpoint = other := by
  refine ⟨fun h => ?_, fun h => h ▸ rfl⟩
  have hPath : pathOf beginning endpoint = pathOf beginning other :=
    Except.ok.inj (by rw [← Utf8.decodeChars_encodeChars, h, Utf8.decodeChars_encodeChars])
  have hText : endpoint.path.toList = other.path.toList := List.append_cancel_left hPath
  revert hText
  cases endpoint <;> cases other <;> decide

theorem plain_pathOf {beginning : List Char} (h : Route.Plain (Utf8.encodeChars beginning))
    (endpoint : Endpoint) : Route.Plain (Utf8.encodeChars (pathOf beginning endpoint)) := by
  have hPath : Route.Plain (Utf8.encodeChars endpoint.path.toList) := by
    cases endpoint <;> decide
  rw [pathOf, Utf8.encodeChars, List.flatMap_append]
  exact h.append hPath

/-- If what all paths begin with has no braces, the interface is there, and each question is asked
at its own path. -/
theorem build_of_plain {beginning : Option String}
    (h : Route.Plain (Utf8.encodeChars (normalize beginning))) :
    ∃ api, build beginning = .ok api ∧
      ∀ endpoint, api.endpoint? (pathOf (normalize beginning) endpoint) = some endpoint := by
  let found (endpoint : Endpoint) : Route × Endpoint :=
    ((Utf8.encodeChars (pathOf (normalize beginning) endpoint)).map .literal, endpoint)
  have hRoute : route (normalize beginning) = fun endpoint => pure (found endpoint) := by
    funext endpoint
    rw [route, (plain_pathOf h endpoint).read_eq]
    rfl
  refine ⟨⟨Endpoint.all.map found⟩, ?_, fun endpoint => ?_⟩
  · rw [build, hRoute, List.mapM_pure]
    rfl
  · have hFind : Endpoint.all.find? (fun other => decide (endpoint = other)) = some endpoint := by
      cases endpoint <;> rfl
    simp only [endpoint?, List.find?_map, Function.comp_def, found, Route.accepts_literal,
      pathOf_eq_iff, hFind, Option.map_some]

end Api

end ForkLog.Http
