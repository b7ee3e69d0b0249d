import Mathlib
import ForkLog.Proofs.Http.Route
import ForkLog.Proofs.Query

/-! # Reading by key

What is sent back for one key, and what for many. Many keys are read with one call on the store, and
what is found is put back together with the keys in their order; one key that is not there fails the
whole. Either way nothing is in the answer that reading the keys one by one would not have given.
-/

namespace ForkLog

set_option autoImplicit false

namespace Query

theorem allFound_map_some (values : List Bytes) : allFound (values.map some) = .ok values := by
  induction values with
  | nil => rfl
  | cons value values ih => rw [List.map_cons, allFound, ih]; rfl

theorem allFound_of_mem {found : List (Option Bytes)} (h : none ∈ found) :
    allFound found = .error .notFound := by
  induction found with
  | nil => exact absurd h List.not_mem_nil
  | cons value? found ih =>
    cases value? with
    | none => rfl
    | some value =>
      obtain hFirst | hRest := List.mem_cons.mp h
      · exact absurd hFirst (Option.some_ne_none value).symm
      · rw [allFound, ih hRest]; rfl

end Query

namespace Http

theorem Backend.runQuery_ofStore {σ α : Type} [Store σ] {rowsLimit : Nat} {query : Query α}
    {store : σ} {result : Except Error α} (h : query.answer rowsLimit store = some result) :
    (Backend.ofStore rowsLimit store).runQuery query = result.mapError Failure.ofError := by
  obtain ⟨step, hStep, rfl⟩ := Option.map_eq_some_iff.mp h
  simp only [runQuery, ofStore, hStep, Action.outcome]
  cases step store <;> rfl

variable {rowsLimit : Nat} {contents : Contents}

/-- The rows that are in the contents under their keys. -/
def Stored (contents : Contents) (rows : List Row) : Prop :=
  ∀ row ∈ rows, contents[Key.user row.key]? = some row.value

theorem exists_stored {keys : List String} (h : ∀ key ∈ keys, contents[Key.user key]? ≠ none) :
    ∃ rows, rows.map Row.key = keys ∧ Stored contents rows := by
  refine ⟨keys.map fun key => ⟨key, contents[Key.user key]?.getD []⟩, ?_, ?_⟩
  · rw [List.map_map]
    exact List.map_id keys
  · intro row hRow
    obtain ⟨key, hKey, rfl⟩ := List.mem_map.mp hRow
    obtain ⟨value, hValue⟩ := Option.ne_none_iff_exists'.mp (h key hKey)
    simp only [hValue, Option.getD_some]

namespace Endpoint

theorem answer_get {q : QueryString} {key : String} (h : q.get? "key" = some key) :
    Endpoint.get.answer (.ofStore rowsLimit contents) q =
      contents[Key.user key]?.elim (.error (.notFound "not found")) fun value =>
        .ok (rowJson ⟨key, value⟩) := by
  have hRequire : q.require "key" = .ok key := by rw [QueryString.require, h]
  have hRun : (Backend.ofStore rowsLimit contents).runQuery (.get key) =
      (contents[Key.user key]?.elim (Except.error .notFound) .ok).mapError Failure.ofError :=
    Backend.runQuery_ofStore (Query.answer_get rowsLimit key)
  simp only [answer, hRequire, hRun, bind, Except.bind]
  cases contents[Key.user key]? <;> rfl

theorem answer_getMany {q : QueryString} (h : q.getAll "keys" ≠ []) :
    Endpoint.getMany.answer (.ofStore rowsLimit contents) q =
      ((Query.allFound ((q.getAll "keys").map fun key => contents[Key.user key]?)).mapError
        Failure.ofError).map fun values =>
          .array (((q.getAll "keys").zipWith Row.mk values).map rowJson) := by
  simp only [answer, Backend.runQuery_ofStore (Query.answer_getMany rowsLimit (q.getAll "keys")),
    List.isEmpty_eq_false_iff.mpr h, Bool.false_eq_true, if_false]
  cases Query.allFound ((q.getAll "keys").map fun key => contents[Key.user key]?) <;> rfl

theorem answer_getMany_of_stored {q : QueryString} {rows : List Row} (hSome : rows ≠ [])
    (hKeys : q.getAll "keys" = rows.map Row.key) (hStored : Stored contents rows) :
    Endpoint.getMany.answer (.ofStore rowsLimit contents) q = .ok (.array (rows.map rowJson)) := by
  have hNonempty : q.getAll "keys" ≠ [] := hKeys ▸ mt List.map_eq_nil_iff.mp hSome
  have hFound : (rows.map Row.key).map (fun key => contents[Key.user key]?) =
      (rows.map Row.value).map some := by
    rw [List.map_map, List.map_map]
    exact List.map_congr_left hStored
  have hPaired : (rows.map Row.key).zipWith Row.mk (rows.map Row.value) = rows := by
    rw [List.zipWith_map, List.zipWith_self]
    exact List.map_id rows
  rw [answer_getMany hNonempty, hKeys, hFound, Query.allFound_map_some]
  simp only [Except.mapError, Except.map, hPaired]

theorem answer_getMany_of_missing {q : QueryString} {key : String} (hKey : key ∈ q.getAll "keys")
    (hMissing : contents[Key.user key]? = none) :
    Endpoint.getMany.answer (.ofStore rowsLimit contents) q = .error (.notFound "not found") := by
  rw [answer_getMany (List.ne_nil_of_mem hKey),
    Query.allFound_of_mem (List.mem_map.mpr ⟨key, hKey, hMissing⟩)]
  rfl

end Endpoint

namespace Api

variable {api : Api} {path query : List Char}

theorem serve_of_endpoint {endpoint : Endpoint} (h : api.endpoint? path = some endpoint)
    (backend : Backend) :
    api.serve backend ⟨"GET", ⟨path, query⟩⟩ =
      match endpoint.answer backend (.ofChars query) with
      | .ok data => .success data
      | .error failure => failure.response := by
  simp only [serve, respond, h, if_true]
  cases endpoint.answer backend (.ofChars query) <;> rfl

/-- What is sent back to a reader of one key. -/
def reply (contents : Contents) (key : String) : Response :=
  contents[Key.user key]?.elim (Failure.notFound "not found").response fun value =>
    .success (Endpoint.rowJson ⟨key, value⟩)

theorem serve_get {key : String} (hPath : api.endpoint? path = some .get)
    (hKey : (QueryString.ofChars query).get? "key" = some key) :
    api.serve (.ofStore rowsLimit contents) ⟨"GET", ⟨path, query⟩⟩ = reply contents key := by
  rw [serve_of_endpoint hPath, Endpoint.answer_get hKey, reply]
  cases contents[Key.user key]? <;> rfl

theorem status_reply (contents : Contents) (key : String) :
    (reply contents key).status = 200 ↔ contents[Key.user key]? ≠ none := by
  rw [reply]
  cases contents[Key.user key]? with
  | none => exact iff_of_false (fun h => nomatch h) (fun h => h rfl)
  | some value => exact iff_of_true rfl (Option.some_ne_none value)

theorem map_reply_of_stored {rows : List Row} (h : Stored contents rows) :
    (rows.map Row.key).map (reply contents) =
      rows.map fun row => .success (Endpoint.rowJson row) := by
  rw [List.map_map]
  refine List.map_congr_left fun row hRow => ?_
  rw [Function.comp_apply, reply, h row hRow, Option.elim_some]

/-- What was sent back for many keys agrees with what was sent back for each one of them. -/
structure Joined (keys : List String) (single : List Response) (joined : Response) : Prop where
  status_iff : joined.status = 200 ↔ ∀ reply ∈ single, reply.status = 200
  found : joined.status = 200 → ∃ rows : List Row, rows.map Row.key = keys ∧
    joined = .success (.array (rows.map Endpoint.rowJson)) ∧
    single = rows.map fun row => .success (Endpoint.rowJson row)
  missing : joined.status ≠ 200 → joined.status = 404 ∧
    ∃ reply ∈ single, reply.status ≠ 200 ∧ joined.body = reply.body

theorem joined_of_stored {rows : List Row} (h : Stored contents rows) :
    Joined (rows.map Row.key) ((rows.map Row.key).map (reply contents))
      (.success (.array (rows.map Endpoint.rowJson))) where
  status_iff := by
    refine iff_of_true rfl ?_
    rw [map_reply_of_stored h]
    exact List.forall_mem_map.mpr fun _ _ => rfl
  found _ := ⟨rows, rfl, rfl, map_reply_of_stored h⟩
  missing hStatus := absurd rfl hStatus

theorem joined_of_missing {keys : List String} {key : String} (hKey : key ∈ keys)
    (hMissing : contents[Key.user key]? = none) :
    Joined keys (keys.map (reply contents)) (Failure.notFound "not found").response where
  status_iff := by
    refine iff_of_false (by decide) fun hAll => ?_
    exact (status_reply contents key).mp (hAll _ (List.mem_map_of_mem hKey)) hMissing
  found hStatus := absurd hStatus (by decide)
  missing _ := by
    refine ⟨rfl, reply contents key, List.mem_map_of_mem hKey, ?_, ?_⟩
    · exact mt (status_reply contents key).mp (not_not_intro hMissing)
    · rw [reply, hMissing, Option.elim_none]

/-- Reading many keys at once gives what reading them one by one gives. -/
theorem getMany_agrees {api : Api} {many single : List Char}
    (hMany : api.endpoint? many = some .getMany) (hSingle : api.endpoint? single = some .get)
    (rowsLimit : Nat) (contents : Contents) (query : List Char) (queries : List (List Char))
    (hSome : (QueryString.ofChars query).getAll "keys" ≠ [])
    (hQueries : List.Forall₂ (fun key query => (QueryString.ofChars query).get? "key" = some key)
      ((QueryString.ofChars query).getAll "keys") queries) :
    Joined ((QueryString.ofChars query).getAll "keys")
      (queries.map fun query => api.serve (.ofStore rowsLimit contents) ⟨"GET", ⟨single, query⟩⟩)
      (api.serve (.ofStore rowsLimit contents) ⟨"GET", ⟨many, query⟩⟩) := by
  have hReplies : queries.map
      (fun query => api.serve (.ofStore rowsLimit contents) ⟨"GET", ⟨single, query⟩⟩) =
        ((QueryString.ofChars query).getAll "keys").map (reply contents) := by
    rw [eq_comm, ← List.forall₂_eq_eq_eq, List.forall₂_map_left_iff, List.forall₂_map_right_iff]
    exact hQueries.imp fun key query hKey => (serve_get hSingle hKey).symm
  rw [hReplies, serve_of_endpoint hMany]
  by_cases hFound : ∀ key ∈ (QueryString.ofChars query).getAll "keys",
      contents[Key.user key]? ≠ none
  case pos =>
    obtain ⟨rows, hKeys, hStored⟩ := exists_stored hFound
    have hRows : rows ≠ [] := by
      rintro rfl
      exact hSome hKeys.symm
    rw [Endpoint.answer_getMany_of_stored hRows hKeys.symm hStored, ← hKeys]
    exact joined_of_stored hStored
  case neg =>
    push Not at hFound
    obtain ⟨key, hKey, hMissing⟩ := hFound
    rw [Endpoint.answer_getMany_of_missing hKey hMissing]
    exact joined_of_missing hKey hMissing

/-- Asked for `a` twice, the second time with an escape, and for `b` between; then for `a` and for
`%`, which is not in the contents. -/
theorem getMany_agrees_repeated_key : ∃ api, build none = .ok api ∧
    let contents : Contents := .ofEntries [(Key.user "a", [1]), (Key.user "b", [])]
    let serve (path query : String) :=
      api.serve (.ofStore 10 contents) ⟨"GET", ⟨path.toList, query.toList⟩⟩
    Joined ["a", "b", "a"]
        [serve "/kv/get" "key=a", serve "/kv/get" "key=b", serve "/kv/get" "key=%61"]
        (serve "/kv/get_many" "keys=a&keys=b&keys=%61") ∧
      Joined ["a", "%"] [serve "/kv/get" "key=a", serve "/kv/get" "key=%25"]
        (serve "/kv/get_many" "keys=a&key=b&keys=%25") := by
  obtain ⟨api, hBuild, hPaths⟩ := @build_of_plain none (by decide)
  refine ⟨api, hBuild, ?_, ?_⟩
  · exact getMany_agrees (hPaths .getMany) (hPaths .get) 10 _ "keys=a&keys=b&keys=%61".toList
      ["key=a".toList, "key=b".toList, "key=%61".toList] (by decide) (by decide)
  · exact getMany_agrees (hPaths .getMany) (hPaths .get) 10 _ "keys=a&key=b&keys=%25".toList
      ["key=a".toList, "key=%25".toList] (by decide) (by decide)

end Api

end Http

end ForkLog
