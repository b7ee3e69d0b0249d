import ForkLog.Http.QueryString
import ForkLog.Http.Route
import ForkLog.Query
import ForkLog.Store.Contents
import ForkLog.Text.SocketAddress

/-! # The query interface

Five paths answer questions about user records. All other paths are unknown, and a known path
takes no method but `GET`.
-/

namespace ForkLog.Http

set_option autoImplicit false

inductive Completion (α : Type) where
  | answered (result : Except Error α)
  | timedOut
  | aborted

structure Backend where
  rowsLimit : Nat
  ask : {α : Type} → Query α → Completion α

namespace Backend

/-- Answers at once from a store, if there is room for the rows. -/
def ofStore {σ : Type} [Store σ] (rowsLimit : Nat) (store : σ) : Backend where
  rowsLimit
  ask query :=
    match query.attempt rowsLimit with
    | none => .aborted
    | some step =>
      match step store with
      | .ok a _ => .answered (.ok a)
      | .error e _ => .answered (.error e)

def failing (rowsLimit : Nat) (e : Error) : Backend := ⟨rowsLimit, fun _ => .answered (.error e)⟩

def stuck (rowsLimit : Nat) : Backend := ⟨rowsLimit, fun _ => .timedOut⟩

def aborting (rowsLimit : Nat) : Backend := ⟨rowsLimit, fun _ => .aborted⟩

def runQuery {α : Type} (backend : Backend) (query : Query α) : Except Failure α :=
  match backend.ask query with
  | .answered (.ok a) => .ok a
  | .answered (.error e) => .error (.ofError e)
  | .timedOut => .error .timeout
  | .aborted => .error .hidden

end Backend

inductive Endpoint where
  | health
  | get
  | getMany
  | startingWith
  | range
  deriving DecidableEq, Repr

namespace Endpoint

def all : List Endpoint := [health, get, getMany, startingWith, range]

def path : Endpoint → String
  | health => "/health"
  | get => "/kv/get"
  | getMany => "/kv/get_many"
  | startingWith => "/kv/prefix"
  | range => "/kv/scan"

def rowJson (row : Row) : Json :=
  .object [("key", .string row.key), ("value", .string (Hex.encode row.value))]

def pageJson (page : Page) : Json :=
  .object [("values", .array (page.rows.map rowJson)), ("limit_reached", .bool page.limitReached)]

def answer (backend : Backend) (q : QueryString) : Endpoint → Except Failure Json
  | health => .ok (.object [("status", .string "ok")])
  | get => do
    let key ← q.require "key"
    let value ← backend.runQuery (.get key)
    return rowJson ⟨key, value⟩
  | getMany => do
    let keys := q.getAll "keys"
    let values ← backend.runQuery (.getMany keys)
    return .array ((keys.zipWith Row.mk values).map rowJson)
  | startingWith => do
    let beginning ← q.require "prefix"
    let limit ← q.limit backend.rowsLimit
    let page ← backend.runQuery (.startingWith beginning limit)
    return pageJson page
  | range => do
    let start := (q.get? "begin").getD ""
    let stop := (q.get? "end").getD ""
    let limit ← q.limit backend.rowsLimit
    let page ← backend.runQuery (.range start stop limit)
    return pageJson page

end Endpoint

structure Target where
  path : List Char
  query : List Char
  deriving DecidableEq, Repr

namespace Target

def ofPathAndQuery (text : List Char) : Target :=
  match splitFirst? '?' text with
  | none => ⟨text, []⟩
  | some (path, query) => ⟨path, query⟩

/-- What follows the scheme of an absolute address. -/
def afterScheme? : List Char → Option (List Char)
  | ':' :: '/' :: '/' :: rest => some rest
  | _ :: rest => afterScheme? rest
  | [] => none

/-- Reads the address of a request. The fragment is dropped; an address of a host without a path
asks for the root, and the bare name of a host asks for no path. -/
def ofChars (address : List Char) : Target :=
  let address := address.takeWhile (· ≠ '#')
  if address.head? = some '/' || address = ['*'] then ofPathAndQuery address
  else
    match afterScheme? address with
    | none => ⟨[], []⟩
    | some rest =>
      let target := ofPathAndQuery (rest.dropWhile fun c => c ≠ '/' && c ≠ '?')
      if target.path.isEmpty then { target with path := ['/'] } else target

end Target

structure Request where
  method : String
  target : Target
  deriving DecidableEq, Repr

structure Api where
  routes : List (Route × Endpoint)

namespace Api

/-- A beginning for all paths, without slashes at its ends. -/
def normalize (beginning : Option String) : List Char :=
  let trimmed := ((beginning.getD "").toList.dropWhile (· = '/')).reverse.dropWhile (· = '/')
  if trimmed.isEmpty then [] else '/' :: trimmed.reverse

def pathOf (beginning : List Char) (endpoint : Endpoint) : List Char :=
  beginning ++ endpoint.path.toList

def route (beginning : List Char) (endpoint : Endpoint) : Except Failure (Route × Endpoint) :=
  let path := pathOf beginning endpoint
  match Route.read (Utf8.encodeChars path) with
  | .ok route => .ok (route, endpoint)
  | .error fault =>
    .error (.internal
      ("Failed to insert " ++ String.ofList path ++ " route: " ++ fault.message))

def build (beginning : Option String) : Except Failure Api :=
  (Endpoint.all.mapM (route (normalize beginning))).map Api.mk

/-- Whether routes that begin like this have more parameters than a route may have. -/
def isOverlong (beginning : Option String) : Bool :=
  Route.read (Utf8.encodeChars (pathOf (normalize beginning) .health)) matches
    .error .parameterCount

def endpoint? (api : Api) (path : List Char) : Option Endpoint :=
  (api.routes.find? fun (route, _) => route.accepts (Utf8.encodeChars path)).map Prod.snd

def respond (api : Api) (backend : Backend) (request : Request) : Except Failure Response :=
  match api.endpoint? request.target.path with
  | none => .error (.notFound ("No route found for " ++ String.ofList request.target.path))
  | some endpoint =>
    if request.method = "GET" then
      (endpoint.answer backend (.ofChars request.target.query)).map Response.success
    else .error .methodNotAllowed

/-- What is sent back for a request. A failure has a response as well. -/
def serve (api : Api) (backend : Backend) (request : Request) : Response :=
  match api.respond backend request with
  | .ok response => response
  | .error failure => failure.response

end Api

inductive Service where
  | rest (listenAddress : SocketAddress) (beginning : Option String)
  | disabled
  deriving DecidableEq, Repr

namespace Service

def ofArguments (listenAddress : Option SocketAddress) (beginning : Option String) : Service :=
  match listenAddress with
  | some address => rest address beginning
  | none => disabled

def prepare : Service → Except Failure (Option Api)
  | rest _ beginning => (Api.build beginning).map some
  | disabled => .ok none

end Service

end ForkLog.Http
