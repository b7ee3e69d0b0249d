import ForkLog.Command.Arguments
import ForkLog.Event.Source
import ForkLog.Follower
import ForkLog.Http.Api
import ForkLog.Store.Durable
import ForkLog.Text.SocketAddress

/-! # Commands

What can be asked of a data directory from the command line: to apply a file of events to it, to
answer queries from it, and to show what it holds.
-/

namespace ForkLog

set_option autoImplicit false

structure QueryOptions where
  beginning : Option String
  rowsLimit : Nat
  timeoutMillis : Nat
  deriving DecidableEq, Repr

inductive Command where
  | inject (directory events : String) (flushInterval startBlock : UInt64)
      (queries : QueryOptions) (listenAddress : Option SocketAddress)
  | serve (directory : String) (queries : QueryOptions) (listenAddress : SocketAddress)
  | inspect (directory : String)
  deriving DecidableEq, Repr

structure Outcome where
  status : Nat
  stdout : String
  stderr : String
  deriving DecidableEq, Repr

/-- A command that serves queries goes on until it is interrupted. -/
inductive Ending where
  | exited (outcome : Outcome)
  | serving
  deriving DecidableEq, Repr

namespace Outcome

def success (stdout : String) : Outcome := ⟨0, stdout, ""⟩

def refused : Outcome := ⟨2, "", ""⟩

def failure (message : String) : Outcome := ⟨1, "", "Error: " ++ message ++ "\n"⟩

/-- Every line of the cause is indented. -/
def failureCausedBy (context cause : String) : Outcome :=
  let lines := (splitAtEach '\n' cause.toList).map fun line => "    " ++ String.ofList line
  ⟨1, "", "Error: " ++ context ++ "\n\nCaused by:\n" ++ String.intercalate "\n" lines ++ "\n"⟩

end Outcome

namespace Command

def queryOptionNames : List String := ["api-prefix", "query-rows-limit", "request-timeout-ms"]

def number? (default : UInt64) : Option String → Option UInt64
  | none => some default
  | some text => (Decimal.read text.toList).toOption

def address? : Option String → Option (Option SocketAddress)
  | none => some none
  | some text => (SocketAddress.read? text).map some

/-- Queries are served to the own host alone unless an address is given. -/
def defaultAddress : SocketAddress := ⟨.version4 [127, 0, 0, 1], 8080⟩

def queryOptions? (a : Arguments) : Option QueryOptions := do
  let rowsLimit ← number? 1000 (a.option "query-rows-limit")
  let timeoutMillis ← number? 5000 (a.option "request-timeout-ms")
  return ⟨a.option "api-prefix", rowsLimit.toNat, timeoutMillis.toNat⟩

def injectOf? (a : Arguments) : Option Command := do
  let flushInterval ← number? 1000 (a.option "flush-interval")
  let startBlock ← number? 0 (a.option "start-block")
  let queries ← queryOptions? a
  let listenAddress ← address? (a.option "listen-addr")
  match a.positional with
  | [directory, events] =>
    if directory.isEmpty || events.isEmpty then none
    else some (inject directory events flushInterval startBlock queries listenAddress)
  | _ => none

def serveOf? (a : Arguments) : Option Command := do
  let queries ← queryOptions? a
  let listenAddress ← address? (a.option "listen-addr")
  match a.positional with
  | [directory] =>
    if directory.isEmpty then none
    else some (serve directory queries (listenAddress.getD defaultAddress))
  | _ => none

def inspectOf? (a : Arguments) : Option Command :=
  match a.positional with
  | [directory] => if directory.isEmpty then none else some (inspect directory)
  | _ => none

def read? : List String → Option Command
  | "inject" :: rest =>
    (Arguments.read? ("flush-interval" :: "start-block" :: "listen-addr" :: queryOptionNames)
      rest).bind injectOf?
  | "serve" :: rest => (Arguments.read? ("listen-addr" :: queryOptionNames) rest).bind serveOf?
  | "inspect" :: rest => (Arguments.read? [] rest).bind inspectOf?
  | _ => none

variable {δ : Type} [Disk δ]

def openFailure (directory : String) (e : Error) : Ending :=
  .exited (.failureCausedBy ("Failed to open store in " ++ directory) e.message)

/-- Applies the events of a source and then ends, or goes on to serve. -/
def applyEvents (service : Http.Service) (events : List (Except Error Event))
    (f : Follower (DurableStore δ)) : Ending × δ :=
  let (result, f) := f.run (events.map fun item => ⟨item, false⟩)
  match result.outcome, service with
  | .error e, _ => (.exited (.failure e.message), f.log.store.disk)
  | .ok (), .disabled => (.exited (.success ""), f.log.store.disk)
  | .ok (), .rest _ _ => (.serving, f.log.store.disk)

def runInject (config : Config) (events : String) (service : Http.Service) (disk : δ) :
    Ending × δ :=
  match DurableStore.mount config.dataDirectory config.maxRetries disk with
  | .error (e, disk) => (openFailure config.dataDirectory e, disk)
  | .ok store =>
    match Follower.start (Follower.ofLog (.ofStore store) config) with
    | .error e f => (.exited (.failure e.message), f.log.store.disk)
    | .ok _ f =>
      match Event.openFile events f.log.store.disk with
      | .error e disk =>
        (.exited (.failureCausedBy ("Failed to open " ++ events) e.message), disk)
      | .ok items disk =>
        applyEvents service items
          { f with log := { f.log with store := { f.log.store with disk } } }

def runServe (directory : String) (maxRetries : Nat) (service : Http.Service) (disk : δ) :
    Ending × δ :=
  match DurableStore.mount directory maxRetries disk with
  | .error (e, disk) => (openFailure directory e, disk)
  | .ok store =>
    match service.prepare with
    | .error failure => (.exited (.failure failure.message), store.disk)
    | .ok _ => (.serving, store.disk)

def cursorLine (cursor : Cursor) : String :=
  s!"cursor: block {cursor.blockNumber.toNat} id '" ++ cursor.blockId ++ "' token '" ++
    cursor.token ++ "'\n"

def blockLine (block : UInt64) : String := s!"  block {block.toNat}\n"

def summary (contents : Contents) (blocks : List UInt64) : String :=
  let users := contents.entries.countP fun e => Key.isUser e.1
  s!"undo records: {blocks.length}\n" ++ String.join (blocks.map blockLine) ++
    s!"user records: {users}\n"

def report (log : OperationLog Contents) : Outcome :=
  let cursor : Except Error String :=
    match OperationLog.getCursor log with
    | .ok cursor _ => .ok (cursorLine cursor)
    | .error .cursorNotFound _ => .ok "cursor: none\n"
    | .error e _ => .error e
  match cursor, OperationLog.undoBlocks log with
  | .error e, _ => .failure e.message
  | _, .error e _ => .failure e.message
  | .ok line, .ok blocks _ => .success (line ++ summary log.store blocks)

def runInspect (directory : String) (maxRetries : Nat) (disk : δ) : Ending × δ :=
  match DurableStore.mount directory maxRetries disk with
  | .error (e, disk) => (openFailure directory e, disk)
  | .ok store => (.exited (report (.ofStore store.contents)), store.disk)

def injectConfig (directory : String) (flushInterval startBlock : UInt64)
    (queries : QueryOptions) : Config :=
  { ({} : Config).withFlushInterval flushInterval with
    dataDirectory := directory
    startBlock
    queryRowsLimit := queries.rowsLimit
    requestTimeoutMillis := queries.timeoutMillis }

def run : Command → δ → Ending × δ
  | inject directory events flushInterval startBlock queries listenAddress =>
    runInject (injectConfig directory flushInterval startBlock queries) events
      (.ofArguments listenAddress queries.beginning)
  | serve directory queries listenAddress =>
    runServe directory ({} : Config).maxRetries (.rest listenAddress queries.beginning)
  | inspect directory => runInspect directory ({} : Config).maxRetries

end Command

end ForkLog
