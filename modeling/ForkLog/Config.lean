/-! # Settings -/

namespace ForkLog

set_option autoImplicit false

structure Config where
  dataDirectory : String := "./data"
  /-- The most rows that one query may ask for. -/
  queryRowsLimit : Nat := 1000
  /-- Blocks that are final are flushed at the multiples of this number. -/
  flushInterval : UInt64 := 1000
  startBlock : UInt64 := 0
  statsIntervalMillis : Nat := 2000
  maxRetries : Nat := 3
  retryDelayMillis : Nat := 100
  requestTimeoutMillis : Nat := 5000
  deriving DecidableEq, Repr

namespace Config

def withFlushInterval (config : Config) (interval : UInt64) : Config :=
  { config with flushInterval := max interval 1 }

def withRetries (config : Config) (maxRetries delayMillis : Nat) : Config :=
  { config with maxRetries, retryDelayMillis := delayMillis }

end Config

end ForkLog
