import ForkLog.Cursor
import ForkLog.Operation

/-! # Events -/

namespace ForkLog

set_option autoImplicit false

structure Block where
  number : UInt64
  /-- No block up to this height will be taken back. -/
  finalizedHeight : UInt64
  operations : List Operation
  cursor : Cursor
  deriving DecidableEq, Repr

/-- A fork of the chain: the blocks above a height are taken back. -/
structure Fork where
  lastValidBlock : UInt64
  cursor : Cursor
  deriving DecidableEq, Repr

inductive Event where
  | data (block : Block)
  | undo (fork : Fork)
  deriving DecidableEq, Repr

namespace Event

def cursor : Event → Cursor
  | data block => block.cursor
  | undo fork => fork.cursor

def blockNumber : Event → UInt64
  | data block => block.number
  | undo fork => fork.lastValidBlock

end Event

end ForkLog
