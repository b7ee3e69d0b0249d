/-! # Counters

Counters of 64 bits that start again at zero when they are full.
-/

namespace ForkLog

set_option autoImplicit false

structure Stats where
  blocks : UInt64
  flushes : UInt64
  flushedEntries : UInt64
  undoReplays : UInt64
  replayedBlocks : UInt64
  lastBlock : UInt64
  finalizedHeight : UInt64
  flushMicros : UInt64
  deriving DecidableEq, Repr

namespace Stats

def zero : Stats := ⟨0, 0, 0, 0, 0, 0, 0, 0⟩

def recordBlock (block finalizedHeight : UInt64) (s : Stats) : Stats :=
  { s with blocks := s.blocks + 1, lastBlock := block, finalizedHeight }

/-- Time is counted in whole microseconds. -/
def recordFlush (entries nanos : Nat) (s : Stats) : Stats :=
  { s with
    flushes := s.flushes + 1
    flushedEntries := s.flushedEntries + .ofNat entries
    flushMicros := s.flushMicros + .ofNat (nanos / 1000) }

def recordUndo (lastValidBlock : UInt64) (replayed : Nat) (s : Stats) : Stats :=
  { s with
    undoReplays := s.undoReplays + 1
    replayedBlocks := s.replayedBlocks + .ofNat replayed
    lastBlock := lastValidBlock }

end Stats

/-- Whether the counters are being reported from time to time. A report that was stopped stays
stopped. -/
inductive Reporter where
  | running
  | stopped
  deriving DecidableEq, Repr

namespace Reporter

def start : Reporter := running

def stop : Reporter → Reporter
  | _ => stopped

def isRunning : Reporter → Bool
  | running => true
  | stopped => false

end Reporter

end ForkLog
