import Std.Data.ExtTreeMap
import ForkLog.Store

/-! # Contents

A finite map from keys to values in key order: a store in itself, of which no call fails.
-/

namespace ForkLog

set_option autoImplicit false

abbrev Contents := Std.ExtTreeMap Bytes Bytes

namespace Contents

def entries (contents : Contents) : List Entry := contents.toList

/-- Of two entries with one key the later one counts. -/
def ofEntries (entries : List Entry) : Contents :=
  entries.foldl (fun contents e => contents.insert e.1 e.2) ∅

def eraseAll (contents : Contents) (keys : List Bytes) : Contents :=
  keys.foldl (fun contents key => contents.erase key) contents

def limited (limit : Nat) (entries : List Entry) : List Entry :=
  if limit = 0 then entries else entries.take limit

def between (contents : Contents) (start stop : Bytes) : List Entry :=
  contents.entries.filter fun e => start ≤ e.1 && e.1 < stop

/-- The entries from the key `beginning` on, up to the first one whose key does not begin with it. -/
def beginningWith (contents : Contents) (beginning : Bytes) : List Entry :=
  (contents.entries.filter fun e => beginning ≤ e.1).takeWhile fun e => beginning.isPrefixOf e.1

instance : Store Contents where
  get key := fun contents => .ok contents[key]? contents
  getMany keys := fun contents => .ok (keys.map fun key => contents[key]?) contents
  put key value := fun contents => .ok () (contents.insert key value)
  deleteMany keys := fun contents => .ok () (contents.eraseAll keys)
  range start stop limit := fun contents =>
    .ok (limited limit (contents.between start stop)) contents
  startingWith beginning limit := fun contents =>
    .ok (limited limit (contents.beginningWith beginning)) contents
  sync := fun contents => .ok () contents
  bound contents := contents.size

end Contents

end ForkLog
