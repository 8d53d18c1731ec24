/-!
The error codes of `src/error.rs` that the modelled functions raise. A code stands
for its error; the rendered message only repeats the values that raised it.
-/

namespace Minigraf

inductive ErrorCode where
  | stg007 | stg008 | stg009 | stg010 | stg011 | stg012 | stg013 | stg014 | stg015 | stg017 | stg019 | stg020
  | stg021 | stg022
  | api009
  | wal001 | wal002 | wal003 | wal004 | wal006 | wal007
  | int023 | int024 | int045 | int046 | int048 | int049 | int051 | int053
  /-- An error of the operating system, passed through. -/
  | io
  /-- A postcard decoding error, passed through. -/
  | postcard
  /-- A panic: an index or an arithmetic step out of range, or a `BTreeMap` range
  whose start is above its end. -/
  | panicked
  /-- A loop of the source that never ends. -/
  | endless
  deriving DecidableEq, Repr

end Minigraf
