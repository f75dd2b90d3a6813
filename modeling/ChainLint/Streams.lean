/-!
# ChainLint.Streams

What a program has written: its output, and beside it its messages. What of it has arrived when
the program ends is up to where it goes.

* `Streams`.
* `Channel`, `Channel.taken`: a pipe takes as much as there is room for, and what is left waits in
  the program.
-/

namespace ChainLint

structure Streams where
  stdout : String := ""
  stderr : String := ""
  deriving DecidableEq

namespace Streams

def append (a b : Streams) : Streams := ⟨a.stdout ++ b.stdout, a.stderr ++ b.stderr⟩

instance : Append Streams := ⟨append⟩

end Streams

/-- Where an output goes. -/
inductive Channel where
  /-- A file or a terminal: all is taken as it is written. -/
  | direct
  /-- A pipe that has taken `room` bytes by the time the program comes to its end, be it what an
  empty pipe holds, or what another output has left of that, or more since it is being read. -/
  | pipe (room : Nat)
  deriving DecidableEq

namespace Channel

/-- What has been taken of an output by the time the program comes to its end. -/
def taken : Channel → List UInt8 → List UInt8
  | direct, bytes => bytes
  | pipe room, bytes => bytes.take room

end Channel
end ChainLint
