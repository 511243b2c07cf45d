import Gossip.CommandLine
import Std.Time.DateTime.Timestamp

/-!
The program. It has no sockets of its own and runs a node on a host that nothing reaches; the end
of standard input is its interrupt.
-/

set_option autoImplicit false
set_option relaxedAutoImplicit false

namespace Gossip

/-- Reads up to the end of a stream. -/
partial def waitForEnd (stream : IO.FS.Stream) : IO Unit := do
  let text ← stream.getLine
  if text.isEmpty then return () else waitForEnd stream

end Gossip

def main (args : List String) : IO UInt32 := do
  let now ← Std.Time.Timestamp.now
  let reading := Gossip.Instant.read? ⟨now.toNanosecondsSinceUnixEpoch.val⟩
  let moment := reading.map fun now ↦ ({ now } : Gossip.Moment)
  let outcome := Gossip.CommandLine.run .isolated moment args
  let out ← IO.getStdout
  out.putStr outcome.stdout
  out.flush
  if let some message := outcome.error then
    (← IO.getStderr).putStrLn message
  if let some closing := outcome.closing then
    Gossip.waitForEnd (← IO.getStdin)
    out.putStr closing
    out.flush
  return .ofNat outcome.code
