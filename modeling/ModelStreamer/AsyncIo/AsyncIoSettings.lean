import ModelStreamer.Streamer.Config

/-!
# Settings of an engine

The queue depth and the chunk size that one process gives an engine.
-/

namespace ModelStreamer
namespace AsyncIo

open Streamer

/-- {lit}`AsyncIoSettings::MinDepth`. -/
def minDepth : Nat := 3

/-- {lit}`AsyncIoSettings::MaxDepth`. -/
def maxDepth : Nat := 1024

/-- {lit}`AsyncIoSettings`. -/
structure AsyncIoSettings where
  depth : Nat
  chunkBytesize : Nat
deriving DecidableEq, Repr

/--
The constructor: the depth of the node is divided between its processes, and the chunk size
is clamped to what the kernel reads in one go.
-/
def AsyncIoSettings.make (config : Config) (nodeWideDepth processGroupSize maxRead : Nat) :
    AsyncIoSettings :=
  { depth := min (max (nodeWideDepth / processGroupSize) minDepth) maxDepth
    chunkBytesize := min config.fsAsyncChunkBytesize maxRead }

end AsyncIo
end ModelStreamer
