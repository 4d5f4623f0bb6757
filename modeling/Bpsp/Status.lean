import Bpsp.CLib.CString

/-!
# Status codes

The codes of `status__err` that the modelled functions return, with their texts from
`lib/status.c`. The texts reach the wire in the payload of an error reply.
-/

namespace Bpsp

open CLib

/-- The status codes that the modelled functions return. -/
inductive Status where
  | ok
  | ioError
  | maxVarHeaders
  | connectionClosed
  | invalidOpcode
  | invalidTopic
  | invalidArg
  | notCompletedFrame
  | invalidSubscriber
  | treeDupSubscriber
  | invalidVarHeaders
  | noMemory
  deriving DecidableEq, Repr

/-- `status__get_text`. -/
def Status.getText : Status → CStr
  | .ok => .ofString "OK"
  | .ioError => .ofString "IO Error"
  | .maxVarHeaders => .ofString "Maximum Variable Headers Exceeded (65 KB)"
  | .connectionClosed => .ofString "Connection Closed"
  | .invalidOpcode => .ofString "Invalid Opcode"
  | .invalidTopic => .ofString "Invalid Topic"
  | .invalidArg => .ofString "Invalid Argument"
  | .notCompletedFrame => .ofString "Not completed frame"
  | .invalidSubscriber => .ofString "Invalid Subscriber"
  | .treeDupSubscriber => .ofString "Duplicate Subscriber in Node Tree"
  | .invalidVarHeaders => .ofString "Invalid Variable Headers"
  | .noMemory => .ofString "No Memory"

end Bpsp
