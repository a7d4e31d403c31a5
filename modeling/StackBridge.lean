import StackBridge.Proofs.Session.Focus
import StackBridge.Session.Run
import StackBridge.Proofs.Push.Added
import StackBridge.Proofs.Push.Member
import StackBridge.Proofs.Push.Atomic
import StackBridge.Proofs.Machine.Table
import StackBridge.Proofs.Machine.Reach
import StackBridge.Proofs.Read.Gains
import StackBridge.Proofs.Read.Untouched
import StackBridge.Proofs.Frames.Framed
import StackBridge.Proofs.Frames.Primitives
import StackBridge.Proofs.Session.Law
import StackBridge.Proofs.Session.Kept
import StackBridge.Proofs.Session.Values
import StackBridge.Proofs.Session.Reads
import StackBridge.Proofs.Session.Calls
import StackBridge.Proofs.Session.Operations
import StackBridge.Proofs.Session.Reachable
import StackBridge.Proofs.Frames.Contained
import StackBridge.Proofs.Frames.Calls
import StackBridge.Proofs.Frames.Isolation
import StackBridge.Proofs.Frames.Protected
import StackBridge.Proofs.Machine.Unmarked
import StackBridge.Proofs.Frames.Closed
import StackBridge.Proofs.Double.Exact
import StackBridge.Proofs.Host.Canonical
import StackBridge.Proofs.Text.Utf8
import StackBridge.Proofs.Host.Typed
import StackBridge.Proofs.Host.Equal
import StackBridge.Proofs.Machine.Entries
import StackBridge.Proofs.RoundTrip.Holds
import StackBridge.Proofs.RoundTrip.Describe
import StackBridge.Proofs.RoundTrip.Push
import StackBridge.Proofs.RoundTrip.Slot
import StackBridge.Proofs.RoundTrip.Read
import StackBridge.Proofs.RoundTrip.Value
import StackBridge.Proofs.RoundTrip.Whole
import StackBridge.Proofs.Describe.Nested
import StackBridge.Proofs.Describe.Supported
import StackBridge.Proofs.Describe.Transparent
import StackBridge.Proofs.Machine.Traversal
import StackBridge.Proofs.Machine.Keys
import StackBridge.Proofs.Machine.FiniteMap
import StackBridge.Proofs.Machine.Answered
import StackBridge.Proofs.Session.WellKept
import StackBridge.Proofs.Read.Answered
import StackBridge.Proofs.Read.Conforms
import StackBridge.Proofs.Read.Sound
import StackBridge.Proofs.Push.Fresh
import StackBridge.Proofs.Push.Placed
import StackBridge.Proofs.Push.Category
import StackBridge.Proofs.Frames.Hosted
import StackBridge.Proofs.Wrapper.Course
import StackBridge.Proofs.Wrapper.Sparing
import StackBridge.Proofs.Wrapper.References
import StackBridge.Proofs.Wrapper.Registered
import StackBridge.Proofs.RoundTrip.Callable
import StackBridge.Proofs.RoundTrip.Arguments
import StackBridge.Proofs.RoundTrip.Bound
import StackBridge.Proofs.RoundTrip.Natural
import StackBridge.Proofs.RoundTrip.Views
import StackBridge.Proofs.Describe.Decides
import StackBridge.Proofs.Read.Refused
import StackBridge.Proofs.Checks.Transparent
import StackBridge.Proofs.Isolation.Machines
import StackBridge.Proofs.Machine.Walk
import StackBridge.Proofs.Read.Direct
import StackBridge.Proofs.Read.Level
import StackBridge.Proofs.Read.Lockstep
import StackBridge.Proofs.Read.Handled
import StackBridge.Proofs.Read.Ending
import StackBridge.Proofs.Read.Endless
import StackBridge.Proofs.Read.Dictionary
import StackBridge.Proofs.Frames.Traceless
import StackBridge.Proofs.Wrapper.Neutral
import StackBridge.Proofs.Read.Anywhere
import StackBridge.Proofs.Call.Sources
import StackBridge.Proofs.Call.Signature
import StackBridge.Proofs.Call.Marshalled
import StackBridge.Proofs.Genuine.Machine
import StackBridge.Proofs.Genuine.Push
import StackBridge.Proofs.Genuine.Law
import StackBridge.Proofs.Genuine.Run
import StackBridge.Proofs.Text.Numeral
import StackBridge.Proofs.Machine.Numbers
import StackBridge.Proofs.Double.Nearest
import StackBridge.Proofs.RoundTrip.Integer
import StackBridge.Proofs.RoundTrip.Absent
import StackBridge.Proofs.Machine.Border
import StackBridge.Proofs.Machine.Layout
import StackBridge.Proofs.Machine.Rendering
import StackBridge.Proofs.Push.Length
import StackBridge.Proofs.Host.Annotated
import StackBridge.Proofs.Push.Inferred
