import HostScript.Main
import HostScript.Program.Outline
import HostScript.Value.Cast
import HostScript.Value.Outline
import HostScript.Proofs.Machine.Truncation
import HostScript.Proofs.Program.Occurrence
import HostScript.Proofs.Program.Scoped
import HostScript.Proofs.Machine.Chain
import HostScript.Proofs.Machine.Point
import HostScript.Proofs.Machine.Scoping
import HostScript.Proofs.Token.Gap
import HostScript.Proofs.Token.Word
import HostScript.Proofs.Token.Row
import HostScript.Proofs.Script.Closure
import HostScript.Proofs.Script.Ending
import HostScript.Proofs.Token.Joined
import HostScript.Proofs.Dialect.Arranged
import HostScript.Proofs.Dialect.Grouped
import HostScript.Proofs.Dialect.Written
import HostScript.Proofs.Dialect.Rendering
import HostScript.Proofs.Dialect.Untokenized
import HostScript.Proofs.Dialect.Content
import HostScript.Proofs.Dialect.Refilled
import HostScript.Proofs.Dialect.Nested
import HostScript.Proofs.Dialect.Layout
import HostScript.Proofs.Value.Order
import HostScript.Proofs.Machine.Termination
import HostScript.Proofs.Script.Roundtrip
import HostScript.Proofs.Session.Pasted
import HostScript.Proofs.Dialect.Routed
import HostScript.Proofs.Dialect.Bookkeeping
import HostScript.Proofs.Script.Declared
import HostScript.Proofs.Dialect.Extent
import HostScript.Proofs.Dialect.Nesting
import HostScript.Proofs.Machine.Finite
import HostScript.Proofs.Dialect.Agreement
import HostScript.Proofs.Machine.Exports
import HostScript.Proofs.Json.Spelled
import HostScript.Proofs.Value.Decoded
import HostScript.Proofs.Dialect.Positions
import HostScript.Proofs.Dialect.Renumbered
import HostScript.Proofs.Token.Lossless
import HostScript.Proofs.Token.Respaced
import HostScript.Proofs.Token.Columns
import HostScript.Proofs.Machine.Guarded
import HostScript.Proofs.Program.Capability
import HostScript.Proofs.Machine.Isolated
import HostScript.Proofs.Machine.Metered
import HostScript.Proofs.Machine.Assigned
import HostScript.Proofs.Dialect.OneLine
import HostScript.Proofs.Token.Counted
import HostScript.Proofs.Number.Integers
import HostScript.Proofs.Machine.Depth
import HostScript.Proofs.Script.Spans
import HostScript.Proofs.Builtin.Extreme
import HostScript.Proofs.Builtin.Range
import HostScript.Proofs.Program.Hoisted
