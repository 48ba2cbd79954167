import SwiftFIX.Lib.EarlyExit
import SwiftFIX.Lib.Decimal
import SwiftFIX.Lib.Delimited
import SwiftFIX.Lib.SetBits
import SwiftFIX.Scalar
import SwiftFIX.Avx2
import SwiftFIX.ScalarReads
import SwiftFIX.Avx2Reads
import SwiftFIX.Accepts
import SwiftFIX.Dispatch
import SwiftFIX.Acceptance
import SwiftFIX.Finality
import SwiftFIX.Safety
import SwiftFIX.Lib.Framing
import SwiftFIX.Lib.Splitting
import SwiftFIX.Stream
import SwiftFIX.Capacity
import SwiftFIX.Render
import SwiftFIX.QuickFix
import SwiftFIX.Shim
import SwiftFIX.Waiting
import SwiftFIX.Preparse
import SwiftFIX.Arrival
import SwiftFIX.Viability
import SwiftFIX.Avx2Narrowing
import SwiftFIX.Avx2Arrival
import SwiftFIX.Honesty
import SwiftFIX.Misdeclared
import SwiftFIX.Spans
import SwiftFIX.Access
import SwiftFIX.Coherence
import SwiftFIX.Lib.Phases
import SwiftFIX.PreScan
import SwiftFIX.Handoff
import SwiftFIX.Narrowing
import SwiftFIX.Loops
import SwiftFIX.Splits
import SwiftFIX.Verdicts
import SwiftFIX.Agreement
import SwiftFIX.Masked
import SwiftFIX.Rendered
import SwiftFIX.Delivery
import SwiftFIX.Overflow
import SwiftFIX.Lib.Interleaving
import SwiftFIX.Sessions
import SwiftFIX.Lib.Calendar
import SwiftFIX.Lib.Draws
import SwiftFIX.Paths
import SwiftFIX.Generator
import SwiftFIX.Generated
import SwiftFIX.Messages
import SwiftFIX.Bulk
import SwiftFIX.Benchmark
import SwiftFIX.Corpus
