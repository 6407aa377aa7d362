import UbifsScan.Framework.Program
import UbifsScan.Framework.Footprint
import UbifsScan.Framework.Steps
import UbifsScan.Framework.ReflectedCrc
import UbifsScan.Framework.FewErrors
import UbifsScan.Framework.LinkedRing
import UbifsScan.Framework.RingFamily
import UbifsScan.Framework.Lifetime
import UbifsScan.Framework.Words
import UbifsScan.Model.Media
import UbifsScan.Model.Crc
import UbifsScan.Model.Kernel
import UbifsScan.Model.World
import UbifsScan.Model.Support
import UbifsScan.Model.Scan
import UbifsScan.Model.Tests
import UbifsScan.Format.Items
import UbifsScan.Format.Locality
import UbifsScan.Refinement.Node
import UbifsScan.Refinement.Heap
import UbifsScan.Refinement.Loop
import UbifsScan.Refinement.Tail
import UbifsScan.Refinement.Scan
import UbifsScan.Refinement.Outcome
import UbifsScan.Refinement.Report
import UbifsScan.Refinement.Recorded
import UbifsScan.Refinement.Table
import UbifsScan.Refinement.Builder
import UbifsScan.Refinement.Layout
import UbifsScan.Results.Acceptance
import UbifsScan.Results.Reads
import UbifsScan.Results.SkipLength
import UbifsScan.Results.Memory
import UbifsScan.Results.Locality
import UbifsScan.Results.Corruption
import UbifsScan.Results.RoundTrip
import UbifsScan.Results.ListHeads
import UbifsScan.Results.EmptySpace
import UbifsScan.Results.Headers
import UbifsScan.Results.Sessions
import UbifsScan.Results.Diagnosis
import UbifsScan.Results.ListOrder
import UbifsScan.Results.Footprint
import UbifsScan.Results.BitErrors
import UbifsScan.Results.Rebuild
import UbifsScan.Refinement.Torn
import UbifsScan.Results.PowerCut
import UbifsScan.Results.Work
import UbifsScan.Results.Tests
