import BarrierLowering.Config.Document
import BarrierLowering.Listing
import BarrierLowering.Pipeline
import BarrierLowering.Proofs.Search
import BarrierLowering.Proofs.Crossing
import BarrierLowering.Proofs.Lowered
import BarrierLowering.Proofs.Machine
import BarrierLowering.Proofs.Once
import BarrierLowering.Proofs.Validity
import BarrierLowering.Proofs.Plannable
import BarrierLowering.Proofs.Extends
import BarrierLowering.Proofs.Enclosed
import BarrierLowering.Proofs.SplitWalks
import BarrierLowering.Proofs.Erased
import BarrierLowering.Proofs.Relowered
import BarrierLowering.Proofs.Rearranged
import BarrierLowering.Proofs.Uniform
import BarrierLowering.Proofs.Fresh
import BarrierLowering.Proofs.Kernelwise
import BarrierLowering.Proofs.Counting
import BarrierLowering.Proofs.Script
import BarrierLowering.Proofs.StageCount
import BarrierLowering.Proofs.Rejected
import BarrierLowering.Proofs.Limit
import BarrierLowering.Proofs.Acyclic
import BarrierLowering.Proofs.SplitDominance
import BarrierLowering.Proofs.RegionShape
import BarrierLowering.Proofs.Intact
import BarrierLowering.Proofs.Grammar
import BarrierLowering.Proofs.Chained
import BarrierLowering.Proofs.MemberNames
import BarrierLowering.Proofs.Keywords
import BarrierLowering.Proofs.Arrivals
import BarrierLowering.Proofs.RoundTrip
import BarrierLowering.Proofs.Patterns
