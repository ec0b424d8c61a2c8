import HyperscaleVm.Effects.Admission.Issuance
import HyperscaleVm.Effects.Star.Proofs
import HyperscaleVm.Kernel.Session.Identities
import HyperscaleVm.Effects.Admission.Linear
import HyperscaleVm.Effects.Admission.ReachedValue
import HyperscaleVm.Kernel.Session.Seals
import HyperscaleVm.Kernel.Session.Priced
import HyperscaleVm.Kernel.Executor.Netting
import HyperscaleVm.Hbor.Merkle
import HyperscaleVm.Guests.Recovery
import HyperscaleVm.Hbor.Types
import HyperscaleVm.Effects.Wire.SignedContent
import HyperscaleVm.Kernel.Session.Pages
import HyperscaleVm.Kernel.Session.Gates
import HyperscaleVm.Effects.Admission.Interleave
import HyperscaleVm.Effects.Admission.Absences
import HyperscaleVm.Kernel.Session.Provisioned
import HyperscaleVm.Kernel.ArrivalOrder
import HyperscaleVm.Kernel.Session.Movements
import HyperscaleVm.Types.FixedPow
import HyperscaleVm.Kernel.Session.Shares
import HyperscaleVm.Effects.Decimal
import HyperscaleVm.Types.Work
import HyperscaleVm.Kernel.Executor.Groups
