import Bitwire.Bits.UnpackerView
import Bitwire.Bits.View
import Bitwire.Message.Update
import Bitwire.Proofs.AckForms
import Bitwire.Proofs.AddressCode
import Bitwire.Proofs.AddressSize
import Bitwire.Proofs.Alteration
import Bitwire.Proofs.Atomic
import Bitwire.Proofs.Calls
import Bitwire.Proofs.Distrust
import Bitwire.Proofs.Echo
import Bitwire.Proofs.Freshness
import Bitwire.Proofs.IntegerCode
import Bitwire.Proofs.Locality
import Bitwire.Proofs.Lockstep
import Bitwire.Proofs.PackedBits
import Bitwire.Proofs.Phase
import Bitwire.Proofs.Resending
import Bitwire.Proofs.RoundTrip
import Bitwire.Proofs.Safety
import Bitwire.Proofs.SequenceCode
import Bitwire.Proofs.TakenBits
import Bitwire.Proofs.TextCode
import Bitwire.Proofs.Tracing
import Bitwire.Proofs.Truncation
import Bitwire.Proofs.WordPacking
import Bitwire.Stream.Recording
