import PageCodec.Main
import PageCodec.Page.Decoder
import PageCodec.Proofs.Image
import PageCodec.Proofs.RoundTrip
import PageCodec.Proofs.History
import PageCodec.Proofs.Places
import PageCodec.Proofs.Reuse
import PageCodec.Proofs.Lockstep
import PageCodec.Proofs.Canonical
import PageCodec.Proofs.Phases
import PageCodec.Proofs.Pages
import PageCodec.Proofs.Lengths
import PageCodec.Proofs.Interleaving
import PageCodec.Proofs.Measurement
import PageCodec.Proofs.Bench
import PageCodec.Proofs.Arguments
import PageCodec.Proofs.Bits
import PageCodec.Proofs.Counting
import PageCodec.Proofs.Limits
import PageCodec.Proofs.Verbosity
import PageCodec.Proofs.Accumulation
import PageCodec.Proofs.Files
import PageCodec.Proofs.Arrangements
