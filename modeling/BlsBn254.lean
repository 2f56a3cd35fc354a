import BlsBn254.Bytes.Numbers
import BlsBn254.Keys.Verifier
import BlsBn254.Pairing
import BlsBn254.Proofs.Codec.Acceptance
import BlsBn254.Proofs.Codec.Limbs
import BlsBn254.Proofs.Curve.Preimages
import BlsBn254.Proofs.Curve.Subgroup
import BlsBn254.Proofs.Hash.Collision
import BlsBn254.Proofs.Keys.Rejection
import BlsBn254.Proofs.Random.Keystream
import BlsBn254.Proofs.Random.Uniformity
import BlsBn254.Proofs.Runs.Aggregation
import BlsBn254.Proofs.Runs.Packing
import BlsBn254.Proofs.Runs.Possession
import BlsBn254.Proofs.Runs.Scaling
import BlsBn254.Proofs.Runs.Streams
import BlsBn254.Proofs.Scheme.Linearity
import BlsBn254.Proofs.Scheme.Payload
import BlsBn254.Proofs.Scheme.ProductCheck
