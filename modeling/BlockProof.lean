import BlockProof.Json.Records
import BlockProof.Proofs.Filter.Loadable
import BlockProof.Proofs.Filter.Pushes
import BlockProof.Proofs.Hash.Spelling
import BlockProof.Proofs.Json.Forms
import BlockProof.Proofs.Scan.Cost
import BlockProof.Proofs.Scan.Recursion
import BlockProof.Proofs.Scan.Verdicts
import BlockProof.Proofs.Sending
import BlockProof.Proofs.Tree.Consumption
import BlockProof.Proofs.Tree.Frontier
import BlockProof.Proofs.Tree.Partition
import BlockProof.Proofs.Tree.RepeatedTail
import BlockProof.Proofs.Tree.Smallest
import BlockProof.Proofs.Wire.Damage
import BlockProof.Proofs.Wire.Packing
