import PathScript.Inspect
import PathScript.Settings
import PathScript.Proofs.Isolation
import PathScript.Proofs.Registry
import PathScript.Proofs.Tier
import PathScript.Proofs.Options
import PathScript.Proofs.Setter
import PathScript.Proofs.Folding
import PathScript.Proofs.Leaving
import PathScript.Proofs.Egress
import PathScript.Proofs.Balanced
import PathScript.Proofs.Confined
import PathScript.Proofs.Registers
import PathScript.Proofs.Writes
import PathScript.Proofs.Overload
import PathScript.Proofs.Equality
import PathScript.Proofs.Reserved
import PathScript.Proofs.Lines
import PathScript.Proofs.Characters
import PathScript.Proofs.Documents
import PathScript.Proofs.Insertion
import PathScript.Proofs.Integers
import PathScript.Proofs.Cuts
