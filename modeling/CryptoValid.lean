import CryptoValid.Acta.Instants
import CryptoValid.Acta.Jcs
import CryptoValid.Acta.Normal
import CryptoValid.Acta.Refusals
import CryptoValid.Aps.References
import CryptoValid.Aps.Scopes
import CryptoValid.Aps.Separation
import CryptoValid.Cedulon.Basic
import CryptoValid.Cedulon.Checkpoints
import CryptoValid.Cedulon.Effects
import CryptoValid.Cedulon.Ledger
import CryptoValid.Cedulon.OneToOne
import CryptoValid.Cedulon.Records
import CryptoValid.Checkpoint.Cosigned
import CryptoValid.Checkpoint.Note
import CryptoValid.Checkpoint.Opening
import CryptoValid.Checkpoint.RoundTrip
import CryptoValid.Checkpoint.Verify
import CryptoValid.Cldma.Attestation
import CryptoValid.Cldma.Basic
import CryptoValid.Cldma.Binding
import CryptoValid.Cldma.Completeness
import CryptoValid.Cldma.Confidential
import CryptoValid.Cldma.Pedersen
import CryptoValid.Cldma.SpotCheck
import CryptoValid.CoseReceipts
import CryptoValid.DoraIncident
import CryptoValid.DoraIncident.Deadlines
import CryptoValid.Ed25519Order
import CryptoValid.Evidence.Canonical
import CryptoValid.Evidence.Chain
import CryptoValid.EvidencePack.Signed
import CryptoValid.EvidencePack.Verify
import CryptoValid.Fundcert.Canonical
import CryptoValid.Fundcert.Microfinance
import CryptoValid.Fundcert.Quantity
import CryptoValid.Ingest.Listing
import CryptoValid.Ingest.Passing
import CryptoValid.Ingest.Recovery
import CryptoValid.Ingest.Resume
import CryptoValid.Ingest.Sealed
import CryptoValid.Ingest.Writer
import CryptoValid.Jws
import CryptoValid.Lib.Aead
import CryptoValid.Lib.Base64
import CryptoValid.Lib.Binary64
import CryptoValid.Lib.Bytes
import CryptoValid.Lib.Calls
import CryptoValid.Lib.CborRoundTrip
import CryptoValid.Lib.Decimal
import CryptoValid.Lib.DecimalArith
import CryptoValid.Lib.DecimalText
import CryptoValid.Lib.Dict
import CryptoValid.Lib.Digits
import CryptoValid.Lib.Except
import CryptoValid.Lib.Fifo
import CryptoValid.Lib.Gregorian
import CryptoValid.Lib.Groups
import CryptoValid.Lib.HalfEven
import CryptoValid.Lib.HashChain
import CryptoValid.Lib.HashTree.Basic
import CryptoValid.Lib.HashTree.Extension
import CryptoValid.Lib.HashTree.Levels
import CryptoValid.Lib.HashTree.Paths
import CryptoValid.Lib.Json.Basic
import CryptoValid.Lib.Json.Blanks
import CryptoValid.Lib.Json.Graph
import CryptoValid.Lib.Json.Parse
import CryptoValid.Lib.Json.Prescan
import CryptoValid.Lib.Json.Print
import CryptoValid.Lib.Json.Printed
import CryptoValid.Lib.Json.RoundTrip
import CryptoValid.Lib.Json.Same
import CryptoValid.Lib.Json.Simulation
import CryptoValid.Lib.Json.Sound
import CryptoValid.Lib.Json.Spelled
import CryptoValid.Lib.Lines
import CryptoValid.Lib.PrimeOrder
import CryptoValid.Lib.Python
import CryptoValid.Lib.PythonJson
import CryptoValid.Lib.PythonLines
import CryptoValid.Lib.PythonText
import CryptoValid.Lib.Rounding
import CryptoValid.Lib.Runs
import CryptoValid.Lib.Separated
import CryptoValid.Lib.Sha256
import CryptoValid.Lib.Sha256Evaluation
import CryptoValid.Lib.Sha3
import CryptoValid.Lib.SortBy
import CryptoValid.Lib.Text
import CryptoValid.Lib.Timeline
import CryptoValid.Lib.Utf16
import CryptoValid.Lotl
import CryptoValid.Lotl.Cache
import CryptoValid.Merkle.Basic
import CryptoValid.Merkle.Completeness
import CryptoValid.Merkle.Consistency
import CryptoValid.Merkle.Inclusion
import CryptoValid.Merkle.Line
import CryptoValid.Merkle.Proofs
import CryptoValid.Merkle.Tree
import CryptoValid.Merkle.Walkers
import CryptoValid.Monitor
import CryptoValid.Profile
import CryptoValid.Receipt.Codec
import CryptoValid.Receipt.Consistency
import CryptoValid.Rust.Keccak
import CryptoValid.Rust.Sha256
import CryptoValid.Scitt.Statement
import CryptoValid.Scitt.Transparent
import CryptoValid.Signer
import CryptoValid.Signer.Hybrid
import CryptoValid.Solana
import CryptoValid.Tip
import CryptoValid.Tip.Instants
import CryptoValid.TxEvidence.Attest
import CryptoValid.TxEvidence.CostBasis
import CryptoValid.TxEvidence.Matching
import CryptoValid.Verifier.Appends
import CryptoValid.Verifier.Canonical
import CryptoValid.Verifier.Extend
import CryptoValid.Verifier.Ledger
import CryptoValid.Verifier.Loads
import CryptoValid.Verifier.Prescans
import CryptoValid.Verifier.Readers
import CryptoValid.Verifier.Reading
import CryptoValid.Verifier.Tamper
import CryptoValid.Verifier.Writes
import CryptoValid.Witness.Body
import CryptoValid.Witness.Bounds
import CryptoValid.Witness.Cosign
import CryptoValid.Witness.Evidence
import CryptoValid.Witness.Presented
import CryptoValid.Witness.Quorum
import CryptoValid.Witness.Relied
import CryptoValid.Witness.Safety
import CryptoValid.Witness.Service
import CryptoValid.Witness.StateFile
import CryptoValid.Witness.Steps
import CryptoValid.Witness.Submit
import CryptoValid.Worm
