import UnlearnShield.Library.Dict
import UnlearnShield.Library.BitTrie
import UnlearnShield.Python.Bytes
import UnlearnShield.Python.Int
import UnlearnShield.Python.Value
import UnlearnShield.Python.Json
import UnlearnShield.Crypto.Sha256
import UnlearnShield.Verify.Smt
import UnlearnShield.Verify.SmtTree
import UnlearnShield.Verify.SmtProof
import UnlearnShield.Verify.SmtVerify
import UnlearnShield.Verify.SmtSound
import UnlearnShield.Python.JsonText
import UnlearnShield.Verify.Manifest
import UnlearnShield.Verify.VerifierCli
import UnlearnShield.Verify.SmtComplete
import UnlearnShield.Library.Program
import UnlearnShield.Engine.Data
import UnlearnShield.Verify.ManifestStorage
import UnlearnShield.Engine.Train
import UnlearnShield.Engine.Batch
import UnlearnShield.Engine.Rebuild
import UnlearnShield.Engine.Gbdt
import UnlearnShield.Engine.Active
import UnlearnShield.Engine.Certificates
import UnlearnShield.Engine.Progress
import UnlearnShield.Engine.Unlearning
import UnlearnShield.Engine.Noninterference
import UnlearnShield.Engine.Outcome
import UnlearnShield.Engine.Agreement
import UnlearnShield.Engine.History
import UnlearnShield.Engine.Provenance
import UnlearnShield.Engine.Interruption
import UnlearnShield.Library.Interleaving
import UnlearnShield.Engine.Partition
import UnlearnShield.Engine.TwoWorkers
import UnlearnShield.Library.Arrays
import UnlearnShield.Engine.Build
import UnlearnShield.Engine.Corpus
import UnlearnShield.Engine.Faithful
import UnlearnShield.Engine.Erasable
import UnlearnShield.Library.Segments
import UnlearnShield.Verify.Merkle
import UnlearnShield.Verify.MerkleSound
import UnlearnShield.Library.Pool
import UnlearnShield.Db.Tables
import UnlearnShield.Gateway.Erasure
import UnlearnShield.Gateway.Idempotency
import UnlearnShield.Verify.MerklePath
import UnlearnShield.Verify.MerkleComplete
import UnlearnShield.Verify.ProofChecking
import UnlearnShield.Engine.TreesPerSlice
import UnlearnShield.Verify.SmtFresh
import UnlearnShield.Engine.Slicer
import UnlearnShield.Library.Ranks
import UnlearnShield.Data.EvalSet
import UnlearnShield.Library.Effects
import UnlearnShield.Db.Server
import UnlearnShield.Db.Statements
import UnlearnShield.Inference.BatchedEnsemble
import UnlearnShield.Worker.World
import UnlearnShield.Worker.Jobs
import UnlearnShield.Worker.Frames
import UnlearnShield.Worker.Alone
import UnlearnShield.Worker.Promotion
import UnlearnShield.Worker.Promotions
import UnlearnShield.Worker.Groups
import UnlearnShield.Scripts.LoadRouting
import UnlearnShield.Gateway.Predict
import UnlearnShield.Verify.MerkleUnique
import UnlearnShield.Data.PrecisionRecall
import UnlearnShield.Worker.Claimed
import UnlearnShield.Worker.Failures
import UnlearnShield.Worker.Returns
import UnlearnShield.Worker.Served
import UnlearnShield.Engine.Locality
import UnlearnShield.Worker.Batching
import UnlearnShield.Worker.TwoStores
import UnlearnShield.Library.Contract
import UnlearnShield.Db.Locks
import UnlearnShield.Db.Leases
import UnlearnShield.Worker.Fleet
import UnlearnShield.Worker.Discipline
import UnlearnShield.Worker.Ledger
import UnlearnShield.Worker.Audit
import UnlearnShield.Worker.Issued
import UnlearnShield.Gateway.Attest
import UnlearnShield.Engine.Shrinking
import UnlearnShield.Library.Faults
import UnlearnShield.Engine.Faults
import UnlearnShield.Worker.Erased
import UnlearnShield.Worker.Whole
import UnlearnShield.Library.Delimited
import UnlearnShield.Python.JsonReading
import UnlearnShield.Verify.Accepted
import UnlearnShield.Worker.Finished
import UnlearnShield.Worker.Artifacts
import UnlearnShield.Worker.Turns
import UnlearnShield.Worker.Watching
import UnlearnShield.Worker.Scalers
