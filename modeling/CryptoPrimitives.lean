import CryptoPrimitives.Algorithm
import CryptoPrimitives.BigInt.Arithmetic
import CryptoPrimitives.BigInt.Basic
import CryptoPrimitives.BigInt.Bytes
import CryptoPrimitives.BigInt.Division
import CryptoPrimitives.BigInt.Euclid
import CryptoPrimitives.BigInt.Order
import CryptoPrimitives.BigInt.Radix
import CryptoPrimitives.BigInt.Random
import CryptoPrimitives.BigInt.Shift
import CryptoPrimitives.BigInt.Storage
import CryptoPrimitives.Bytes
import CryptoPrimitives.Cipher.Aes
import CryptoPrimitives.Cipher.BlockCipher
import CryptoPrimitives.Csprng.Action
import CryptoPrimitives.Csprng.Manager
import CryptoPrimitives.Csprng.Policy
import CryptoPrimitives.Csprng.Shared
import CryptoPrimitives.Drbg.Basic
import CryptoPrimitives.Drbg.Ctr
import CryptoPrimitives.Drbg.Derivation
import CryptoPrimitives.Drbg.Hmac
import CryptoPrimitives.Drbg.Mechanism
import CryptoPrimitives.Entropy.Collection
import CryptoPrimitives.Entropy.Conditioning
import CryptoPrimitives.Entropy.Health
import CryptoPrimitives.Entropy.Source
import CryptoPrimitives.Entropy.Tested
import CryptoPrimitives.Fault
import CryptoPrimitives.Hash.Digest
import CryptoPrimitives.Hash.Hmac
import CryptoPrimitives.Hash.Padding
import CryptoPrimitives.Hash.Sha256
import CryptoPrimitives.Hash.Sha512
import CryptoPrimitives.Limb.Basic
import CryptoPrimitives.Limb.Choice
import CryptoPrimitives.LogLine
import CryptoPrimitives.Recorded
import CryptoPrimitives.Replay.Generator
import CryptoPrimitives.Replay.Policy
import CryptoPrimitives.Replay.Script
import CryptoPrimitives.Replay.Tape
import CryptoPrimitives.Residue.Division
import CryptoPrimitives.Residue.Montgomery
import CryptoPrimitives.Residue.Reducer
import CryptoPrimitives.Units.Basic
import CryptoPrimitives.Units.Checked
import CryptoPrimitives.Units.Division
import CryptoPrimitives.Units.Montgomery
import CryptoPrimitives.Units.Product
import CryptoPrimitives.Units.Shift
import CryptoPrimitives.Units.Sum
import CryptoPrimitives.Proofs.Limb.Carry
import CryptoPrimitives.Proofs.Limb.Choice
import CryptoPrimitives.Proofs.Units.Value
import CryptoPrimitives.Proofs.Units.Product
import CryptoPrimitives.Proofs.Units.Shift
import CryptoPrimitives.Proofs.Units.QuotientLimb
import CryptoPrimitives.Proofs.Units.LongDivision
import CryptoPrimitives.Proofs.BigInt.Arithmetic
import CryptoPrimitives.Proofs.BigInt.Division
import CryptoPrimitives.Proofs.BigInt.Shift
import CryptoPrimitives.Proofs.Units.Montgomery
import CryptoPrimitives.Proofs.Residue.Montgomery
import CryptoPrimitives.Proofs.Residue.Division
import CryptoPrimitives.Proofs.Residue.Reducer
import CryptoPrimitives.Proofs.Drbg.Refinement
import CryptoPrimitives.Proofs.Hash.Mac
import CryptoPrimitives.Proofs.Hash.Intake
import CryptoPrimitives.Proofs.Hash.Reuse
import CryptoPrimitives.Proofs.Csprng.Fatal
import CryptoPrimitives.Proofs.BigInt.Integers
import CryptoPrimitives.Proofs.BigInt.Workspace
import CryptoPrimitives.Proofs.Radix.RoundTrip
import CryptoPrimitives.Proofs.BigInt.Renditions
import CryptoPrimitives.Proofs.Drbg.Atomic
import CryptoPrimitives.Proofs.Csprng.ExplicitReseed
import CryptoPrimitives.Proofs.Csprng.Pacing
import CryptoPrimitives.Proofs.BigInt.Euclid
import CryptoPrimitives.Proofs.BigInt.Inverse
import CryptoPrimitives.Proofs.Drbg.Pieces
import CryptoPrimitives.Proofs.Cipher.Injective
import CryptoPrimitives.Proofs.Drbg.DistinctCounters
import CryptoPrimitives.Proofs.Residue.Product
import CryptoPrimitives.Proofs.Entropy.Attempts
import CryptoPrimitives.Proofs.Entropy.FirstFailure
import CryptoPrimitives.Proofs.Entropy.SideBySide
import CryptoPrimitives.Proofs.Entropy.Stream
import CryptoPrimitives.Proofs.Entropy.Conditioned
import CryptoPrimitives.Proofs.Csprng.Split
import CryptoPrimitives.Proofs.Units.Prefix
import CryptoPrimitives.Proofs.BigInt.Bits
import CryptoPrimitives.Proofs.Units.Rows
import CryptoPrimitives.Proofs.BigInt.Bytes
import CryptoPrimitives.Proofs.Bytes.Counting
import CryptoPrimitives.Proofs.BigInt.Candidates
import CryptoPrimitives.Proofs.BigInt.Sampling
import CryptoPrimitives.Proofs.BigInt.Uniform
import CryptoPrimitives.Proofs.Units.Ripples
import CryptoPrimitives.Proofs.Units.Order
import CryptoPrimitives.Proofs.BigInt.Order
import CryptoPrimitives.Proofs.Units.Refusals
import CryptoPrimitives.Proofs.Limb.Newton
import CryptoPrimitives.Proofs.Radix.Reserved
import CryptoPrimitives.Proofs.BigInt.Capacity
import CryptoPrimitives.Proofs.BigInt.Account
import CryptoPrimitives.Proofs.Residue.Account
import CryptoPrimitives.Proofs.BigInt.Lifetimes
import CryptoPrimitives.Proofs.BigInt.Books
