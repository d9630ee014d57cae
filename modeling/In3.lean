import In3.Basic.AccountBlock
import In3.Basic.AccountTheorems
import In3.Basic.Filter
import In3.Basic.GetLogBounds
import In3.Basic.TriePath
import In3.Btc.CompactTheorems
import In3.Btc.Hex
import In3.Btc.MerkleTheorems
import In3.Btc.Outputs
import In3.Btc.RoundTripTheorems
import In3.Btc.Script
import In3.Btc.TrustTheorems
import In3.Client.SignRequestTheorems
import In3.Client.SubRequestTheorems
import In3.Core.Access
import In3.Core.BinaryForest
import In3.Core.BinaryRoundTrip
import In3.Core.Escape
import In3.Core.JsonPreorder
import In3.Core.Number
import In3.Evm.Blake2Theorems
import In3.Evm.ExpTheorems
import In3.Evm.IsolationTheorems
import In3.Evm.JumpTheorems
import In3.Evm.MemoryTheorems
import In3.Evm.PrecompiledTheorems
import In3.Evm.RunTheorems
import In3.Evm.ShiftTheorems
import In3.Evm.StackTheorems
import In3.Evm.StorageTheorems
import In3.Nano.BlockheaderTheorems
import In3.Nano.MerkleTheorems
import In3.Nano.RlpBounds
import In3.Nano.RlpTree
import In3.Nodeselect.Indexes
import In3.Nodeselect.NodelistTheorems
import In3.Signer.MultisigTheorems
import In3.Signer.Owners
import In3.Zksync.Amount
import In3.Zksync.MusigTheorems
import In3.Zksync.Pack
