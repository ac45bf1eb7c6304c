import Yubtc.Lib.ExceptRules
import Yubtc.Lib.LittleEndian
import Yubtc.Lib.ScriptVm
import Yubtc.Lib.Frames
import Yubtc.Lib.Chunks
import Yubtc.Lib.KeyedList
import Yubtc.Lib.Json
import Yubtc.Lib.Readers
import Yubtc.Lib.Regroup
import Yubtc.Lib.CheckCode
import Yubtc.Lib.Base58
import Yubtc.Lib.XOnly
import Yubtc.Wire
import Yubtc.Text
import Yubtc.Errors
import Yubtc.Bech32
import Yubtc.Bech32RoundTrip
import Yubtc.Crypto
import Yubtc.Script
import Yubtc.Quorum
import Yubtc.QuorumRoundTrip
import Yubtc.QuorumExecution
import Yubtc.Transaction
import Yubtc.PsbtData
import Yubtc.PsbtCodec
import Yubtc.Sizes
import Yubtc.PsbtReading
import Yubtc.Base64
import Yubtc.PsbtRoles
import Yubtc.Signer
import Yubtc.UtxoChecks
import Yubtc.LeafSpend
import Yubtc.PsbtRecords
import Yubtc.CanonicalForm
import Yubtc.RecordCodec
import Yubtc.PsbtLayout
import Yubtc.GlobalRecords
import Yubtc.PsbtRoundTrip
import Yubtc.Canonicalisation
import Yubtc.TrailingData
import Yubtc.Combine
import Yubtc.Lib.Copies
import Yubtc.QuorumPsbt
import Yubtc.QuorumSigning
import Yubtc.SignedState
import Yubtc.Finalizer
import Yubtc.QuorumFinal
import Yubtc.Confluence
import Yubtc.QuorumSpend
import Yubtc.Net
import Yubtc.Failover
import Yubtc.BrokenAnswers
import Yubtc.Lib.Loop
import Yubtc.Lib.StateRules
import Yubtc.Lib.Binary64
import Yubtc.Wallet
import Yubtc.Scan
import Yubtc.Balance
import Yubtc.Selection
import Yubtc.Confirmations
import Yubtc.StartingNonce
import Yubtc.FeeLoop
import Yubtc.Lib.Hex
import Yubtc.Lib.Updates
import Yubtc.DirectSigning
import Yubtc.Payment
import Yubtc.QuorumPayment
import Yubtc.Addresses
import Yubtc.SegwitAddresses
import Yubtc.TaprootKeys
import Yubtc.Conservation
import Yubtc.LowRates
import Yubtc.Funding
import Yubtc.Outpoints
import Yubtc.Digests
import Yubtc.SignWalk
import Yubtc.Seeds
import Yubtc.SigningFrame
import Yubtc.Finalization
import Yubtc.Extraction
import Yubtc.Permanence
import Yubtc.Bech32Distance
import Yubtc.TxCodec
import Yubtc.Broadcast
import Yubtc.QuorumAddresses
import Yubtc.TidyInputs
import Yubtc.Transport
import Yubtc.Pipeline
import Yubtc.QuorumSize
import Yubtc.Retries
import Yubtc.Mnemonics
import Yubtc.SeedDraws
import Yubtc.HdPaths
import Yubtc.Lib.Interleavings
import Yubtc.RoleRuns
import Yubtc.Summary
import Yubtc.Lib.KeyScripts
import Yubtc.KeySpends
import Yubtc.SessionSpends
import Yubtc.QuorumDelivery
import Yubtc.Deposits
import Yubtc.WalletRuns
import Yubtc.WatchOnly
import Yubtc.KeyExport
