import Auntie.Bytes
import Auntie.Chain
import Auntie.Guarantees.Agreement
import Auntie.Guarantees.AttestationHandles
import Auntie.Guarantees.BurialDepth
import Auntie.Guarantees.ChainEvidence
import Auntie.Guarantees.ChainVerifierSafety
import Auntie.Guarantees.ClearContractDecoding
import Auntie.Guarantees.DepositCallbacks
import Auntie.Guarantees.DepositDecoding
import Auntie.Guarantees.HandleOwnership
import Auntie.Guarantees.Handles
import Auntie.Guarantees.HandshakeView
import Auntie.Guarantees.HeaderCount
import Auntie.Guarantees.HeaderEncoding
import Auntie.Guarantees.InformedSignature
import Auntie.Guarantees.JointSettlement
import Auntie.Guarantees.KeyAgreement
import Auntie.Guarantees.LocalObjects
import Auntie.Guarantees.Lottery
import Auntie.Guarantees.MerkleBinding
import Auntie.Guarantees.MerklePaths
import Auntie.Guarantees.MessageRoundTrip
import Auntie.Guarantees.MoneyConservation
import Auntie.Guarantees.OneSignature
import Auntie.Guarantees.OperatorHandles
import Auntie.Guarantees.OperatorReleases
import Auntie.Guarantees.OperatorSetup
import Auntie.Guarantees.PlayerHandles
import Auntie.Guarantees.PlayerReleases
import Auntie.Guarantees.PlayerSetup
import Auntie.Guarantees.PlayerSlots
import Auntie.Guarantees.PlayerTable
import Auntie.Guarantees.QuoteDistribution
import Auntie.Guarantees.QuoteFile
import Auntie.Guarantees.QuoteFreshness
import Auntie.Guarantees.QuoteVetting
import Auntie.Guarantees.ReceiveTermination
import Auntie.Guarantees.RecordAuthenticity
import Auntie.Guarantees.RecordBuffer
import Auntie.Guarantees.RecordReuse
import Auntie.Guarantees.ReleaseOnce
import Auntie.Guarantees.RetainedOutput
import Auntie.Guarantees.SendReporting
import Auntie.Guarantees.SettleAfterConfirm
import Auntie.Guarantees.SettlementAnnouncement
import Auntie.Guarantees.SettlementOffer
import Auntie.Guarantees.SpentNotes
import Auntie.Guarantees.StreamIntegrity
import Auntie.Guarantees.VerifiedQuotes
import Auntie.Guarantees.VerifiersAgree
import Auntie.Guarantees.WalletKeys
import Auntie.Guarantees.WalletReads
import Auntie.Guarantees.Withdrawals
import Auntie.Interaction.Contract
import Auntie.Interaction.Interleaving
import Auntie.Interaction.Moments
import Auntie.Interaction.Program
import Auntie.Interaction.Session
import Auntie.Ledger
import Auntie.Merkle
import Auntie.Segments
import Auntie.Source.Build
import Auntie.Source.Common.Channel
import Auntie.Source.Common.Enclave
import Auntie.Source.Common.Messages
import Auntie.Source.Common.Payloads
import Auntie.Source.Common.Zcash
import Auntie.Source.Host.QuoteChecker
import Auntie.Source.Host.Quotes
import Auntie.Source.Operator.Core
import Auntie.Source.Operator.Entry
import Auntie.Source.Operator.Functionality
import Auntie.Source.Operator.Players
import Auntie.Source.Player.Core
import Auntie.Source.Player.Entry
import Auntie.Source.Player.Setup
import Auntie.Source.Zcash.BlockRecords
import Auntie.Source.Zcash.Blocks
import Auntie.Source.Zcash.Transactions
import Auntie.Text
