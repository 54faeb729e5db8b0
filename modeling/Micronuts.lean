import Micronuts.Lib.Checked
import Micronuts.Lib.Exec
import Micronuts.Lib.Table
import Micronuts.Lib.Run
import Micronuts.Lib.Upholds
import Micronuts.Lib.Ledger
import Micronuts.Lib.Text
import Micronuts.Lib.Window
import Micronuts.Lib.Decoder
import Micronuts.Lib.Codec
import Micronuts.Lib.Ring
import Micronuts.Crypto
import Micronuts.Nuts.Messages
import Micronuts.Nuts.Json
import Micronuts.Nuts.Nut10
import Micronuts.Nuts.Nut11
import Micronuts.Nuts.Nut14
import Micronuts.Nuts.Nut20
import Micronuts.Nuts.Conditions
import Micronuts.Nuts.JsonPrefix
import Micronuts.Nuts.WitnessJson
import Micronuts.Nuts.Blinding
import Micronuts.Nuts.Nut13
import Micronuts.Nuts.Nut00
import Micronuts.Nuts.Token
import Micronuts.Nuts.Base64url
import Micronuts.Nuts.TokenEncode
import Micronuts.Nuts.Wire
import Micronuts.Mint.Spending
import Micronuts.Mint.State
import Micronuts.Mint.Core
import Micronuts.Mint.Inputs
import Micronuts.Mint.Outputs
import Micronuts.Mint.Calls
import Micronuts.Mint.Spends
import Micronuts.Mint.Runs
import Micronuts.Mint.Tables
import Micronuts.Mint.QuoteLifecycle
import Micronuts.Mint.Restore
import Micronuts.Mint.Durability
import Micronuts.Mint.Issuance
import Micronuts.Mint.NoInflation
import Micronuts.Mint.DoubleSpend
import Micronuts.Mint.PayOnce
import Micronuts.Mint.Acceptance
import Micronuts.Mint.Refusals
import Micronuts.Mint.UncertainPayments
import Micronuts.Mint.SpendingSound
import Micronuts.Mint.QuoteLocks
import Micronuts.Mint.SignedOnce
import Micronuts.Mint.SigAllMessage
import Micronuts.Wallet.Conditions
import Micronuts.Wallet.Stranded
import Micronuts.Wallet.Persistent
import Micronuts.Wallet.Calls
import Micronuts.Wallet.Credits
import Micronuts.Wallet.Scan
import Micronuts.Wallet.Recovery
import Micronuts.Wallet.Signing
import Micronuts.Wallet.IndexReuse
import Micronuts.Gate.WalletPort
import Micronuts.Gate.TokenText
import Micronuts.Gate.TokenWire
import Micronuts.Gate.Offline
import Micronuts.Gate.Controller
import Micronuts.Gate.Openings
import Micronuts.Gate.Replay
import Micronuts.Fips.Frag
import Micronuts.Fips.Reassembly
import Micronuts.Fips.Drops
import Micronuts.Device.Protocol
import Micronuts.Device.Chunks
import Micronuts.Device.Scanflow
import Micronuts.Device.Scanning
import Micronuts.Rpc.Envelope
import Micronuts.Rpc.Transparency
import Micronuts.Rpc.Derived
import Micronuts.Fips.Bridge
import Micronuts.Audit.MintProcess
import Micronuts.Audit.Pairing
import Micronuts.Wire.Client
import Micronuts.Wire.Value
import Micronuts.Audit.Translate
import Micronuts.Wire.Agreement
import Micronuts.Audit.CachedPost
import Micronuts.Audit.Repeats
import Micronuts.Mint.MeltChange
import Micronuts.Nuts.JsonParserExact
import Micronuts.Device.Session
import Micronuts.Device.TokenInfo
import Micronuts.Device.SwapLimits
import Micronuts.Lib.Coins
import Micronuts.Wallet.Denominations
import Micronuts.Wallet.Selection
import Micronuts.Wallet.ExactSearch
import Micronuts.Nuts.TokenCompat
import Micronuts.Wallet.Engine
import Micronuts.Wallet.Swaps
import Micronuts.Wallet.EngineRules
import Micronuts.Wallet.Steady
import Micronuts.Wallet.Bookkeeping
import Micronuts.Wallet.Melts
import Micronuts.Wallet.MeltFunds
import Micronuts.Wallet.Composes
import Micronuts.Wallet.Requests
import Micronuts.Wallet.Fees
import Micronuts.Wallet.CoinSelection
import Micronuts.Wallet.Sends
import Micronuts.Wallet.Custody
import Micronuts.Wallet.SendFidelity
import Micronuts.Wallet.Reclaims
import Micronuts.Wallet.Receives
import Micronuts.Lib.Crc
import Micronuts.Wallet.EnvelopeBytes
import Micronuts.Lib.BlindDh
import Micronuts.Nuts.Dhke
import Micronuts.Lib.SwapRemove
import Micronuts.Reserve.Upstream
import Micronuts.Reserve.Wallet
import Micronuts.Reserve.Bootstrap
import Micronuts.Reserve.Payments
import Micronuts.Wallet.Payload
import Micronuts.Nuts.Nut02
import Micronuts.Card.Satocash
import Micronuts.Nuts.TokenV3
import Micronuts.Mint.Keysets
import Micronuts.Mint.Signatures
import Micronuts.Mint.StateCheck
import Micronuts.System.Coins
import Micronuts.System.Recovery
import Micronuts.System.Exchange
import Micronuts.Mint.Presented
import Micronuts.System.Closed
import Micronuts.Lib.Disk
import Micronuts.Store.Files
import Micronuts.Store.StateFile
import Micronuts.Terminal.Atom
import Micronuts.Terminal.Tollgate
