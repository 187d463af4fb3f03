import SolanaM.Membership
import SolanaM.Sdk.OwnProofs
import SolanaM.Sdk.Canonical
import SolanaM.Sdk.AddLeaf
import SolanaM.Sdk.VerifierAgreement
import SolanaM.Sdk.ClaimTiling
import SolanaM.Sdk.ClaimRounding
import SolanaM.Sdk.Rewards
import SolanaM.Sdk.Balance
import SolanaM.Sdk.TieBreaking
import SolanaM.Sdk.ExtGlobal
import SolanaM.Earn.Bridging
import SolanaM.Earn.Roots
import SolanaM.Earn.Registry
import SolanaM.Earn.Multiplier
import SolanaM.Earn.Migration
import SolanaM.Earn.Recovery
import SolanaM.Earn.Unbounded
import SolanaM.Earn.Custody
import SolanaM.Earn.Listed
import SolanaM.Earn.Relay
import SolanaM.Services.Cli
import SolanaM.Substreams.Balances
import SolanaM.Substreams.EventCodec
import SolanaM.Substreams.EventRows
import SolanaM.Substreams.Links
import SolanaM.Substreams.Consistency
import SolanaM.Substreams.Replay
import SolanaM.Substreams.Holdings
import SolanaM.Substreams.Transfers
import SolanaM.Services.Distribution
