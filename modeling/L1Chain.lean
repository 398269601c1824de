import L1Chain.Words
import L1Chain.Hex
import L1Chain.GoSlices
import L1Chain.Runs
import L1Chain.Wheel
import L1Chain.Calls
import L1Chain.UndoLog
import L1Chain.Lockstep
import L1Chain.Core
import L1Chain.Rpc
import L1Chain.FeeMarket
import L1Chain.FeeBounds
import L1Chain.StateDB
import L1Chain.Ledger
import L1Chain.Supply
import L1Chain.Exchange
import L1Chain.Browser
import L1Chain.ExchangeSteps
import L1Chain.BookSlots
import L1Chain.Locks
import L1Chain.BookImage
import L1Chain.StackVM
import L1Chain.StackVMSteps
import L1Chain.BalanceUpdates
import L1Chain.StackVMTurns
import L1Chain.GasThreshold
import L1Chain.NoPanic
import L1Chain.Boundaries
import L1Chain.FrameWrites
import L1Chain.CallValue
import L1Chain.Adapter
import L1Chain.AdapterSteps
import L1Chain.Snapshots
import L1Chain.Pos
import L1Chain.Stakes
import L1Chain.Transition
import L1Chain.TransitionSteps
import L1Chain.Effects
import L1Chain.Merkle
import L1Chain.Patricia
import L1Chain.PatriciaNormal
import L1Chain.Trie
import L1Chain.TrieCodec
import L1Chain.TrieSlices
import L1Chain.TrieSteps
import L1Chain.TrieMap
import L1Chain.TrieRoots
import L1Chain.TrieProof
import L1Chain.Mpt
import L1Chain.MptSteps
import L1Chain.MptRuns
import L1Chain.MptRoots
import L1Chain.MptBases
import L1Chain.Journal
import L1Chain.Forest
import L1Chain.Quorum
import L1Chain.FirstSeen
import L1Chain.Chain
import L1Chain.ChainSteps
import L1Chain.HeightIndex
import L1Chain.Reach
import L1Chain.Production
import L1Chain.Devnet
import L1Chain.Auction
import L1Chain.Frame
import L1Chain.Overflow
import L1Chain.Overlay
import L1Chain.OverlaySteps
import L1Chain.StagedAdapter
import L1Chain.StagedBlocks
import L1Chain.Nonces
import L1Chain.Progress
import L1Chain.Votes
import L1Chain.TwoThirds
import L1Chain.Finality
import L1Chain.Replay
import L1Chain.PowRule
import L1Chain.Agreement
import L1Chain.Evidence
import L1Chain.BlockBuilder
import L1Chain.BlockBuilderSteps
import L1Chain.BuildLoop
import L1Chain.BuildOrder
import L1Chain.Store
import L1Chain.Node
import L1Chain.NodeSteps
import L1Chain.Restart
import L1Chain.BranchNonces
import L1Chain.Solvency
import L1Chain.CodeKinds
import L1Chain.BlockBody
import L1Chain.ForkChoice
import L1Chain.OrderIdentity
import L1Chain.Attesting
import L1Chain.Validation
import L1Chain.SupplyEquation
import L1Chain.GasPaid
import L1Chain.BaseFee
import L1Chain.BlockGas
import L1Chain.Crash
import L1Chain.DeliveryOrder
import L1Chain.Mempool
import L1Chain.OwnBlocks
import L1Chain.Liveness
import L1Chain.Sync
import L1Chain.Network
import L1Chain.NetworkRuns
import L1Chain.KeyRuns
import L1Chain.ExchangeQuery
import L1Chain.RpcServer
import L1Chain.LightClient
import L1Chain.Accountability
import L1Chain.Operators
