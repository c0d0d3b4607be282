import YottaChain.ActorLists
import YottaChain.BftFinality
import YottaChain.BlockCommit
import YottaChain.ChannelSolvency
import YottaChain.CheckerCompleteness
import YottaChain.ConfirmationWindow
import YottaChain.DepositBacking
import YottaChain.IncrementalMerkle
import YottaChain.LockRelease
import YottaChain.LotteryPass
import YottaChain.MinerActivity
import YottaChain.NameAuctions
import YottaChain.NameTexts
import YottaChain.PermissionLinks
import YottaChain.PoolSpace
import YottaChain.PriceGuards
import YottaChain.ProducerLevels
import YottaChain.ProducerPay
import YottaChain.ProducerPlugin
import YottaChain.ProfitAccrual
import YottaChain.RamMarket
import YottaChain.RefundSchedule
import YottaChain.RequiredKeys
import YottaChain.RewardIssue
import YottaChain.ScheduleProposals
import YottaChain.ScheduledTransactions
import YottaChain.SignedTransfers
import YottaChain.StakeAccounting
import YottaChain.SwitchOutcome
import YottaChain.TokenSupply
import YottaChain.TransactionDedup
import YottaChain.UsagePeaks
import YottaChain.VoteTallies
import YottaChain.VoterWeights
import YottaChain.WeightTotals
