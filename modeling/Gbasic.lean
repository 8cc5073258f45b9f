import Gbasic.KeyOrder
import Gbasic.KeyRound
import Gbasic.LsmBufferRun
import Gbasic.TableAtomic
import Gbasic.VersionHistory
import Gbasic.TableAgreeRun
import Gbasic.SqlBefore
import Gbasic.SqlSerialRun
import Gbasic.SerializeSame
import Gbasic.OwnerLive
import Gbasic.OwnerInside
import Gbasic.OwnerOrder
import Gbasic.SqlCheckRun
import Gbasic.LsmManifestRound
import Gbasic.ValueEqualSame
import Gbasic.CowAssign
import Gbasic.SqlIndexName
import Gbasic.DateArith
import Gbasic.DateSame
import Gbasic.MoneyWrite
import Gbasic.MoneyFactor
import Gbasic.LsmRaw
import Gbasic.SqlLike
import Gbasic.SqlSplit
import Gbasic.XsortStable
import Gbasic.SqlSetChain
import Gbasic.HashJoinScan
import Gbasic.StringIndex
import Gbasic.RecordRun
import Gbasic.SortValues
import Gbasic.BusinessHoursRound
import Gbasic.AccountingClose
import Gbasic.LendingPayoff
import Gbasic.CsvRound
import Gbasic.ActorFrame
import Gbasic.ActorInbox
import Gbasic.ActorDrain
import Gbasic.Wire
import Gbasic.SqlRecursive
import Gbasic.SqlWindow
import Gbasic.CrcSame
