import InterBase.Library.Memory
import InterBase.Library.RunLength
import InterBase.Library.EditScript
import InterBase.Library.BigEndian
import InterBase.Library.KeyOrder
import InterBase.Library.FrontCoding
import InterBase.Machine
import InterBase.Sqz
import InterBase.SqzRoundTrip
import InterBase.SqzDifferences
import InterBase.SqzDelta
import InterBase.CompressNumeric
import InterBase.CompressOrder
import InterBase.Btr
import InterBase.BtrFindLeaf
import InterBase.BtrInsert
import InterBase.BtrPlacement
import InterBase.BtrInsertSpec
import InterBase.BtrInsertNode
import InterBase.BtrSplit
import InterBase.BtrSplitNode
import InterBase.BtrRemove
import InterBase.BtrDelete
import InterBase.BtrMerge
import InterBase.Tra
import InterBase.TraInventory
import InterBase.Library.Segments
import InterBase.Tpc
import InterBase.TpcCache
import InterBase.TpcRun
import InterBase.Pag
import InterBase.PagAllocate
import InterBase.Library.Acyclic
import InterBase.Cch
import InterBase.CchPrecedence
import InterBase.Library.LexCompare
import InterBase.SortKey
import InterBase.SortKeyField
import InterBase.SortKeyCompare
import InterBase.SortKeyRecord
import InterBase.SortKeyOrder
import InterBase.Library.Intervals
import InterBase.Sort
import InterBase.SortWords
import InterBase.SortQuick
import InterBase.SortRun
import InterBase.SortPass
import InterBase.SortDuplicates
import InterBase.SortCorrect
import InterBase.Library.Kleene
import InterBase.Evl
import InterBase.EvlBoolean
import InterBase.EvlKleene
import InterBase.Library.Search
import InterBase.Sbm
import InterBase.SbmMembers
import InterBase.SbmAlgebra
import InterBase.SbmNext
import InterBase.SbmScan
import InterBase.SbmIteration
import InterBase.SbmEnumeration
import InterBase.Lock
import InterBase.LockTable
import InterBase.Library.DepthFirst
import InterBase.LockWalk
import InterBase.LockInvariant
import InterBase.LockGrant
import InterBase.LockOwner
import InterBase.LockDeadlock
import InterBase.Xdr
import InterBase.XdrRoundTrip
import InterBase.XdrMessage
import InterBase.Blb
import InterBase.RemoteBlob
import InterBase.RemoteBlobEqual
import InterBase.Vax
import InterBase.Lex
import InterBase.LexToken
import InterBase.Literal
import InterBase.LiteralRoundTrip
import InterBase.LiteralSurvives
import InterBase.BurpBlob
import InterBase.FetchLeft
import InterBase.FetchLeftExact
import InterBase.FetchLeftRun
import InterBase.EvlAnsi
import InterBase.EvlAnsiLoops
import InterBase.EvlAnsiRun
import InterBase.EvlGroup
import InterBase.EvlGroupCells
import InterBase.EvlGroupRun
import InterBase.EvlGroupExact
import InterBase.SqzPartial
import InterBase.SqzDamaged
import InterBase.Int64Key
import InterBase.Library.Groups
import InterBase.BtrKey
import InterBase.BtrFindNode
import InterBase.BtrRoot
import InterBase.Dpm
import InterBase.DpmSpace
import InterBase.TraCleanup
import InterBase.LockDowngrade
import InterBase.SortSpace
import InterBase.SortSpaceRun
import InterBase.SortOrder
import InterBase.PagClump
import InterBase.PagClumpRun
import InterBase.Library.Links
import InterBase.LockQue
import InterBase.Library.Padded
import InterBase.BlobRead
import InterBase.BlobCompare
import InterBase.BlobCompareCuts
import InterBase.Library.LinkedTree
import InterBase.Btc
import InterBase.BtcFlush
import InterBase.BtcWalk
import InterBase.BtcFlushRun
import InterBase.BtcFlushSound
import InterBase.Library.Rounding
import InterBase.Cvt
import InterBase.CvtScale
import InterBase.Library.Decimal
import InterBase.CvtText
import InterBase.CvtDigits
import InterBase.CvtDecompose
import InterBase.CvtLiteral
import InterBase.CvtExact
import InterBase.CvtInteger
import InterBase.CvtCompare
import InterBase.Library.Gregorian
import InterBase.GdsDate
import InterBase.InfoMerge
import InterBase.Library.SortList
import InterBase.CheckSorts
import InterBase.CheckSortsSafe
import InterBase.SingularCheck
import InterBase.BlrMessagesNet
import InterBase.StatusVectorSurvives
import InterBase.AllPool
import InterBase.AllAlloc
import InterBase.AllHuge
import InterBase.AllRun
import InterBase.EvlLike
import InterBase.EvlArith
import InterBase.EvlDivide
import InterBase.EvlDate
import InterBase.GdsAllocRun
import InterBase.CvtDatetimeRoundTrip
import InterBase.OptPathExact
import InterBase.BurpSliceRoundTrip
import InterBase.RestoreArrayExact
import InterBase.WalrCrash
