import Harbour.Json.RoundTrip
import Harbour.Rdd.MemoAgree
import Harbour.Rdd.MemoRoundTrip
import Harbour.Rdd.FptIsolation
import Harbour.Vm.HashUnique
import Harbour.Rtl.SerialWalk
import Harbour.Compiler.JumpTargets
import Harbour.Vm.ClassDictRuns
import Harbour.Vm.GarbageCollect
import Harbour.Compiler.DeadCodeLimit
import Harbour.Vm.Increments
import Harbour.Compiler.FoldMerge
import Harbour.Compiler.FoldMixed
import Harbour.Compiler.FoldTrees
import Harbour.Rdd.IdxLockRuns
import Harbour.Rdd.DbfLocks
import Harbour.Rtl.FileThreadRuns
import Harbour.Vm.MutexRuns
import Harbour.Pp.Cycles
import Harbour.Rdd.DbfStructure
import Harbour.Vm.GarbageListRuns
import Harbour.Rtl.CdpCollateMulti
import Harbour.Rtl.LppRuns
import Harbour.Compiler.SwitchArms
import Harbour.Vm.MutexMessageRuns
import Harbour.Vm.CloneIsomorphic
import Harbour.Pp.Conditions
import Harbour.Pp.Strings
import Harbour.Vm.MutexSync
import Harbour.Pp.Traces
import Harbour.Pp.CalcCorrect
import Harbour.Rtl.CdpSizesAgree
import Harbour.Vm.HashJoinSets
import Harbour.Rdd.HsxVerify
import Harbour.Rdd.HsxFailed
import Harbour.Rdd.NtxNumDecode
import Harbour.Rdd.NsxTagList
import Harbour.Rdd.NsxLeafInsert
import Harbour.Rdd.NsxOrdKey
import Harbour.Rdd.CdxSeekPlaces
import Harbour.Rdd.CdxLeafEdit
import Harbour.Common.TimeStampRoundTrip
import Harbour.Common.StrWild
import Harbour.Rtl.Utf8StringAt
import Harbour.Vm.MemvarCleared
import Harbour.Rtl.Blowfish
import Harbour.Rtl.Base64
import Harbour.Rtl.StrReplace
import Harbour.Rdd.DbfRecordLocks
