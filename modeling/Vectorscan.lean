import Vectorscan.Lib.Word
import Vectorscan.Lib.BitMemory
import Vectorscan.Multibit.Layout
import Vectorscan.Multibit.Flat
import Vectorscan.Multibit.Tree
import Vectorscan.Multibit.TreeIterate
import Vectorscan.Multibit.Query
import Vectorscan.Multibit.Update
import Vectorscan.Multibit.InitRangePlan
import Vectorscan.Lib.Loop
import Vectorscan.Lib.Refinement
import Vectorscan.Multibit.SparseIter
import Vectorscan.Lib.SortedMap
import Vectorscan.Multibit.SparseBuild
import Vectorscan.Multibit.SparseExec
import Vectorscan.Multibit.SparseIterate
import Vectorscan.Multibit.Refinement
import Vectorscan.Repeat.Info
import Vectorscan.Repeat.Ring
import Vectorscan.Repeat.Models
import Vectorscan.Repeat.Sparse
import Vectorscan.Repeat.Dispatch
import Vectorscan.Repeat.RangeList
import Vectorscan.Repeat.Period
import Vectorscan.Nfa.Queue
import Vectorscan.Nfa.Scan
import Vectorscan.Lbr.Runtime
import Vectorscan.Multibit.ForEach
import Vectorscan.Castle.Runtime
import Vectorscan.Castle.Exclusive
import Vectorscan.Multibit.Compress
import Vectorscan.Stream.Compress
import Vectorscan.Stream.History
import Vectorscan.Report.Dedupe
import Vectorscan.Lib.BlockScan
import Vectorscan.Hwlm.Noodle
import Vectorscan.Hwlm.NoodleBuild
import Vectorscan.Hwlm.NoodleScan
import Vectorscan.Hwlm.NoodleExec
import Vectorscan.Lib.BitSetMap
import Vectorscan.Nfa.Accel
import Vectorscan.Hwlm.Hwlm
import Vectorscan.Rose.LitAccel
import Vectorscan.Rose.LitAccelSpec
import Vectorscan.Parser.LogicalCombination
import Vectorscan.Parser.LogicalTree
import Vectorscan.Parser.Utf8
import Vectorscan.Util.Determinise
import Vectorscan.Util.DeterminiseSpec
import Vectorscan.Lib.Crc
import Vectorscan.Util.Crc32
import Vectorscan.Util.Crc32Spec
import Vectorscan.Util.Depth
import Vectorscan.Rose.Multipath
import Vectorscan.Util.PackBits
import Vectorscan.Util.PQueue
import Vectorscan.Rose.CatchUp
import Vectorscan.Lib.Partition
import Vectorscan.Util.PartitionedSet
import Vectorscan.Lib.PeriodCode
import Vectorscan.Repeat.SparseCode
import Vectorscan.Nfa.SuperVector
import Vectorscan.Nfa.Truffle
import Vectorscan.Nfa.Shufti
import Vectorscan.Nfa.ShuftiDouble
import Vectorscan.Nfa.Vermicelli
import Vectorscan.Nfa.VermicelliDouble


