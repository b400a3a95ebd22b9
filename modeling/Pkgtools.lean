import Pkgtools.Checksum
import Pkgtools.CLib.Text
import Pkgtools.CLib.Numeral
import Pkgtools.Vfp
import Pkgtools.CLib.Directory
import Pkgtools.SwapContents
import Pkgtools.CLib.Fnmatch
import Pkgtools.AdminLock
import Pkgtools.AdminLockRuns
import Pkgtools.AdminLockExclusion
import Pkgtools.AdminLockRelease
import Pkgtools.CLib.Parse
import Pkgtools.CLib.Lines
import Pkgtools.Entry
import Pkgtools.SearchContents
import Pkgtools.EntryLine
import Pkgtools.LineParse
import Pkgtools.ScanContents
import Pkgtools.EntryText
import Pkgtools.LineLocality
import Pkgtools.RoundTrip
import Pkgtools.NarrowSearch
import Pkgtools.SearchSorted
import Pkgtools.AdminLockFile
import Pkgtools.CLib.BlockText
import Pkgtools.CLib.Chunks
import Pkgtools.CLib.Escape
import Pkgtools.CLib.KeyedMerge
import Pkgtools.CLib.RecordReader
import Pkgtools.CLib.Scanf
import Pkgtools.CLib.Squeeze
import Pkgtools.CLib.StringHeap
import Pkgtools.DataStream
import Pkgtools.Delmap
import Pkgtools.DevReserv
import Pkgtools.DevReservRuns
import Pkgtools.DevTab
import Pkgtools.DevTabFrame
import Pkgtools.DevTabOps
import Pkgtools.DgrpTab
import Pkgtools.DgrpTabRead
import Pkgtools.DgrpTabUnion
import Pkgtools.DockSpace
import Pkgtools.DockSpaceExact
import Pkgtools.HeaderLines
import Pkgtools.HeaderRoundTrip
import Pkgtools.MergeClass
import Pkgtools.MergeEntry
import Pkgtools.MergeRuns
import Pkgtools.PkgMap
import Pkgtools.PkgMapEntry
import Pkgtools.PkgMapRoundTrip
import Pkgtools.Prototype
import Pkgtools.PrototypeScope
import Pkgtools.Sml
import Pkgtools.SmlRoundTrip
import Pkgtools.TableKeeps
import Pkgtools.TableLock
import Pkgtools.VfpAppend
import Pkgtools.PkgMapContents
import Pkgtools.CLib.FlaggedMerge
import Pkgtools.SearchPastEnd
import Pkgtools.OldStyle
import Pkgtools.ContentsWriters
import Pkgtools.TrailingComments
import Pkgtools.AttributeRepair
import Pkgtools.SpecialContents
import Pkgtools.MergeOwnClass
import Pkgtools.DryRun
import Pkgtools.MergeVerifyMode
import Pkgtools.CLib.Words
import Pkgtools.CLib.ArrayShift
import Pkgtools.CLib.PointerArray
import Pkgtools.CLib.Collect
import Pkgtools.ClassList
import Pkgtools.MergInfo
import Pkgtools.PkgName
import Pkgtools.LockSymmetry
import Pkgtools.InstallRoot
import Pkgtools.SpecialSearch
import Pkgtools.SmlDecode
import Pkgtools.MergeSymlink
import Pkgtools.PkgObjMap
import Pkgtools.CLib.IndexTree
import Pkgtools.BlockEstimate
import Pkgtools.CLib.Tokens
import Pkgtools.PkgStr
import Pkgtools.MapPath
import Pkgtools.Canonize
import Pkgtools.EvalPath
import Pkgtools.PkgParam
import Pkgtools.DependFile
import Pkgtools.CLib.ByteBlock
import Pkgtools.ListMgr
import Pkgtools.CLib.StepRun
import Pkgtools.SplPkgMap
import Pkgtools.SplPkgMapRuns
import Pkgtools.SplPkgMapParts
import Pkgtools.DsOrder
import Pkgtools.VersCmp
import Pkgtools.NodeCount
import Pkgtools.MergInfoTable
import Pkgtools.DevTabBuffer
import Pkgtools.EptstatList
import Pkgtools.MenuMatch
import Pkgtools.TokenCopies
import Pkgtools.SepTables
import Pkgtools.CkTime
import Pkgtools.CLib.Chains
import Pkgtools.NameCache
import Pkgtools.NameCacheRuns
import Pkgtools.NameLookup
import Pkgtools.MergeResolved
import Pkgtools.EncodeBinary
import Pkgtools.CLib.ParentTree
import Pkgtools.CLib.RedBlack
import Pkgtools.Rbtree
import Pkgtools.RbtreeCursor
import Pkgtools.RbtreeInsert
import Pkgtools.RbtreeDelete
import Pkgtools.RbtreeTable
import Pkgtools.RbtreeTrans
import Pkgtools.RbtreeCheck
import Pkgtools.HashTable
import Pkgtools.HashKeys
import Pkgtools.GetDev
import Pkgtools.DevAttr
import Pkgtools.GetDgrp
import Pkgtools.SmlEdit
import Pkgtools.SmlSpaces
import Pkgtools.PutParam
import Pkgtools.CondInfo
import Pkgtools.SmlFileStat
