import FlashStack.Ubi.Commitment
import FlashStack.Ubi.Protection
import FlashStack.Ubi.LayoutAtomic
import FlashStack.Ubi.ScanOrder
import FlashStack.Ubi.IoInit
import FlashStack.Ubi.VolRead
import FlashStack.Ubi.LebChange
import FlashStack.Ubi.Update
import FlashStack.Ubi.VolumeFailure
import FlashStack.Ubi.VolumePebs
import FlashStack.Uftl.Remount
import FlashStack.Uftl.Aging
import FlashStack.Uftl.Geometry
import FlashStack.Uftl.IndexBounds
import FlashStack.Ubifs.Budget
import FlashStack.Ubifs.IndexCommit
import FlashStack.Ubifs.LogRing
import FlashStack.Ubifs.SpaceStats
import FlashStack.Ubifs.DfltLptReadable
import FlashStack.Ubifs.MasterRecovery
import FlashStack.Ubifs.OrphanSurvival
import FlashStack.Ubifs.BudBytes
import FlashStack.Ubifs.BudsLog
import FlashStack.Ubifs.Packing
import FlashStack.Ubifs.SizeCovered
import FlashStack.Ubifs.TncHasNode
import FlashStack.Lib.BigEndian
import FlashStack.Lib.SearchTree
import FlashStack.Ubi.OpenCounts
import FlashStack.Ubifs.Xattr
import FlashStack.Ubi.ScanTrees
import FlashStack.Ubifs.FindFree
import FlashStack.Ubifs.WbufTransparent
import FlashStack.Ubifs.RecoverEnds
import FlashStack.Ubifs.ScanEnds
import FlashStack.Ubifs.ConsolidationKeeps
import FlashStack.Uftl.PowerCuts
import FlashStack.Ubifs.Readdir
import FlashStack.Ubi.LockTree
