import LinuxFile.Context
import LinuxFile.Inner.Mount
import LinuxFile.Spec.Codec
import LinuxFile.Spec.Table
import LinuxFile.Spec.Persist
import LinuxFile.Spec.Flush
import LinuxFile.Spec.Records
import LinuxFile.Spec.Mount
import LinuxFile.Spec.Inodes
import LinuxFile.Theorems.Sample
import LinuxFile.Theorems.TableGrowth
import LinuxFile.Theorems.CacheRuns
import LinuxFile.Library.Respects
import LinuxFile.Spec.Calm
import LinuxFile.Theorems.Chroot
import LinuxFile.Spec.Resident
import LinuxFile.Library.Agree
import LinuxFile.Theorems.SearchPermission
import LinuxFile.Spec.Handles
import LinuxFile.Facade
import LinuxFile.Theorems.OpenFiles
import LinuxFile.Spec.Rename
import LinuxFile.Theorems.OpenRace
import LinuxFile.Operations
import LinuxFile.Spec.Reach
import LinuxFile.Theorems.DataOrder
import LinuxFile.Spec.Contents
import LinuxFile.Spec.Reading
import LinuxFile.Spec.Sound
import LinuxFile.Spec.RawWrite
import LinuxFile.Spec.Storing
import LinuxFile.Spec.HeldRecord
import LinuxFile.Spec.FileRead
import LinuxFile.Spec.FileWrite
import LinuxFile.Theorems.WriteBack
import LinuxFile.Spec.FileTruncate
import LinuxFile.Spec.Lifetime
import LinuxFile.Spec.Listing
import LinuxFile.Spec.Syncing
import LinuxFile.Spec.Tidy
import LinuxFile.Spec.TidyRuns
import LinuxFile.Spec.Checks
import LinuxFile.Spec.Effects
import LinuxFile.Spec.Reload
import LinuxFile.Theorems.CleanInodes
import LinuxFile.Theorems.Sticky
import LinuxFile.Theorems.Attributes
import LinuxFile.Spec.JournalLog
import LinuxFile.Spec.Remount
import LinuxFile.Theorems.NumberReuse
import LinuxFile.Library.Gapped
import LinuxFile.Spec.JournalRuns
import LinuxFile.Spec.Snapshot
import LinuxFile.Theorems.FreeSpace
import LinuxFile.Theorems.JournalOrder
import LinuxFile.Spec.Pending
import LinuxFile.Spec.Space
import LinuxFile.Theorems.PersistedAllocator
import LinuxFile.Theorems.SymlinkLoops
import LinuxFile.Library.Settled
import LinuxFile.Spec.ReadOnly
import LinuxFile.Spec.BlockStatus
import LinuxFile.Theorems.DropInode
import LinuxFile.Theorems.ReadOnlyMount
import LinuxFile.Library.Forest
import LinuxFile.Library.Remainder
import LinuxFile.Spec.Making
import LinuxFile.Spec.Tree
import LinuxFile.Spec.TreeLinks
import LinuxFile.Spec.TreeSteps
import LinuxFile.Theorems.Checksums
import LinuxFile.Theorems.Codecs
import LinuxFile.Theorems.ExtentTree
import LinuxFile.Theorems.FileOffsets
import LinuxFile.Theorems.SharedOffsets
import LinuxFile.Theorems.TableSlots
import LinuxFile.Theorems.AllocSnapshot
import LinuxFile.Theorems.CanonicalPaths
import LinuxFile.Theorems.TrailingDot
import LinuxFile.Theorems.PathAlgebra
import LinuxFile.Library.PlainFile
import LinuxFile.Sharing
import LinuxFile.Spec.Files
import LinuxFile.Spec.RawFiles
import LinuxFile.Theorems.LastHandle
import LinuxFile.Theorems.ShrinkExtend
import LinuxFile.Theorems.BackupSuperblock
import LinuxFile.Theorems.SyncRoom
import LinuxFile.Theorems.FlushContents
import LinuxFile.FileCalls
import LinuxFile.PathCalls
import LinuxFile.Spec.Attached
import LinuxFile.Spec.ByPath
import LinuxFile.Spec.Links
import LinuxFile.Theorems.FilesByPath
import LinuxFile.Spec.Remounted
import LinuxFile.Theorems.Remounting
import LinuxFile.Spec.Solid
import LinuxFile.Spec.Streams
import LinuxFile.Theorems.OpenFileArrays
import LinuxFile.Spec.Pruned
import LinuxFile.Theorems.Removals
