import Wpmfs.Balloc.Basic
import Wpmfs.Balloc.Bins
import Wpmfs.Balloc.Factory
import Wpmfs.Balloc.RangeList
import Wpmfs.Balloc.RangeRebuild
import Wpmfs.Balloc.RangeRuns
import Wpmfs.Balloc.RangeSpec
import Wpmfs.Balloc.Rebuild
import Wpmfs.Balloc.Retire
import Wpmfs.Counter.Add
import Wpmfs.Counter.File
import Wpmfs.Counter.Track
import Wpmfs.Dir.Abort
import Wpmfs.Dir.Basic
import Wpmfs.Dir.Contents
import Wpmfs.Dir.Dots
import Wpmfs.Dir.Emptiness
import Wpmfs.Dir.Listing
import Wpmfs.Dir.Memory
import Wpmfs.Dir.Readdir
import Wpmfs.Dir.Refinement
import Wpmfs.Dir.Restored
import Wpmfs.Dir.Shapes
import Wpmfs.Dir.Tiling
import Wpmfs.File.Alloc
import Wpmfs.File.Basic
import Wpmfs.File.Edges
import Wpmfs.File.Exposure
import Wpmfs.File.Extend
import Wpmfs.File.Fast
import Wpmfs.File.Flat
import Wpmfs.File.Flush
import Wpmfs.File.Mounting
import Wpmfs.File.NoSpace
import Wpmfs.File.Read
import Wpmfs.File.Remains
import Wpmfs.File.Runs
import Wpmfs.File.Seek
import Wpmfs.File.Tree
import Wpmfs.File.Truncate
import Wpmfs.File.Write
import Wpmfs.File.Xip
import Wpmfs.Inode.Reuse
import Wpmfs.Inode.Slots
import Wpmfs.Inode.Truncate
import Wpmfs.Journal.Atomicity
import Wpmfs.Journal.Basic
import Wpmfs.Journal.Cleaner
import Wpmfs.Journal.CrashRecovery
import Wpmfs.Journal.Full
import Wpmfs.Journal.Layout
import Wpmfs.Journal.Logging
import Wpmfs.Journal.Recovery
import Wpmfs.Journal.Region
import Wpmfs.Journal.Reservation
import Wpmfs.Journal.Restart
import Wpmfs.Journal.Restorable
import Wpmfs.Journal.Resumed
import Wpmfs.Journal.Rollback
import Wpmfs.Journal.Scan
import Wpmfs.Journal.Stale
import Wpmfs.Journal.Survey
import Wpmfs.Journal.Sweep
import Wpmfs.Journal.Threads
import Wpmfs.Journal.Transaction
import Wpmfs.Journal.Undo
import Wpmfs.Library.Assoc
import Wpmfs.Library.Bytes
import Wpmfs.Library.Chain
import Wpmfs.Library.Fibers
import Wpmfs.Library.Fifo
import Wpmfs.Library.Persist
import Wpmfs.Library.Radix
import Wpmfs.Library.Ranges
import Wpmfs.Library.Spans
import Wpmfs.Library.UndoLog
import Wpmfs.Library.Words
import Wpmfs.Migrate.Basic
import Wpmfs.Migrate.Blocked
import Wpmfs.Migrate.Conserve
import Wpmfs.Migrate.Dispatch
import Wpmfs.Migrate.Events
import Wpmfs.Migrate.Mapped
import Wpmfs.Migrate.Pointers
import Wpmfs.Migrate.Tree
import Wpmfs.Namei.Basic
import Wpmfs.Namei.Dotdot
import Wpmfs.Namei.LinkCounts
import Wpmfs.Namei.Nlink
import Wpmfs.Namei.Reached
import Wpmfs.Namei.Runs
import Wpmfs.Namei.Simulation
import Wpmfs.Namei.Tree
import Wpmfs.Pages.Alloc
import Wpmfs.Pages.Basic
import Wpmfs.Pages.Grow
import Wpmfs.Pages.Tree
import Wpmfs.Pages.Undone
import Wpmfs.Vmap.Address
import Wpmfs.Vmap.Basic
import Wpmfs.Vmap.Crash
import Wpmfs.Vmap.Encoding
import Wpmfs.Vmap.Growth
import Wpmfs.Vmap.Marks
import Wpmfs.Vmap.Remount
import Wpmfs.Volume.Basic
import Wpmfs.Volume.Calls
import Wpmfs.Volume.Creations
import Wpmfs.Volume.Entries
import Wpmfs.Volume.Orphans
import Wpmfs.Volume.Outcome
import Wpmfs.Volume.Removals
import Wpmfs.Volume.Runs
import Wpmfs.Mount.Crawl
import Wpmfs.Mount.Integrity
import Wpmfs.Mount.Options
import Wpmfs.Mount.Size
import Wpmfs.Mount.Recover
import Wpmfs.Mount.Rebuilt
import Wpmfs.Mount.Handle
import Wpmfs.Mount.Visible
