import XanaduOS.Word32
import XanaduOS.BitWords
import XanaduOS.Runs
import XanaduOS.KernelDefs
import XanaduOS.FrameAlloc
import XanaduOS.FrameGroups
import XanaduOS.FrameRuns
import XanaduOS.BuddyFrameAlloc
import XanaduOS.BuddyLayout
import XanaduOS.DyadicBlocks
import XanaduOS.BuddyBlocks
import XanaduOS.BuddyRuns
import XanaduOS.BuddyAccounts
import XanaduOS.BuddySteps
import XanaduOS.BuddyReturns
import XanaduOS.BuddyUndo
import XanaduOS.Chains
import XanaduOS.SlabAllocator
import XanaduOS.SlabRuns
import XanaduOS.SlabNames
import XanaduOS.SlabAlignment
import XanaduOS.SlabPairs
import XanaduOS.HeapAllocator
import XanaduOS.HeapBlocks
import XanaduOS.HeapRuns
import XanaduOS.HeapTiling
import XanaduOS.Forests
import XanaduOS.Numerals
import XanaduOS.Slibc
import XanaduOS.InitialRamdisk
import XanaduOS.InitrdListing
import XanaduOS.InitrdLoading
import XanaduOS.InitrdLookup
import XanaduOS.PicMasks
import XanaduOS.SerialQueue
import XanaduOS.WordMemory
import XanaduOS.SyscallGate
import XanaduOS.PageTables
import XanaduOS.MemoryMapping
import XanaduOS.Unmapping
import XanaduOS.FileMapping
import XanaduOS.FrameReserve
import XanaduOS.ByteMemory
import XanaduOS.FrameInit
import XanaduOS.SerialBounds
import XanaduOS.TextConsole
import XanaduOS.TaskList
import XanaduOS.PciBuses
import XanaduOS.BuddyClean
import XanaduOS.Agreements
import XanaduOS.PointerLists
import XanaduOS.BuddyMemory
import XanaduOS.BuddyClone
import XanaduOS.AddressSpaces
import XanaduOS.FrameSearch
import XanaduOS.SearchSteps
import XanaduOS.SlabUndo
import XanaduOS.UnmapRange
import XanaduOS.TableAllocation
import XanaduOS.PageFaults
import XanaduOS.HeapMapping
import XanaduOS.MappingFailures
import XanaduOS.HeapRequests
import XanaduOS.HeapBacking
import XanaduOS.HeapReleases
import XanaduOS.SlabRegistry
import XanaduOS.CloneRelease
import XanaduOS.ForkFailures
import XanaduOS.ArchiveBounds
import XanaduOS.HeaderNumbers
import XanaduOS.ChildCounts
import XanaduOS.DirStreams
import XanaduOS.FileReads
import XanaduOS.NodeNames
import XanaduOS.TickWaits
import XanaduOS.DigitWriters
import XanaduOS.Printf
import XanaduOS.StringComparison
import XanaduOS.SleepLengths
import XanaduOS.ConfigAddresses
import XanaduOS.AddressConversions
import XanaduOS.DateFormat
import XanaduOS.ConsolePaper
import XanaduOS.Keyboard
import XanaduOS.ShellEditing
import XanaduOS.TightOwnership
import XanaduOS.BuddyTightness
import XanaduOS.DemandPaging
import XanaduOS.StackMachine
import XanaduOS.InterruptStubs
import XanaduOS.Interrupts
import XanaduOS.TaskLives
import XanaduOS.DevicePrograms
import XanaduOS.Ps2Controller
import XanaduOS.ClockReadings
import XanaduOS.FloppyDriver
import XanaduOS.GrowingPools
import XanaduOS.SlabEconomy
import XanaduOS.RamdiskFiles
import XanaduOS.LookupEnds
