import Isunux.Spaces
import Isunux.PipeFifo
import Isunux.NoLostWakeup
import Isunux.Loading
import Isunux.ChildStatus
import Isunux.Allocator
import Isunux.OutOfMemory
import Isunux.TmpfsArrays
import Isunux.FatVolume
import Isunux.Paths
import Isunux.Orphans
import Isunux.TmpfsIntegrity
import Isunux.ElfImage
import Isunux.ExecAtomic
import Isunux.ExecArgs
import Isunux.ExecImage
import Isunux.ZeroPages
import Isunux.Break
import Isunux.FatDamage
import Isunux.TmpfsWrite
import Isunux.Mmap
import Isunux.Arena
import Isunux.Endings
import Isunux.Naming
import Isunux.OpenAtomic
import Isunux.Canonical
import Isunux.KeyboardLines
import Isunux.WholeLines
import Isunux.WholeFiles
import Isunux.StackDecoding
import Isunux.FatMirrors
import Isunux.FatUnlink
import Isunux.MountFrames
import Isunux.Attributes
import Isunux.EmptyDirs
import Isunux.KeyboardReads
import Isunux.Lib.SlotMap
import Isunux.Shell
import Isunux.ShortNames
import Isunux.ShellEnv
import Isunux.Tokens
import Isunux.QuotedWords
import Isunux.Parsing
import Isunux.PathSearch
import Isunux.ShellFds
import Isunux.Lib.Tiling
import Isunux.Malloc
import Isunux.MallocRefusals
import Isunux.MallocBlocks
import Isunux.FatLookups
import Isunux.Confinement
import Isunux.FirstFit
import Isunux.Printf
import Isunux.WalkLaws
import Isunux.FatEntries
import Isunux.FatMaps
import Isunux.FatTree
import Isunux.FatSteps
import Isunux.FatWrites
import Isunux.FatConsistency
import Isunux.FatNames
import Isunux.FatBytes
import Isunux.FatFills
import Isunux.FatPersistence
import Isunux.Registers
import Isunux.Contexts
import Isunux.Fairness
import Isunux.Lib.Stack
import Isunux.Traps
import Isunux.ContextSwitches
import Isunux.ForkReturn
import Isunux.Framebuffer
import Isunux.Scrolling
import Isunux.TextRows
import Isunux.Lib.Trek
import Isunux.MountWalks
import Isunux.MountNaming
import Isunux.MountNear
import Isunux.MountOpens
import Isunux.KernelHalf
