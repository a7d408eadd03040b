import Soi.Lib.Seg
import Soi.Lib.Extent
import Soi.Pamiec.Alloc
import Soi.Proofs.Pamiec.HoleTable
import Soi.Proofs.Pamiec.Placement
import Soi.Pamiec.System
import Soi.Proofs.Pamiec.Calls
import Soi.Proofs.Pamiec.Ledger
import Soi.Proofs.Pamiec.MemInit
import Soi.Proofs.Pamiec.HoleList
import Soi.Proofs.Pamiec.HoleCount
import Soi.Pamiec.HoleMap
import Soi.Proofs.Pamiec.HoleMap
import Soi.Proofs.Pamiec.Boundary
import Soi.Proofs.Pamiec.Restore
import Soi.Proofs.Pamiec.SwapFile
import Soi.Lib.Threads
import Soi.Monitory.Buffer
import Soi.Monitory.Chat
import Soi.Lib.Handoff
import Soi.Proofs.Monitory.Buffer
import Soi.Proofs.Monitory.Chat
import Soi.Lib.Ring
import Soi.Proofs.Monitory.Progress
import Soi.Semafory.Czacik
import Soi.Proofs.Semafory.Czacik
import Soi.Lib.ByteFile
import Soi.SystemPlikow.Layout
import Soi.SystemPlikow.VFS
import Soi.Proofs.SystemPlikow.Layout
import Soi.Proofs.SystemPlikow.VFS
import Soi.Lib.Mailbox
import Soi.Proofs.Semafory.Deque
import Soi.Proofs.Monitory.Classes
import Soi.Proofs.Semafory.Delivery
import Soi.Proofs.Semafory.Deadlock
import Soi.Semafory.Chatting
import Soi.Lib.Cycle
import Soi.Proofs.Pamiec.Modes
import Soi.Proofs.Semafory.Chatting
import Soi.Proofs.Semafory.Main
import Soi.Proofs.Szeregowanie.Kernel
import Soi.Proofs.Pamiec.Retry
import Soi.Proofs.Pamiec.SwapOff
import Soi.Proofs.Pamiec.Cycles
import Soi.Proofs.Pamiec.Accounts
import Soi.Lib.RunLength
import Soi.Lib.Tiling
import Soi.Proofs.SystemPlikow.Geometry
import Soi.Proofs.SystemPlikow.Helpers
import Soi.Proofs.SystemPlikow.Listing
import Soi.Proofs.SystemPlikow.Regions
import Soi.Proofs.SystemPlikow.Bits
import Soi.Proofs.SystemPlikow.Commands
import Soi.Proofs.Szeregowanie.Rotation
import Soi.Proofs.Szeregowanie.Rounds
import Soi.Proofs.Szeregowanie.Waiting
import Soi.Proofs.Szeregowanie.Calls
import Soi.Proofs.Szeregowanie.Shares
import Soi.Lib.Delivery
import Soi.Lib.Work
import Soi.Monitory.Main
import Soi.Proofs.Monitory.History
import Soi.Proofs.Monitory.Main
import Soi.Proofs.Semafory.History
import Soi.Proofs.Semafory.Outcome
import Soi.Proofs.Semafory.Sessions
