import SccShm.Loop
import SccShm.Tiling
import SccShm.CyclicOrder
import SccShm.FreeList
import SccShm.MallocSpec
import SccShm.FreeSpec
import SccShm.HeapRuns
import SccShm.Filling
import SccShm.Footprint
import SccShm.WellFormed
import SccShm.Requests
import SccShm.HeapWindow
import SccShm.SharedHeap
import SccShm.Address
import SccShm.Lut
import SccShm.LutSpec
import SccShm.LutRuns
import SccShm.LutMemory
import SccShm.SccFree
import SccShm.Translate
import SccShm.LutScan
import SccShm.SharedWindow
import SccShm.Ring
import SccShm.Mpb
import SccShm.MpbFifo
import SccShm.MpbCalls
import SccShm.MpbWriters
import SccShm.MpbSections
import SccShm.Chain
import SccShm.Topped
import SccShm.Lpel
import SccShm.LpelSpec
import SccShm.LpelRuns
import SccShm.LpelCalls
import SccShm.Moved
import SccShm.LpelCollective
import SccShm.Blit
import SccShm.Machine
import SccShm.Memcpy
import SccShm.MpbBytes
import SccShm.Nodes
import SccShm.Counting
import SccShm.Capacity
import SccShm.HeapLayout
import SccShm.MpbProgress
import SccShm.Mailbox
import SccShm.PageMap
import SccShm.Config
import SccShm.ConfigTables
import SccShm.Atomic
