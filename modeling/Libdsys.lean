import Libdsys.Machinery.Runs
import Libdsys.Machinery.Kahn
import Libdsys.Machinery.Ring
import Libdsys.Machinery.Fifo
import Libdsys.Machinery.Monitor
import Libdsys.Machinery.SlotLog
import Libdsys.Machinery.Chain
import Libdsys.Queue.Mc121
import Libdsys.Queue.Mc121Pair
import Libdsys.Queue.NoCopy
import Libdsys.Queue.Nmc12m
import Libdsys.Queue.Farmn
import Libdsys.Queue.NoCopyProgress
import Libdsys.Ltab.Tags
import Libdsys.Ltab.Correspondence
import Libdsys.Ltab.Destroy
import Libdsys.Branch.Iface
import Libdsys.Branch.Lifetime
import Libdsys.Branch.Variable
import Libdsys.Branch.Calls
import Libdsys.Branch.Paired
import Libdsys.Branch.Plain
import Libdsys.Queue.Union
import Libdsys.Dsys.System
import Libdsys.Dsys.Framing
import Libdsys.Dsys.Schedule
import Libdsys.Threads.Manager
import Libdsys.Branch.SinkCreate
import Libdsys.Threads.Service
import Libdsys.Queue.Bounds
import Libdsys.Threads.CondGet
import Libdsys.Queue.Replicaten
import Libdsys.Branch.Plist
import Libdsys.Iskel.Create
import Libdsys.Dsys.Mesh
import Libdsys.Dsys.MeshSound
import Libdsys.Dsys.MeshConsistent
import Libdsys.Dsys.Streams
import Libdsys.Dsys.CollectAny
import Libdsys.Dsys.Progress
import Libdsys.Iskel.All2all
import Libdsys.Iskel.All2allRounds
import Libdsys.Machinery.Tally
import Libdsys.Branch.PlistSets
import Libdsys.Branch.PlistHeap
import Libdsys.Branch.PlistExcept
import Libdsys.Branch.PlistDivide
import Libdsys.Branch.PlistValid
import Libdsys.Branch.PlistCounts
import Libdsys.Dsys.Route
import Libdsys.Branch.Integer
import Libdsys.Machinery.Units
import Libdsys.Branch.Answer
import Libdsys.Branch.Reduce
import Libdsys.Branch.ReduceOpt
import Libdsys.Ltab.DestroyCalls
import Libdsys.Ltab.Awaiting
import Libdsys.Branch.PlistSet
import Libdsys.Branch.PlistAlloc
import Libdsys.Branch.PlistOptional
import Libdsys.Machinery.Transfer
import Libdsys.Threads.Request
import Libdsys.Threads.Fdutils
import Libdsys.Queue.Sizes
import Libdsys.Queue.VarLayout
import Libdsys.Machinery.Bits
import Libdsys.Machinery.Butterflies
import Libdsys.Fft.Permute
import Libdsys.Threads.BulkData
import Libdsys.Ltab.LinkSearch
import Libdsys.Queue.SlotDestroy
import Libdsys.Queue.Nmc121
import Libdsys.Ltab.Locks
import Libdsys.Ltab.Sections
import Libdsys.Machinery.Exchange
import Libdsys.Dsys.Atomic
import Libdsys.Dsys.Termination
import Libdsys.Machinery.MergeSplit
import Libdsys.Machinery.Loops
import Libdsys.Programs.Values
import Libdsys.Programs.OddEven
import Libdsys.Machinery.Codec
import Libdsys.Dsys.Task
import Libdsys.Programs.Wiring
import Libdsys.Programs.Arrays
import Libdsys.Programs.Gauss
import Libdsys.Programs.Elimination
import Libdsys.Programs.Mandelbrot
import Libdsys.Programs.MatrixMul
import Libdsys.Programs.Fft
import Libdsys.Programs.Transform
import Libdsys.Dsys.Slots
