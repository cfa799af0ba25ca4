import FireMarshal.Lib.Ring
import FireMarshal.Lib.Run
import FireMarshal.Lib.Engine
import FireMarshal.Lib.Except
import FireMarshal.Lib.Fifo
import FireMarshal.Lib.Framing
import FireMarshal.Lib.Forest
import FireMarshal.Lib.Routine
import FireMarshal.Lib.Raising
import FireMarshal.Lib.Acyclic
import FireMarshal.Lib.Dict
import FireMarshal.Lib.Registry
import FireMarshal.Lib.SequenceMatcher
import FireMarshal.Lib.Memo
import FireMarshal.Lib.MemoOnce
import FireMarshal.Lib.MemoOrder
import FireMarshal.Lib.MemoView
import FireMarshal.Lib.Chunks
import FireMarshal.Lib.Qualified
import FireMarshal.Lib.SaveRestore
import FireMarshal.Lib.Echo
import FireMarshal.Lib.Table
import FireMarshal.Lib.Verbs
import FireMarshal.Lib.Layers
import FireMarshal.Lib.Posix
import FireMarshal.Accnet.Cq
import FireMarshal.Accnet.Engine
import FireMarshal.Accnet.Probe
import FireMarshal.Accnet.Driver
import FireMarshal.Accnet.Napi
import FireMarshal.Accnet.Library
import FireMarshal.Iocache.Driver
import FireMarshal.Iocache.Wait
import FireMarshal.Iocache.Eventfd
import FireMarshal.Iocache.Library
import FireMarshal.Iocache.Probe
import FireMarshal.Config.Config
import FireMarshal.Config.Init
import FireMarshal.Config.Manager
import FireMarshal.Config.Fork
import FireMarshal.Config.Distros
import FireMarshal.Config.Load
import FireMarshal.Build.Graph
import FireMarshal.Build.Workload
import FireMarshal.Build.Bin
import FireMarshal.Build.Inputs
import FireMarshal.Build.Scripts
import FireMarshal.Build.Image
import FireMarshal.Build.Files
import FireMarshal.Build.Checker
import FireMarshal.Build.Mount
import FireMarshal.Build.Initramfs
import FireMarshal.Build.FileDeps
import FireMarshal.Build.Merge
import FireMarshal.Build.Contents
import FireMarshal.Launch.Launch
import FireMarshal.Test.Output
import FireMarshal.Test.Timeout
import FireMarshal.Udp.Server
import FireMarshal.Udp.Exp
import FireMarshal.Udp.Latency
import FireMarshal.Net.FileTransfer
import FireMarshal.Net.MtClient
import FireMarshal.Rdma.Rxq
import FireMarshal.Rdma.Server
import FireMarshal.Rdma.Ping
import FireMarshal.Mmap.Mmap
import FireMarshal.Iocache.Buffers
import FireMarshal.Theorems.Accnet.Fifo
import FireMarshal.Theorems.Accnet.Tx
import FireMarshal.Theorems.Accnet.Descriptors
import FireMarshal.Theorems.Accnet.Send
import FireMarshal.Theorems.Accnet.Custody
import FireMarshal.Theorems.Accnet.Room
import FireMarshal.Theorems.Accnet.Recv
import FireMarshal.Theorems.Accnet.Refill
import FireMarshal.Theorems.Accnet.Probe
import FireMarshal.Theorems.Accnet.Library
import FireMarshal.Theorems.Accnet.Regs
import FireMarshal.Theorems.Accnet.NapiCtl
import FireMarshal.Theorems.Accnet.NapiData
import FireMarshal.Theorems.Accnet.Napi
import FireMarshal.Theorems.Accnet.NapiProgress
import FireMarshal.Theorems.Accnet.NapiStop
import FireMarshal.Theorems.Iocache.Rows
import FireMarshal.Theorems.Iocache.Wake
import FireMarshal.Theorems.Iocache.Reserve
import FireMarshal.Theorems.Iocache.Free
import FireMarshal.Theorems.Iocache.Wait
import FireMarshal.Theorems.Iocache.Eventfd
import FireMarshal.Theorems.Iocache.Registrations
import FireMarshal.Theorems.Iocache.Session
import FireMarshal.Theorems.Iocache.Buffers
import FireMarshal.Theorems.Iocache.Isr
import FireMarshal.Theorems.Iocache.Probe
import FireMarshal.Theorems.Config.Apply
import FireMarshal.Theorems.Config.Chain
import FireMarshal.Theorems.Config.Initialize
import FireMarshal.Theorems.Config.Inherit
import FireMarshal.Theorems.Config.Pool
import FireMarshal.Theorems.Config.ForkNames
import FireMarshal.Theorems.Config.ForkSteps
import FireMarshal.Theorems.Config.ForkRun
import FireMarshal.Theorems.Config.ForkOpts
import FireMarshal.Theorems.Config.Fork
import FireMarshal.Theorems.Config.ForkLineage
import FireMarshal.Theorems.Config.Isolation
import FireMarshal.Theorems.Config.Load
import FireMarshal.Theorems.Config.Distros
import FireMarshal.Theorems.Config.ForkBases
import FireMarshal.Theorems.Config.Bases
import FireMarshal.Theorems.Config.Linked
import FireMarshal.Theorems.Config.Groups
import FireMarshal.Theorems.Config.Modules
import FireMarshal.Theorems.Config.Targets
import FireMarshal.Theorems.Config.Read
import FireMarshal.Theorems.Config.Paths
import FireMarshal.Theorems.Config.Search
import FireMarshal.Theorems.Config.Names
import FireMarshal.Theorems.Build.Graph
import FireMarshal.Theorems.Build.Acyclic
import FireMarshal.Theorems.Build.Requests
import FireMarshal.Theorems.Build.Images
import FireMarshal.Theorems.Build.Bin
import FireMarshal.Theorems.Build.Inputs
import FireMarshal.Theorems.Build.Scripts
import FireMarshal.Theorems.Build.Closed
import FireMarshal.Theorems.Build.Ancestors
import FireMarshal.Theorems.Build.Image
import FireMarshal.Theorems.Build.Files
import FireMarshal.Theorems.Build.FilesRaised
import FireMarshal.Theorems.Build.Checker
import FireMarshal.Theorems.Build.Mount
import FireMarshal.Theorems.Build.Initramfs
import FireMarshal.Theorems.Build.FileDeps
import FireMarshal.Theorems.Build.Merge
import FireMarshal.Theorems.Build.MergeBuiltin
import FireMarshal.Theorems.Build.KernelConfig
import FireMarshal.Theorems.Build.Contents
import FireMarshal.Theorems.Build.ContentsLayers
import FireMarshal.Theorems.Test.Uartlog
import FireMarshal.Theorems.Test.Output
import FireMarshal.Theorems.Test.Timeout
import FireMarshal.Theorems.Test.TimeoutProgress
import FireMarshal.Theorems.Udp.Server
import FireMarshal.Theorems.Udp.Loopback
import FireMarshal.Theorems.Udp.LoopbackLocal
import FireMarshal.Theorems.Udp.Latency
import FireMarshal.Theorems.Udp.Ticks
import FireMarshal.Theorems.Net.FileTransfer
import FireMarshal.Theorems.Net.MtClient
import FireMarshal.Theorems.Net.Mac
import FireMarshal.Theorems.Launch.Outputs
import FireMarshal.Theorems.Launch.Jobs
import FireMarshal.Theorems.Mmap.Mmap
import FireMarshal.Theorems.Rdma.Rxq
import FireMarshal.Theorems.Rdma.Server
import FireMarshal.Theorems.Rdma.Echo
import FireMarshal.Theorems.Rdma.Ping
import FireMarshal.Theorems.Rdma.PingProgress
