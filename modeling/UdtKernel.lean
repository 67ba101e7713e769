import UdtKernel.Lib.SortedMap
import UdtKernel.Lib.While
import UdtKernel.Lib.Chain
import UdtKernel.Lib.NestedMap
import UdtKernel.Lib.Outcome
import UdtKernel.Lib.PairUp
import UdtKernel.Lib.Joined
import UdtKernel.Lib.Remainder
import UdtKernel.Graph.Route
import UdtKernel.Graph.Search
import UdtKernel.Graph.Integrity
import UdtKernel.Graph.Shortest
import UdtKernel.Lib.Walk
import UdtKernel.Lib.Run
import UdtKernel.Info.Net
import UdtKernel.Info.Merge
import UdtKernel.Info.Events
import UdtKernel.Info.Known
import UdtKernel.Info.Reports
import UdtKernel.Info.Newer
import UdtKernel.Info.Links
import UdtKernel.Info.Rebuilt
import UdtKernel.Genealogy.Tree
import UdtKernel.Genealogy.Create
import UdtKernel.Genealogy.Descendants
import UdtKernel.Genealogy.Circles
import UdtKernel.Genealogy.FamilyTree
import UdtKernel.Genealogy.Settled
import UdtKernel.Genealogy.Initialize
import UdtKernel.Genealogy.Parents
import UdtKernel.Types
import UdtKernel.Address
import UdtKernel.RequiredDG.Demand
import UdtKernel.RequiredDG.Table
import UdtKernel.RequiredDG.Subscribe
import UdtKernel.RequiredDG.Cells
import UdtKernel.RequiredDG.Register
import UdtKernel.RequiredDG.Registered
import UdtKernel.RequiredDG.Nearest
import UdtKernel.RequiredDG.Ways
import UdtKernel.RequiredDG.Recompute
import UdtKernel.RequiredDG.SetDemands
import UdtKernel.RequiredDG.AddClient
import UdtKernel.RequiredDG.RemoveClient
import UdtKernel.RequiredDG.Run
import UdtKernel.RequiredDG.NearestRun
import UdtKernel.RequiredDG.Undo
import UdtKernel.RequiredDG.Priorities
import UdtKernel.RequiredDG.Handlers
import UdtKernel.RequiredDG.Pushed
import UdtKernel.RequiredDG.Expected
import UdtKernel.Routing.Follow
import UdtKernel.Routing.Network
import UdtKernel.Routing.Programs
import UdtKernel.Routing.Inform
import UdtKernel.Routing.Informed
import UdtKernel.Io.Accounted
import UdtKernel.Datagram.Scan
import UdtKernel.Datagram.Names
import UdtKernel.Datagram.UserData
import UdtKernel.Routing.Distribute
import UdtKernel.Routing.Lossless
import UdtKernel.Divisor.Split
import UdtKernel.Divisor.Plan
import UdtKernel.Divisor.Cross
import UdtKernel.Divisor.Merge
import UdtKernel.Divisor.Roundtrip
import UdtKernel.Divisor.Continue
import UdtKernel.Divisor.Watch
import UdtKernel.Divisor.Damage
import UdtKernel.Divisor.DamagedRun
import UdtKernel.Datagram.MemorySafe
import UdtKernel.Datagram.Resync
import UdtKernel.Datagram.WireRoundtrip
import UdtKernel.Datagram.Whole
import UdtKernel.Datagram.HeaderCrc
import UdtKernel.Config.Roundtrip
import UdtKernel.Address.Grammar
import UdtKernel.Address.Compared
import UdtKernel.Address.Conform
import UdtKernel.Datagram.ServiceRoundtrip
import UdtKernel.Socket.Runs
import UdtKernel.Socket.Overload
import UdtKernel.DataObject.Delivery
import UdtKernel.ThreadPool.OperationQueue
import UdtKernel.SharedAllocator.SlotTable
import UdtKernel.SharedAllocator.FreeList
import UdtKernel.SharedAllocator.Insert
import UdtKernel.SharedAllocator.HeapRuns
import UdtKernel.SharedAllocator.Overcount
import UdtKernel.SharedAllocator.Contract
import UdtKernel.SharedAllocator.FailedRequest
import UdtKernel.SharedAllocator.ReserveRuns
import UdtKernel.Rtc.Runs
import UdtKernel.Rtc.Immediate
import UdtKernel.Buffer.Insert
import UdtKernel.Buffer.Runs
import UdtKernel.Buffer.Sharing
import UdtKernel.Buffer.Holders
import UdtKernel.Buffer.Detach
import UdtKernel.Buffer.Copies
import UdtKernel.Buffer.SharedSteps
import UdtKernel.Buffer.Isolation
import UdtKernel.Buffer.Storage
import UdtKernel.Core.Descriptors
import UdtKernel.Core.Subscriptions
import UdtKernel.RequiredDG.Receivers
import UdtKernel.Routing.FailSends
import UdtKernel.Routing.SwapEndian
import UdtKernel.RequiredDG.Extract
import UdtKernel.Divisor.Pieces
import UdtKernel.Config.Reader
import UdtKernel.Config.Documents
import UdtKernel.Config.Survive
import UdtKernel.Config.JsonTrip
import UdtKernel.Divisor.Taking
import UdtKernel.Divisor.SendStep
import UdtKernel.Callbacks.Calls
import UdtKernel.Config.BinaryValues
import UdtKernel.Config.NumberTexts
import UdtKernel.Info.NextHopRun
import UdtKernel.Text.Copies
import UdtKernel.Text.Outputs
import UdtKernel.Text.ReplaceAll
import UdtKernel.Text.Match
import UdtKernel.Text.Searches
import UdtKernel.Text.Orders
import UdtKernel.Text.Codec
import UdtKernel.EndianInt
import UdtKernel.Senders.Reports
import UdtKernel.Links.Connected
import UdtKernel.RequiredDG.Streams
import UdtKernel.RequiredDG.HandlerStage
import UdtKernel.SafeData
import UdtKernel.CowPtr
import UdtKernel.Routing.Multicast
