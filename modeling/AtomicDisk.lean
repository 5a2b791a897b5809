import AtomicDisk.Schemes.Linearizable
import AtomicDisk.Schemes.Intervals
import AtomicDisk.Schemes.Simulation
import AtomicDisk.Schemes.Endless
import AtomicDisk.Register.Panics
import AtomicDisk.Register.Awaits
import AtomicDisk.Register.Maximum
import AtomicDisk.Register.Callbacks
import AtomicDisk.Register.Naming
import AtomicDisk.Register.Durability
import AtomicDisk.Register.Duplicates
import AtomicDisk.Register.Invariants
import AtomicDisk.Register.Evidence
import AtomicDisk.Register.Quorum
import AtomicDisk.Register.Copies
import AtomicDisk.Register.Majorities
import AtomicDisk.Register.Tags
import AtomicDisk.Register.Linearizability
import AtomicDisk.Register.Timestamps
import AtomicDisk.Register.Provenance
import AtomicDisk.Register.Progress
import AtomicDisk.Register.Algorithm
import AtomicDisk.Register.Refinement
import AtomicDisk.Storage.SectorsManager
import AtomicDisk.Storage.LastWrite
import AtomicDisk.Storage.Crashes
import AtomicDisk.Storage.WriteSteps
import AtomicDisk.Storage.Recovery
import AtomicDisk.Storage.CrashSafety
import AtomicDisk.Storage.ListingOrder
import AtomicDisk.Storage.Newest
import AtomicDisk.Transfer.TransferOperations
import AtomicDisk.Transfer.RoundTrip
import AtomicDisk.Transfer.Malformed
import AtomicDisk.Transfer.Frames
import AtomicDisk.Transfer.Layout
import AtomicDisk.Transfer.Framing
import AtomicDisk.Client.RegisterClient
import AtomicDisk.Client.Retransmission
import AtomicDisk.Client.Destinations
import AtomicDisk.Driver.TcpClient
import AtomicDisk.Driver.Requests
import AtomicDisk.Driver.Responses
import AtomicDisk.Driver.ParseArgs
import AtomicDisk.Driver.Relay
import AtomicDisk.Driver.RingOrder
import AtomicDisk.Driver.Relaying
import AtomicDisk.Driver.Device
import AtomicDisk.Driver.Dispatching
import AtomicDisk.Driver.RoundRobin
import AtomicDisk.Driver.Connection
import AtomicDisk.Driver.Streams
import AtomicDisk.Driver.Failover
import AtomicDisk.Process.RegisterProcess
import AtomicDisk.Process.Steps
import AtomicDisk.Process.Permits
import AtomicDisk.Process.Responses
import AtomicDisk.Process.Tasks
import AtomicDisk.Process.Workers
import AtomicDisk.Process.Tickets
import AtomicDisk.Process.LostClients
import AtomicDisk.Process.Streams
import AtomicDisk.Process.Filtering
import AtomicDisk.Process.Views
import AtomicDisk.Process.Tampering
import AtomicDisk.Node.RunRegisterProcess
import AtomicDisk.Node.Steps
import AtomicDisk.Node.Lengths
import AtomicDisk.Node.SectorLength
import AtomicDisk.Node.Slots
import AtomicDisk.Node.Stores
import AtomicDisk.Node.Durable
import AtomicDisk.Node.Space
import AtomicDisk.Node.Tickets
import AtomicDisk.Cluster.Cluster
import AtomicDisk.Cluster.Traffic
import AtomicDisk.Cluster.Registers
import AtomicDisk.Cluster.Refinement
import AtomicDisk.Cluster.Clients
import AtomicDisk.Cluster.Guarantees
