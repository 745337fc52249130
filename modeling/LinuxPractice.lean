import LinuxPractice.Math.Total
import LinuxPractice.Math.OnesComplement
import LinuxPractice.Framework.Machine
import LinuxPractice.Framework.Progress
import LinuxPractice.Framework.LockOrder
import LinuxPractice.Framework.Channel
import LinuxPractice.Framework.Monitor
import LinuxPractice.Framework.Wakeup
import LinuxPractice.Framework.Sequential
import LinuxPractice.Framework.Linearization
import LinuxPractice.Framework.Fifo
import LinuxPractice.Framework.Lifo
import LinuxPractice.Framework.Descriptors
import LinuxPractice.Framework.Decimal
import LinuxPractice.Framework.Capacity
import LinuxPractice.Framework.LinearBuffer
import LinuxPractice.Framework.Ring
import LinuxPractice.Framework.Network
import LinuxPractice.Framework.Words
import LinuxPractice.Concurrency.HierarchicalMutex.Model
import LinuxPractice.Concurrency.HierarchicalMutex.Invariant
import LinuxPractice.Concurrency.HierarchicalMutex.Deadlock
import LinuxPractice.Concurrency.HierarchicalMutex.ReleaseOrder
import LinuxPractice.Concurrency.HierarchicalMutex.Rejection
import LinuxPractice.Concurrency.HierarchicalMutex.SavedValue
import LinuxPractice.Concurrency.Queue.Model
import LinuxPractice.Concurrency.Queue.Effect
import LinuxPractice.Concurrency.Queue.Wakeup
import LinuxPractice.Concurrency.Queue.Exceptions
import LinuxPractice.Concurrency.Queue.Linearizable
import LinuxPractice.Concurrency.Queue.ProducersConsumers
import LinuxPractice.Concurrency.Queue.PollingConsumers
import LinuxPractice.Concurrency.Queue.CountingConsumers
import LinuxPractice.Concurrency.Stack.Model
import LinuxPractice.Concurrency.Stack.Linearizable
import LinuxPractice.Concurrency.Stack.ProducersConsumers
import LinuxPractice.Concurrency.Signals
import LinuxPractice.Concurrency.MatrixVector.Model
import LinuxPractice.Concurrency.MatrixVector.Agreement
import LinuxPractice.Concurrency.MatrixVector.Overflow
import LinuxPractice.Echo.Lines
import LinuxPractice.Echo.Model
import LinuxPractice.Echo.Invariant
import LinuxPractice.Echo.Progress
import LinuxPractice.Echo.Fidelity
import LinuxPractice.Echo.ServerLog
import LinuxPractice.Echo.Readline
import LinuxPractice.Echo.SharedBuffer
import LinuxPractice.Duplex.Server
import LinuxPractice.Duplex.SelectClient
import LinuxPractice.Duplex.SelectDeadlock
import LinuxPractice.Duplex.NonblockingClient
import LinuxPractice.Duplex.NonblockingProgress
import LinuxPractice.Duplex.NonblockingLoss
import LinuxPractice.Duplex.ForkClient
import LinuxPractice.Duplex.ForkProgress
import LinuxPractice.Address.Model
import LinuxPractice.Address.Dotted
import LinuxPractice.Address.Colon
import LinuxPractice.Address.ZeroRun
import LinuxPractice.Address.RoundTrip
import LinuxPractice.Checksum
import LinuxPractice.Datagram.Model
import LinuxPractice.Datagram.Invariant
import LinuxPractice.Datagram.Fidelity
import LinuxPractice.Datagram.Retransmission
import LinuxPractice.Server.ThreadedServer
import LinuxPractice.Server.ThreadHandler
import LinuxPractice.Server.ForkingServer
import LinuxPractice.Server.ChildReaping
import LinuxPractice.Server.ThreadPool
import LinuxPractice.Server.DescriptorPassing
import LinuxPractice.Server.DescriptorPassingBooks
import LinuxPractice.Server.SelectServer
import LinuxPractice.Server.SelectBooks
import LinuxPractice.Server.SelectRounds
import LinuxPractice.Server.SelectEcho
import LinuxPractice.KernelLab.Strings
import LinuxPractice.KernelLab.Model
import LinuxPractice.KernelLab.Moves
import LinuxPractice.KernelLab.Messages
import LinuxPractice.KernelLab.Logging
import LinuxPractice.KernelLab.Reading
import LinuxPractice.KernelLab.Report
import LinuxPractice.KernelLab.LineReader
import LinuxPractice.KernelLab.Whitespace
import LinuxPractice.KernelLab.Uptime
import LinuxPractice.Lister
import LinuxPractice.Web.Threads
import LinuxPractice.Web.ThreadsBooks
import LinuxPractice.Web.ThreadsProgress
import LinuxPractice.Web.ThreadsDeadlock
import LinuxPractice.Web.Nonblocking
import LinuxPractice.Web.NonblockingBooks
import LinuxPractice.Web.NonblockingProgress
