import OsLabs.Runs.Schedule
import OsLabs.Runs.Pool
import OsLabs.Runs.Until
import OsLabs.SysV.Semop
import OsLabs.RwLock.Lock
import OsLabs.SysV.Slots
import OsLabs.RingBuffer.Window
import OsLabs.Memory.Object
import OsLabs.Memory.Blocks
import OsLabs.Memory.Letters
import OsLabs.Memory.CString
import OsLabs.Sockets.Common
import OsLabs.Sockets.Exchange
import OsLabs.Sockets.Client
import OsLabs.Sockets.ServerThreads
import OsLabs.Sockets.ThreadsFifo
import OsLabs.Sockets.ThreadsProgress
import OsLabs.Sockets.Buffer
import OsLabs.Sockets.ServerEpoll
import OsLabs.Sockets.EpollQueue
import OsLabs.Sockets.ReplyAgreement
import OsLabs.Multiplex.Server
import OsLabs.Multiplex.Framing
import OsLabs.Multiplex.Client
import OsLabs.Multiplex.Delivery
import OsLabs.Mt.Server
import OsLabs.Mt.Lock
import OsLabs.Mt.Progress
import OsLabs.Mt.Linearizable
import OsLabs.Mt.HandOver
import OsLabs.Sem05.ReaderWriter
import OsLabs.Sem05.Register
import OsLabs.Sem05.ProducerConsumer
import OsLabs.Sem05.InOrder
import OsLabs.WaitingWriters
import OsLabs.Sem05.WinReaderWriter
import OsLabs.Sem05.WinTokens
import OsLabs.Sem05.WinWaits
import OsLabs.Rpc.TicketServer
import OsLabs.Rpc.Tickets
import OsLabs.Rpc.TicketOrder
import OsLabs.Rpc.FindMaxNumber
import OsLabs.Rpc.NewBakery
import OsLabs.Rpc.BusyWait
import OsLabs.Rpc.OrderlyRuns
import OsLabs.Rpc.Boxes
import OsLabs.Rpc.PickUp
import OsLabs.Fs.Tree
import OsLabs.Fs.Path
import OsLabs.LabFs.Ftw
import OsLabs.Fortune.Module
import OsLabs.Fortune.RoundTrip
import OsLabs.LabFs.Traversal
import OsLabs.LabFs.DopathNo
import OsLabs.LabFs.DopathChdir
import OsLabs.LabFs.Agreement
import OsLabs.LabFs.Main
import OsLabs.Sem05.SegmentBounds
import OsLabs.Sockets.FailedAccept
import OsLabs.Fortune.Jar
import OsLabs.Mt.Classification
import OsLabs.Fortune.Bounds
import OsLabs.Fortune.Failures
import OsLabs.Fortune.Slices
import OsLabs.Keyboard.Record
import OsLabs.Keyboard.Tasklet
import OsLabs.Keyboard.Workqueue
import OsLabs.Keyboard.LastKey
import OsLabs.Keyboard.TornPair
import OsLabs.SocketPair.Main
import OsLabs.SocketPair.Socketpair
import OsLabs.SocketPair.OwnReplies
import OsLabs.Runs.Endings
import OsLabs.Sockets.EpollShutdown
import OsLabs.Sockets.ThreadsShutdown
import OsLabs.Rpc.NoOvertaking
import OsLabs.Rpc.PidSlots
import OsLabs.Rpc.ServiceTime
import OsLabs.Sem05.RunLength
import OsLabs.Proc.Maps
import OsLabs.Proc.Pagemap
import OsLabs.Proc.ParseLine
import OsLabs.Proc.PagemapInfo
import OsLabs.Proc.MapsPieces
import OsLabs.Proc.ReadMaps
import OsLabs.Proc.PrintMem
import OsLabs.Stdio.Decimal
import OsLabs.Proc.Stat
import OsLabs.Proc.ReadStat
import OsLabs.Proc.PartialReads
import OsLabs.Runs.Ledger
import OsLabs.Vfs.Kernel
import OsLabs.Vfs.Myvfs
import OsLabs.Vfs.Myfs
import OsLabs.BufIo.Streams
import OsLabs.BufIo.App1
import OsLabs.BufIo.App2
import OsLabs.BufIo.App3
import OsLabs.LabFs.Overflow
import OsLabs.LabFs.PrintTree
import OsLabs.LabFs.TreeListing
import OsLabs.Runs.Fairness
import OsLabs.Sem05.Sigterm
import OsLabs.Sem05.Sigalrm
import OsLabs.Sem05.WinStop
import OsLabs.Sockets.ClientMain
import OsLabs.Sockets.EpollClients
import OsLabs.Sockets.ThreadsClients
import OsLabs.Sockets.ThreadsDeadlock
import OsLabs.Multiplex.Mains
import OsLabs.Mt.Clients
import OsLabs.Mt.LettersDivided
import OsLabs.Mt.ClientsExit
import OsLabs.Daemon.AlreadyRunning
import OsLabs.Daemon.Daemonize
import OsLabs.Daemon.Reread
import OsLabs.Runs.Lifetime
import OsLabs.Keyboard.Unload
import OsLabs.Runs.LeadsTo
import OsLabs.Rpc.TicketTurns
import OsLabs.Rpc.TicketsServed
