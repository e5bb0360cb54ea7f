import YfsLab.Foundations.Transition
import YfsLab.Foundations.History
import YfsLab.Foundations.Ownership
import YfsLab.Foundations.BigEndian
import YfsLab.Foundations.SortedMap
import YfsLab.Lock.Server
import YfsLab.Lock.MutualExclusion
import YfsLab.Wire.Marshall
import YfsLab.Wire.Unmarshall
import YfsLab.Wire.Decodes
import YfsLab.Wire.Types
import YfsLab.Wire.Codec
import YfsLab.Wire.Call
import YfsLab.Wire.RoundTrip
import YfsLab.Wire.Grammar
import YfsLab.Connection.Reader
import YfsLab.Connection.Reassembly
import YfsLab.Rpc.Message
import YfsLab.Rpc.Client
import YfsLab.Rpc.ClientRouting
import YfsLab.Rpc.ReplyWindow
import YfsLab.Rpc.Server
import YfsLab.Rpc.System
import YfsLab.Rpc.ServerSteps
import YfsLab.Rpc.SystemSteps
import YfsLab.Rpc.AtMostOnce
import YfsLab.Rpc.ReplyBuffers
import YfsLab.Rpc.Issued
import YfsLab.Rpc.OldInstance
import YfsLab.Rpc.StoreHistory
import YfsLab.Rpc.Unacknowledged
import YfsLab.Rpc.Acknowledgement
import YfsLab.Connection.SizeWord
import YfsLab.Foundations.TwoRuns
import YfsLab.Wire.Memory
import YfsLab.Foundations.CondVar
import YfsLab.Pool.Fifo
import YfsLab.Pool.ThrPool
import YfsLab.Pool.Shutdown
import YfsLab.Poll.PollMgr
import YfsLab.Poll.Removal
import YfsLab.Connection.Sender
import YfsLab.Connection.WholePdus
import YfsLab.Connection.Channel
import YfsLab.Connection.Stranded
import YfsLab.Foundations.Holders
import YfsLab.Rpc.References
import YfsLab.Rpc.Accounting
import YfsLab.Rpc.Balance
import YfsLab.Rpc.Collection
import YfsLab.Rpc.Answers
import YfsLab.Rpc.Duplicates
import YfsLab.Rpc.LostReply
import YfsLab.Rpc.Replies
import YfsLab.Lock.Service
import YfsLab.Rpc.Sequential
import YfsLab.Lock.EndToEnd
import YfsLab.Lock.Wakeups
import YfsLab.Lock.Authorisation
import YfsLab.Foundations.TwoDigits
import YfsLab.Rpc.Timespec
import YfsLab.Rpc.WaitLoop
import YfsLab.Wire.Destination
import YfsLab.Wire.Containers
import YfsLab.Connection.ReadOutcomes
import YfsLab.Rpc.ReplyConnection
import YfsLab.Rpc.OneCopy
import YfsLab.Poll.WriteCalls
import YfsLab.Connection.Steady
import YfsLab.Connection.Assertions
import YfsLab.Wire.Growth
import YfsLab.Poll.Bookkeeping
import YfsLab.Poll.EPollAIO
import YfsLab.Rpc.BufferOwners
import YfsLab.Rpc.ClientBalance
import YfsLab.Rpc.LiveConnections
import YfsLab.Rpc.LeftReferences
import YfsLab.Rpc.Teardown
import YfsLab.Connection.Link
import YfsLab.Connection.Draining
import YfsLab.Connection.Duplex
import YfsLab.Rpc.Transport
import YfsLab.Connection.Watched
import YfsLab.Rpc.Outcomes
import YfsLab.Rpc.Transparency
import YfsLab.Rpc.Rpctest
import YfsLab.Lock.Effects
import YfsLab.Lock.Tester
import YfsLab.Lock.TesterCalls
import YfsLab.Lock.TesterChecks
import YfsLab.Threads.NoDeadlock
