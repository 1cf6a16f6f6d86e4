import Netmt.Client
import Netmt.Server
import Netmt.Reads
import Netmt.Reassembly
import Netmt.Lib.Sessions
import Netmt.ServerCommand
import Netmt.GetTransfer
import Netmt.ConcurrentGets
import Netmt.SendTransfer
import Netmt.RepeatedSends
import Netmt.Isolation
import Netmt.Heartbeat
import Netmt.IniConf
import Netmt.IniLookup
import Netmt.ChainMgr
import Netmt.SendModes
import Netmt.Lib.System
import Netmt.Registration
import Netmt.ExecResults
import Netmt.Registry
import Netmt.DispatchLoop
import Netmt.ReceiveBuffer
import Netmt.FailureExits
import Netmt.IniObjects
import Netmt.IniLoaded
import Netmt.IniPrint
import Netmt.RegisterReport
import Netmt.Sendbuf
import Netmt.ListWalks
import Netmt.ExecOutput
import Netmt.Cli
import Netmt.CommandArgs
import Netmt.ExecCommand
import Netmt.Broadcast
import Netmt.Lib.Runs
import Netmt.IniEnum
import Netmt.OrderedPush
import Netmt.ChainMerge
import Netmt.ChainSort
import Netmt.MgrCalls
import Netmt.SearchOrder
import Netmt.ListenPriority
import Netmt.PathName
import Netmt.IniBuffer
import Netmt.VtyFormat
import Netmt.CommentChains
import Netmt.EnumIndex
import Netmt.DeleteSection
import Netmt.IniInt
import Netmt.IniSizes
import Netmt.IniCopies
import Netmt.EnumExport
import Netmt.LongLines
import Netmt.Lib.Selection
import Netmt.Queue
import Netmt.Nio
import Netmt.WriteStream
import Netmt.Delivery
import Netmt.Lib.HeapOrder
import Netmt.Heap
import Netmt.HeapRuns
import Netmt.Timers
import Netmt.TimerPasses
import Netmt.Completion
import Netmt.Lib.LineEdit
import Netmt.Vty
import Netmt.VtyEdit
import Netmt.VtyGood
import Netmt.VtyWords
import Netmt.VtyRuns
import Netmt.VtyTyping
import Netmt.VtyDialog
import Netmt.VtyHalts
import Netmt.VtyLogin
import Netmt.Lib.Shelves
import Netmt.Thread
import Netmt.ThreadLists
import Netmt.ThreadMachine
import Netmt.ThreadSound
import Netmt.ThreadRuns
import Netmt.ThreadFates
