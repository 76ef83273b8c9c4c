import Sdkz.Base.CString
import Sdkz.Base.Numeral
import Sdkz.Base.Run
import Sdkz.Base.Memory
import Sdkz.Base.Linked
import Sdkz.Hu.Handle
import Sdkz.Hu.Packet
import Sdkz.Hu.Body
import Sdkz.Hu.Frame
import Sdkz.Hu.Text
import Sdkz.Hu.Dispatch
import Sdkz.Hu.Outcome
import Sdkz.Hu.Grammar
import Sdkz.Hu.Safety
import Sdkz.Hu.Verdict
import Sdkz.Hu.RoundTrip
import Sdkz.Hu.Ascii85
import Sdkz.Hu.Flash
import Sdkz.Hu.Reply
import Sdkz.Hu.Chunk
import Sdkz.Palloc.Model
import Sdkz.Palloc.Link
import Sdkz.Palloc.Layout
import Sdkz.Palloc.Walk
import Sdkz.Palloc.Represents
import Sdkz.Palloc.Alloc
import Sdkz.Palloc.Insert
import Sdkz.Palloc.Free
import Sdkz.Palloc.Init
import Sdkz.Palloc.Session
import Sdkz.Palloc.WellFormed
import Sdkz.Palloc.Confluence
import Sdkz.Palloc.Threads
import Sdkz.Base.Radix
import Sdkz.Hu.Codec
import Sdkz.Hu.Partition
import Sdkz.Hu.Decode
import Sdkz.Hu.DecodeMemory
import Sdkz.Hu.Write
import Sdkz.Hu.Room
import Sdkz.App.Uart
import Sdkz.App.UartIrq
import Sdkz.App.UartWake
import Sdkz.App.UartAsync
import Sdkz.App.Udp
import Sdkz.Base.Ledger
import Sdkz.App.HupServer
import Sdkz.Palloc.Served
import Sdkz.Palloc.Stores
import Sdkz.Palloc.FirstFit
import Sdkz.Palloc.Contents
import Sdkz.Palloc.Refree
import Sdkz.Palloc.Stats
import Sdkz.Palloc.Again
import Sdkz.Palloc.Bounds
import Sdkz.Base.Simulation
import Sdkz.Hu.Service
import Sdkz.Hu.Refine
import Sdkz.Hu.FlashService
import Sdkz.Hu.Answers
import Sdkz.Hu.Sessions
import Sdkz.Hu.Exchange
import Sdkz.App.UartServer
import Sdkz.App.UartSettles
import Sdkz.App.UartAsyncRx
import Sdkz.Palloc.Counters
import Sdkz.Palloc.Independence
import Sdkz.Hu.Remote
import Sdkz.Hu.Upload
import Sdkz.Hu.EncodeMemory
import Sdkz.Base.Lock
import Sdkz.App.UartPoll
import Sdkz.App.PwmLeds
import Sdkz.App.UdpSocket
import Sdkz.Mp.Threads
import Sdkz.Hu.InFlight
import Sdkz.App.SerialFlash
import Sdkz.Base.Chain
import Sdkz.Mp.Timers
import Sdkz.Mp.FlashArea
