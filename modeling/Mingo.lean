import Mingo.Lib.Machine
import Mingo.Lib.Splice
import Mingo.ByteArray.Basic
import Mingo.ByteArray.Spec
import Mingo.ByteArray.Flat
import Mingo.ByteArray.Reach
import Mingo.Lib.Words
import Mingo.ByteArray.Codec
import Mingo.ByteArray.RoundTrip
import Mingo.ByteArray.Bounds
import Mingo.ByteArray.Varint
import Mingo.ByteArray.Positional
import Mingo.ByteArray.Scatter
import Mingo.ByteArray.Retry
import Mingo.ByteArray.LengthPrefix
import Mingo.ByteArray.File
import Mingo.Lib.OrderedSet
import Mingo.Lib.Ownership
import Mingo.Pool.Basic
import Mingo.Pool.Accounting
import Mingo.Pool.Age
import Mingo.Timer.Basic
import Mingo.Timer.Invariant
import Mingo.Timer.Expiry
import Mingo.Timer.Idle
import Mingo.Timer.Early
import Mingo.Timer.Report
import Mingo.Timer.Wait
import Mingo.Timer.Wakeup
import Mingo.Hook.Sleep
import Mingo.Hook.Contexts
import Mingo.Hook.Descriptor
import Mingo.Hook.Calls
import Mingo.Hook.Bookkeeping
import Mingo.Hook.Timeout
import Mingo.Hook.Close
import Mingo.Lib.Census
import Mingo.Scheduler.Basic
import Mingo.Scheduler.Exclusion
import Mingo.Scheduler.Workers
import Mingo.Scheduler.Counters
import Mingo.Scheduler.Conservation
import Mingo.Scheduler.Pinning
import Mingo.Scheduler.Stop
import Mingo.Scheduler.Wakeup
import Mingo.IoManager.Basic
import Mingo.IoManager.Invariant
import Mingo.IoManager.Stale
import Mingo.IoManager.Table
import Mingo.IoManager.Waiters
import Mingo.IoManager.Registrations
import Mingo.Config.Basic
import Mingo.Config.Agreement
import Mingo.Config.FromString
import Mingo.Config.Yaml
import Mingo.Log.Basic
import Mingo.Log.Reconfigure
import Mingo.Config.Load
import Mingo.Lib.Scanner
import Mingo.Lib.OrderedMap
import Mingo.Stream.Basic
import Mingo.Stream.Pieces
import Mingo.Stream.Reads
import Mingo.Http.Message
import Mingo.Http.RequestTable
import Mingo.Http.ResponseTable
import Mingo.Http.RequestParser
import Mingo.Http.Session
import Mingo.Http.Tokens
import Mingo.Http.Receive
import Mingo.Http.Segmentation
import Mingo.Http.Pipeline
import Mingo.Http.ResponseParser
import Mingo.Http.Connection
import Mingo.Http.ResponseScan
import Mingo.Http.ResponseHead
import Mingo.Http.Closing
import Mingo.Http.Chunked
import Mingo.Http.SizeLine
import Mingo.Http.Reassembly
import Mingo.Http.Dump
import Mingo.Log.Pattern
import Mingo.Log.Define
import Mingo.Http.Phrases
import Mingo.Http.RoundTrip
import Mingo.Pool.Exchange
import Mingo.Http.Bounds
import Mingo.Stream.FixSize
import Mingo.Http.Framing
import Mingo.Address.Lookup
import Mingo.Address.Network
import Mingo.Address.Broadcast
import Mingo.Lib.Ipv6Text
import Mingo.Address.Print
import Mingo.Server.Bind
import Mingo.Http.Limits
import Mingo.Http.MethodToken
import Mingo.Lib.Lines
import Mingo.Http.DumpFraming
import Mingo.Lib.Registry
import Mingo.Http.Servlet
import Mingo.Lib.Buckets
import Mingo.Lib.Grammar
import Mingo.Lib.Recognizer
import Mingo.Grammar.UriTable
import Mingo.Grammar.Uri
import Mingo.Uri.Basic
import Mingo.Uri.Parts
import Mingo.Uri.Trace
import Mingo.Uri.Create
import Mingo.Lib.Delimited
import Mingo.Uri.Components
import Mingo.Uri.Unique
import Mingo.Uri.Print
import Mingo.Uri.Ipv6
import Mingo.Uri.Accept
import Mingo.Lib.Passage
import Mingo.Stream.Delivery
import Mingo.Http.Delivery
import Mingo.Http.ResponsePhrases
import Mingo.Http.ResponseRoundTrip
import Mingo.Http.Server
import Mingo.Http.Client
import Mingo.Log.Delivery
import Mingo.Env.Options
import Mingo.Pool.Dialogue
import Mingo.Server.Lifecycle
import Mingo.Server.Orderly
