import Misc.Sync.PulseDelivery
import Misc.Yagw.ExactlyOnce
import Misc.Yagw.Readiness
import Misc.Lib.Graph
import Misc.Lib.Tarjan
import Misc.Epaxos.Instance
import Misc.Epaxos.State
import Misc.Epaxos.Components
import Misc.Epaxos.ExecutionOrder
import Misc.Epaxos.ExecutionAgreement
import Misc.Dotjson.Decode
import Misc.Dotjson.Grammar
import Misc.Dotjson.Lexemes
import Misc.Dotjson.Completeness
import Misc.Dotjson.Soundness
import Misc.Dotjson.DecodesGrammar
import Misc.Dotjson.Encode
import Misc.Dotjson.RoundTrip
import Misc.Yagw.Framing
import Misc.Jsoniter.Iter
import Misc.Jsoniter.Layout
import Misc.Jsoniter.Lexemes
import Misc.Jsoniter.Completeness
import Misc.Jsoniter.Rfc8259
import Misc.Jsoniter.IterFast
import Misc.Epaxos.Handlers
import Misc.Epaxos.Promise
import Misc.Epaxos.Reload
import Misc.Epaxos.Leader
import Misc.Epaxos.Recovery
import Misc.Epaxos.Replica
import Misc.Lib.Preorder
import Misc.Epaxos.ExecutionHistory
import Misc.Epaxos.Cluster
import Misc.Epaxos.Agreement
import Misc.Jsoniter.Unescape
import Misc.Lib.Digits
import Misc.Jsonpb.Mapping
import Misc.Epaxos.Replies
import Misc.Epaxos.Votes
import Misc.Gorpool.Pool
import Misc.Gorpool.Safety
import Misc.Tcpproxy.Context
import Misc.Tcpproxy.Forwarding
import Misc.Lib.Md5
import Misc.Md5.Md5p
import Misc.Md5.Digest
import Misc.Thrpool.Pool
import Misc.Lib.Linked
import Misc.Thrpool.Staff
import Misc.Thrpool.Shutdown
import Misc.Thrpool.Draining
import Misc.LibDotJson.JNode
import Misc.LibDotJson.JParser
import Misc.LibDotJson.Grammar
import Misc.LibDotJson.Lexemes
import Misc.LibDotJson.Loop
import Misc.LibDotJson.Reading
import Misc.LibDotJson.Refusal
import Misc.LibDotJson.Language
import Misc.LibDotJson.Integers
import Misc.LibDotJson.RoundTrip
import Misc.Epaxos.AcceptPhase
import Misc.Epaxos.Redelivery
import Misc.Epaxos.CmdTable
import Misc.Epaxos.SccStack
import Misc.Epaxos.Pulling
import Misc.Epaxos.Readers
import Misc.Lib.Probing
import Misc.Dotjson.Lookup
import Misc.Dotjson.Destroy
import Misc.Dotjson.Sizing
import Misc.Dotjson.Comments
import Misc.Dotjson.Insertion
import Misc.Dotjson.Skipping
import Misc.Epaxos.Proposals
import Misc.Epaxos.Interference
import Misc.Lib.Paths
import Misc.Re0.Fragment
import Misc.Re0.Re
import Misc.Re0.Parsing
import Misc.Lib.Marking
import Misc.Re0.Dfa
import Misc.Re0.Closure
import Misc.Re0.Subset
import Misc.Re0.Ordering
import Misc.Re0.Agreement
import Misc.Re0.Repeated
import Misc.Alg.Dijkstra
import Misc.Jsoniter.StringToken
import Misc.Jsoniter.Spaced
import Misc.Jsoniter.Valid
import Misc.Jsonpb.Encoder
import Misc.Stdmv.Constraint
import Misc.Stdmv.Expression
import Misc.Stdmv.Meaning
import Misc.Re0.Match
import Misc.Lib.Words
import Misc.Tcpproxy.Net
import Misc.Tcpproxy.EndOfFile
import Misc.Sys.Polldesp
import Misc.Sys.Allocation
import Misc.Lib.SlashPaths
import Misc.Lib.Substrings
import Misc.Stdmv.PackagePaths
import Misc.Stdmv.Replace
import Misc.Thrpool.Waiting
import Misc.Sync.Exclusion
import Misc.Yagw.Goroutine
import Misc.Yagw.Stream
import Misc.Yagw.Buffering
import Misc.Yagw.Login
import Misc.Lib.Window
import Misc.TcpEcho.Client
import Misc.TcpEcho.Stalling
import Misc.TcpEcho.Closing
import Misc.ZaxInspector.Sections
import Misc.Lib.Radix
import Misc.ZaxInspector.Numbers
import Misc.Dotjson.TwoPasses
import Misc.Lib.Serial
import Misc.ZaxInspector.Dump
import Misc.Epaxos.IdOrder
import Misc.Json2go.Converter
import Misc.Json2go.Mapping
import Misc.Json2go.Conversion
import Misc.Re0.Reachability
import Misc.Lib.Counting
import Misc.Sys.Concurrent
import Misc.Sys.Exclusion
import Misc.Sys.Progress
import Misc.Epaxos.Validity
import Misc.Lib.Delimited
import Misc.Thrpool.Memory
import Misc.ZaxInspector.Disassembler
import Misc.ZaxInspector.Lengths
import Misc.ZaxInspector.Sweep
import Misc.Lib.Rounds
import Misc.Stdmv.Copying
import Misc.Stdmv.Sync
import Misc.Xml.Loading
import Misc.Inotify.Events
import Misc.Xml.Documents
import Misc.Sys.FilePoll
import Misc.Yagw.Recycling
import Misc.Tcpproxy.Resources
import Misc.Tcpproxy.Connections
import Misc.Lib.Tables
import Misc.TcpEcho.Server
import Misc.TcpEcho.Clients
