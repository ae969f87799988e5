import Bklib.Lib.Run
import Bklib.Lib.KeyMap
import Bklib.Model.Array
import Bklib.Model.Hash
import Bklib.Lib.Buckets
import Bklib.Proofs.Hash
import Bklib.Proofs.HashMap
import Bklib.Lib.Mem
import Bklib.Model.Fdselect
import Bklib.Model.FdselectPipe
import Bklib.Proofs.Fdselect
import Bklib.Proofs.PipeChannel
import Bklib.Proofs.FdselectPipe
import Bklib.Proofs.PipeClose
import Bklib.Model.Sendlist
import Bklib.Lib.Trace
import Bklib.Proofs.Sendlist
import Bklib.Lib.SeqStream
import Bklib.Model.IpConnTrack
import Bklib.Proofs.IpConnTrack
import Bklib.Proofs.TcpStream
import Bklib.Lib.Scan
import Bklib.Model.Http
import Bklib.Proofs.HttpFeed
import Bklib.Proofs.HttpMessage
import Bklib.Lib.SparseFile
import Bklib.Model.Cryptbk
import Bklib.Model.Mmap
import Bklib.Model.Opt
import Bklib.Proofs.Cryptbk
import Bklib.Proofs.Mmap
import Bklib.Proofs.Opt
import Bklib.Model.Pool
import Bklib.Proofs.HashVal
import Bklib.Proofs.Pool
import Bklib.Proofs.ConnIdentity
import Bklib.Lib.Script
import Bklib.Model.HttpReq
import Bklib.Proofs.HttpDelivery
import Bklib.Proofs.HttpReport
import Bklib.Lib.OnesComplement
import Bklib.Model.FdselectSelect
import Bklib.Model.NetpktMem
import Bklib.Model.Pack
import Bklib.Proofs.FdselectMap
import Bklib.Proofs.FdselectSelect
import Bklib.Proofs.NetpktAdjust
import Bklib.Proofs.Pack
import Bklib.Lib.LexCompare
import Bklib.Model.IpTrack
import Bklib.Model.Vercmp
import Bklib.Proofs.HashForeach
import Bklib.Proofs.IpTrack
import Bklib.Proofs.IpTrackRows
import Bklib.Proofs.Vercmp
import Bklib.Lib.DomainName
import Bklib.Model.Dns
import Bklib.Proofs.DnsName
import Bklib.Proofs.DnsRrPack
import Bklib.Proofs.DnsUnpack
import Bklib.Lib.DoublyLinked
import Bklib.Lib.Expect
import Bklib.Lib.Rounds
import Bklib.Lib.TlvOpts
import Bklib.Model.CryptbkPack
import Bklib.Model.Llist
import Bklib.Model.NetpktNew
import Bklib.Model.NetpktOpt
import Bklib.Proofs.CryptbkPack
import Bklib.Proofs.DnsPointer
import Bklib.Proofs.DnsUnpackName
import Bklib.Proofs.InCksum
import Bklib.Proofs.IpConnSeq
import Bklib.Proofs.Llist
import Bklib.Proofs.NetpktNew
import Bklib.Proofs.NetpktOpt
import Bklib.Proofs.NetpktSack
import Bklib.Lib.Descriptors
import Bklib.Model.HttpServer
import Bklib.Proofs.HttpServer
import Bklib.Lib.Bisect
import Bklib.Lib.NameChain
import Bklib.Lib.Tags
import Bklib.Model.DnsProxy
import Bklib.Proofs.Array
import Bklib.Proofs.DnsChain
import Bklib.Proofs.DnsHeader
import Bklib.Proofs.DnsPacking
import Bklib.Proofs.DnsProxy
import Bklib.Proofs.DnsProxyFrame
import Bklib.Proofs.DnsRoundTrip
import Bklib.Proofs.HashFree
import Bklib.Model.DnsResolve
import Bklib.Proofs.DnsReply
import Bklib.Proofs.DnsResolve
import Bklib.Lib.PercentCode
import Bklib.Lib.Span
import Bklib.Model.HttpCgi
import Bklib.Model.Url
import Bklib.Proofs.CryptbkDec
import Bklib.Proofs.HttpCgi
import Bklib.Proofs.HttpCgiArgs
import Bklib.Proofs.OptQuoted
import Bklib.Proofs.UrlInside
import Bklib.Proofs.UrlParts
import Bklib.Model.OptArgv
import Bklib.Proofs.OptArgs
import Bklib.Proofs.OptGetArgv
import Bklib.Proofs.HttpLength
import Bklib.Proofs.OptInside
import Bklib.Lib.Cyclic
import Bklib.Model.Dir
import Bklib.Model.Memutil
import Bklib.Model.State
import Bklib.Model.Tstat
import Bklib.Proofs.Dir
import Bklib.Proofs.Memfind
import Bklib.Proofs.PackBits
import Bklib.Proofs.PackBounds
import Bklib.Proofs.State
import Bklib.Proofs.Tstat
import Bklib.Lib.Recent
import Bklib.Model.Cfg
import Bklib.Proofs.CfgList
import Bklib.Model.DebugLeak
import Bklib.Proofs.DebugLeak
import Bklib.Model.DnsFmt
import Bklib.Proofs.DnsFmt
import Bklib.Model.NetpktCksum
import Bklib.Proofs.CksumSum
import Bklib.Proofs.HexString
import Bklib.Model.HttpServerNet
import Bklib.Proofs.HttpHeaderText
import Bklib.Proofs.HttpServerGet
import Bklib.Lib.Protocol
import Bklib.Lib.Replies
import Bklib.Model.Update
import Bklib.Proofs.HttpGetWith
import Bklib.Proofs.UpdateProtocol
import Bklib.Proofs.HttpServes
import Bklib.Proofs.UpdateDelivers
import Bklib.Lib.FileTree
import Bklib.Model.CfgStore
import Bklib.Proofs.CfgInt
import Bklib.Proofs.CfgMkpath
import Bklib.Proofs.PoolHeap
import Bklib.Proofs.DnsLookup
import Bklib.Proofs.CfgMap
import Bklib.Model.FdselectLoop
import Bklib.Proofs.FdselectLoop
