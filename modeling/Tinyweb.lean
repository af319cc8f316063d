import Tinyweb.Lib.Loop
import Tinyweb.Lib.Memory
import Tinyweb.Lib.CString
import Tinyweb.Lib.Frames
import Tinyweb.Lib.HeaderBlock
import Tinyweb.Lib.FormEncoding
import Tinyweb.Lib.Pointers
import Tinyweb.Lib.Transitions
import Tinyweb.MgString
import Tinyweb.Websocket
import Tinyweb.EchoStream
import Tinyweb.EchoMessages
import Tinyweb.CloseReply
import Tinyweb.Digest
import Tinyweb.Handshake
import Tinyweb.Subprotocol
import Tinyweb.ReadWebsocket
import Tinyweb.GetField
import Tinyweb.QueryReads
import Tinyweb.Segments
import Tinyweb.DecodeText
import Tinyweb.DecodeSegments
import Tinyweb.FieldLookup
import Tinyweb.FieldComposition
import Tinyweb.FieldSafety
import Tinyweb.FieldValue
import Tinyweb.UrlDecode
import Tinyweb.GetCookie
import Tinyweb.CookieScan
import Tinyweb.CookieSafety
import Tinyweb.CookieLookup
import Tinyweb.CookieJoin
import Tinyweb.CookieSegments
import Tinyweb.Options
import Tinyweb.ConfigFile
import Tinyweb.StartServer
import Tinyweb.TinywebService
import Tinyweb.StoppedService
import Tinyweb.Lib.Arrivals
import Tinyweb.Lib.RingBuffer
import Tinyweb.PoolProgress
import Tinyweb.PoolShutdown
import Tinyweb.WebsocketReader
import Tinyweb.HttpRequest
import Tinyweb.RequestLoop
import Tinyweb.Lib.Paths
import Tinyweb.Lib.PercentEncoding
import Tinyweb.MatchPrefix
import Tinyweb.RequestUri
import Tinyweb.FileName
import Tinyweb.Lib.BlockHash
import Tinyweb.Lib.MessageDigest
import Tinyweb.Sha1
import Tinyweb.Md5
import Tinyweb.PasswordFile
import Tinyweb.Authorization
import Tinyweb.Lib.FileTree
import Tinyweb.Lib.Scanf
import Tinyweb.Lib.Calendar
import Tinyweb.HttpDate
import Tinyweb.HttpReply
import Tinyweb.PutFile
import Tinyweb.FileReply
import Tinyweb.HandleRequest
import Tinyweb.FileStore
import Tinyweb.DirectoryListing
