import JACLibc.Lib.Run
import JACLibc.Lib.Checked
import JACLibc.Lib.Cyclic
import JACLibc.CString
import JACLibc.Search.Hash
import JACLibc.Lib.Compar
import JACLibc.Lib.First
import JACLibc.Search.HashSpec
import JACLibc.Search.Tree
import JACLibc.Search.TreeSpec
import JACLibc.Search.Walk
import JACLibc.Stdlib.Sort
import JACLibc.Stdlib.SortSpec
import JACLibc.Stdlib.Random
import JACLibc.Stdlib.SortMem
import JACLibc.Format.Printf
import JACLibc.Format.PrintfSpec
import JACLibc.Format.Float
import JACLibc.Match.Matcher
import JACLibc.Match.Compile
import JACLibc.Match.Exec
import JACLibc.Match.BreTrans
import JACLibc.Match.Tree
import JACLibc.Match.CompileSpec
import JACLibc.Lib.Span
import JACLibc.Match.Sound
import JACLibc.Match.Reading
import JACLibc.Match.Complete
import JACLibc.Match.Depth
import JACLibc.Match.Fnmatch
import JACLibc.Match.Bracket
import JACLibc.Match.PathGlob
import JACLibc.Memory.Heap
import JACLibc.Lib.Linked
import JACLibc.Lib.Tiling
import JACLibc.Memory.HeapInv
import JACLibc.Memory.HeapBins
import JACLibc.Memory.HeapCoalesce
import JACLibc.Memory.HeapFree
import JACLibc.Memory.Session
import JACLibc.Memory.Safety
import JACLibc.Memory.BinLists
import JACLibc.Memory.Contents
import JACLibc.Memory.Places
import JACLibc.Memory.Aligned
import JACLibc.Memory.Exhaustion
import JACLibc.Memory.Arena
import JACLibc.Stdlib.Environ
import JACLibc.Stdlib.Subopt
import JACLibc.Unistd.Execvp
import JACLibc.Unistd.Getopt
import JACLibc.Http.Parser
import JACLibc.Json.Tree
import JACLibc.Json.TreeSpec
import JACLibc.Json.TreeRun
import JACLibc.Json.Text
import JACLibc.Json.TextSpec
import JACLibc.Json.Writer
import JACLibc.Json.Path
import JACLibc.Json.Space
import JACLibc.Json.Follow
import JACLibc.Stdio.Stream
import JACLibc.Stdio.Input
import JACLibc.Stdio.Getdelim
import JACLibc.Stdio.Update
import JACLibc.Stdio.Output
import JACLibc.Stdio.Bounds
import JACLibc.Http.Request
import JACLibc.Http.Serve
import JACLibc.Lib.Bytes
import JACLibc.Crypto.Macros
import JACLibc.Transit.Ws
import JACLibc.Transit.WsBounds
import JACLibc.Transit.Proto
import JACLibc.Transit.Route
import JACLibc.Transit.RouteScan
import JACLibc.Transit.RouteMatch
import JACLibc.Transit.RouteBounds
import JACLibc.Transit.Router
import JACLibc.Http.RoundTrip
import JACLibc.Wchar.Convert
import JACLibc.Wchar.RoundTrip
import JACLibc.Wchar.Iconv
import JACLibc.Wchar.IconvSpec
import JACLibc.Wchar.IconvRun
import JACLibc.Wchar.IconvSplit
import JACLibc.Wchar.IconvEnds
import JACLibc.Wchar.Measure
import JACLibc.Wchar.Restart
import JACLibc.Wchar.Uchar
import JACLibc.Strings.Libgen
import JACLibc.Strings.Token
import JACLibc.Lib.Parts
import JACLibc.Time.Calendar
import JACLibc.Time.Strftime
import JACLibc.Wordexp.Scan
import JACLibc.Wordexp.Vector
import JACLibc.Wordexp.Nocmd
import JACLibc.Wordexp.Quote
import JACLibc.Wordexp.Ledger
import JACLibc.Wordexp.DoubleQuote
import JACLibc.Crypto.Sha2
import JACLibc.Crypto.Sha2Spec
import JACLibc.Crypto.Poly1305
import JACLibc.Crypto.Poly1305Spec
import JACLibc.Crypto.Chacha20
import JACLibc.Crypto.Blake2
import JACLibc.Crypto.Blake2Spec
import JACLibc.Lib.Carry
import JACLibc.Crypto.Blake3
import JACLibc.Crypto.Blake3Chunk
import JACLibc.Crypto.Blake3Tree
import JACLibc.Crypto.Keccak
import JACLibc.Crypto.KeccakSpec
import JACLibc.Crypto.Hkdf
import JACLibc.Lib.Limbs
import JACLibc.Crypto.Curve25519
import JACLibc.Crypto.Curve25519Mul
import JACLibc.Transit.Aio
import JACLibc.Transit.Client
import JACLibc.Transit.ClientOut
import JACLibc.Transit.ClientIn
import JACLibc.Format.Scanf
import JACLibc.Format.Number
import JACLibc.Format.IntText
import JACLibc.Format.IntSpec
import JACLibc.Format.ReadDigits
import JACLibc.Format.Strto
import JACLibc.Format.StrtoSpec
import JACLibc.Format.StrtoIff
import JACLibc.Format.RoundTrip
import JACLibc.Format.Scanset
import JACLibc.Format.ScansetSpec
import JACLibc.Format.ScanLoop
import JACLibc.Format.PrintLoop
import JACLibc.Format.FormatBounds
import JACLibc.Format.Overread
import JACLibc.Format.ScanItem
import JACLibc.Format.ScanRun
import JACLibc.Format.Text
import JACLibc.Format.Builder
import JACLibc.Http.Response
import JACLibc.Transit.EventStream
import JACLibc.Transit.Sse
import JACLibc.Net.Inet
import JACLibc.Lib.Stretch
import JACLibc.Net.Ntop
import JACLibc.Net.Pton
import JACLibc.Net.RoundTrip
import JACLibc.Net.Ip4Text
import JACLibc.Net.Ip6Text
import JACLibc.Net.Dns
import JACLibc.Net.DnsName
import JACLibc.Net.DnsExpand
import JACLibc.Net.DnsRoundTrip
import JACLibc.Lib.Interleave
import JACLibc.Pthread.Mutex
import JACLibc.Pthread.Barrier
import JACLibc.Lib.Priority
import JACLibc.Ipc.Mqueue
import JACLibc.Ipc.MqueuePool
import JACLibc.Ipc.MqueueOrder
import JACLibc.Lib.Tenancy
import JACLibc.Ipc.Sem
import JACLibc.Ipc.SemSlots
import JACLibc.Ipc.SemLedger
