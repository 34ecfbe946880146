import InternetLabs.Lib.Walk
import InternetLabs.Lib.Loop
import InternetLabs.Lib.ForLoop
import InternetLabs.Lib.Ieee
import InternetLabs.Lib.Bytes
import InternetLabs.Lib.CText
import InternetLabs.Lib.Scan
import InternetLabs.Lib.Lru
import InternetLabs.Lib.System
import InternetLabs.Lib.Slots
import InternetLabs.Lib.Stamps
import InternetLabs.Lib.Places
import InternetLabs.Lib.Heap
import InternetLabs.Lib.Path
import InternetLabs.Dns.Name
import InternetLabs.Dns.Record
import InternetLabs.Dns.Server
import InternetLabs.Dns.Search
import InternetLabs.Dns.Query
import InternetLabs.Dns.Formerr
import InternetLabs.Dns.InitDb
import InternetLabs.Dns.Load
import InternetLabs.Dns.Termination
import InternetLabs.Dns.Bounds
import InternetLabs.Dns.Answer
import InternetLabs.Dns.Sound
import InternetLabs.Dns.Position
import InternetLabs.Dns.Resolver
import InternetLabs.Dns.CreateQuery
import InternetLabs.Dns.Codec
import InternetLabs.Dns.Compression
import InternetLabs.Dns.Rounds
import InternetLabs.Dns.Address
import InternetLabs.Dns.Follow
import InternetLabs.Dns.Fit
import InternetLabs.Cache.Sim
import InternetLabs.Cache.Lru
import InternetLabs.Cache.Evict
import InternetLabs.Cache.Bookkeeping
import InternetLabs.Cache.Commute
import InternetLabs.Cache.Address
import InternetLabs.Cache.Trans
import InternetLabs.Cache.Tiled
import InternetLabs.Cache.FastPath
import InternetLabs.EventServer.Client
import InternetLabs.EventServer.Parse
import InternetLabs.EventServer.Segments
import InternetLabs.EventServer.Lines
import InternetLabs.EventServer.Request
import InternetLabs.EventServer.Respond
import InternetLabs.EventServer.Server
import InternetLabs.EventServer.Reach
import InternetLabs.EventServer.Send
import InternetLabs.EventServer.Pages
import InternetLabs.EventServer.Serve
import InternetLabs.EventServer.Pipeline
import InternetLabs.EventServer.Stream
import InternetLabs.EventServer.Chunks
import InternetLabs.EventServer.Length
import InternetLabs.EventServer.Wire
import InternetLabs.EventServer.Batch
import InternetLabs.EventServer.Lifecycle
import InternetLabs.EventServer.Edge
import InternetLabs.EventServer.Capacity
import InternetLabs.EventServer.EventLoop
import InternetLabs.EventServer.Ownership
import InternetLabs.EventServer.Tracking
import InternetLabs.EventServer.Idle
import InternetLabs.ThreadedServer.Queue
import InternetLabs.ThreadedServer.Threads
import InternetLabs.ThreadedServer.Connection
import InternetLabs.ThreadedServer.Body
import InternetLabs.HttpServer.Parse
import InternetLabs.HttpServer.Respond
import InternetLabs.HttpServer.Fields
import InternetLabs.HttpServer.Classify
import InternetLabs.ForkingServer.Client
import InternetLabs.ThreadedServer.Respond
import InternetLabs.ThreadedServer.Requests
import InternetLabs.ThreadedServer.Close
import InternetLabs.HttpServer.Confinement
import InternetLabs.Dns.Canonical
import InternetLabs.DataLab.FloatTwice
import InternetLabs.DataLab.FloatI2f
import InternetLabs.SimpleIm.Comm
import InternetLabs.SimpleIm.Until
import InternetLabs.EventServer.Isolation
import InternetLabs.EventServer.Delivery
import InternetLabs.ThreadedServer.Deadlock
import InternetLabs.Csapp.Rio
import InternetLabs.Csapp.Echo
import InternetLabs.Csapp.Sbuf
import InternetLabs.Csapp.Prethreaded
import InternetLabs.Csapp.Select
import InternetLabs.Csapp.SelectRuns
import InternetLabs.Cache.Compulsory
import InternetLabs.Lib.Lanes
import InternetLabs.DataLab.Count
import InternetLabs.DataLab.Puzzles
import InternetLabs.DataLab.FloatNeg
