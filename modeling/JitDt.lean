import JitDt.Lib.Machine
import JitDt.Lib.RingIndex
import JitDt.Lib.BoundedQueue
import JitDt.Lib.Memory
import JitDt.Misclib.History
import JitDt.Jitcclient.Wire
import JitDt.Lwatcher.Framing
import JitDt.Misclib.HistoryFiles
import JitDt.Jitcclient.Scatter
import JitDt.Lwatcher.Independence
import JitDt.Lwatcher.Stability
import JitDt.Lwatcher.RoundTrip
import JitDt.Lwatcher.Count
import JitDt.Lwatcher.Wakeup
import JitDt.Misclib.HistoryKeep
import JitDt.Lib.Mailbox
import JitDt.Jitclient.Mpi
import JitDt.Lockfile.Delivery
import JitDt.Lockfile.Order
import JitDt.Lockfile.Jitget
import JitDt.Kwatcher.Mkhist
import JitDt.Kwatcher.Publish
import JitDt.Kwatcher.Slots
import JitDt.Kwatcher.Recycle
import JitDt.Kwatcher.Reader
import JitDt.Regexplib.Scanner
import JitDt.Regexplib.Layout
import JitDt.Regexplib.Readconf
import JitDt.Regexplib.RoundTrip
import JitDt.HttpDaemon.Upload
import JitDt.Jitcclient.Failure
import JitDt.Lwatcher.ReadSession
import JitDt.Misclib.HistoryLate
import JitDt.Regexplib.Acceptor
import JitDt.Regexplib.Match
import JitDt.Regexplib.Soundness
import JitDt.Inotifylib.Ancestors
import JitDt.Inotifylib.Events
import JitDt.Lockfile.Place
import JitDt.Lockfile.Sizes
import JitDt.Lwatcher.BufferSize
import JitDt.Lwatcher.Descriptors
import JitDt.Lwatcher.NameList
import JitDt.Lwatcher.OpenName
import JitDt.Lwatcher.TypeIndex
import JitDt.Misclib.HistoryBounds
import JitDt.Inotifylib.Listing
import JitDt.Inotifylib.Scan
import JitDt.Inotifylib.Removal
import JitDt.Kwatcher.Account
import JitDt.Kwatcher.Ages
import JitDt.Lockfile.Jitopen
import JitDt.Misclib.HistoryAccount
import JitDt.Translib.LockedMove
import JitDt.Translib.Sftp
import JitDt.Translib.Url
import JitDt.WatchAndTransfer.Transfer
import JitDt.Regexplib.Copy
import JitDt.Lib.Halting
import JitDt.Lockfile.OnePlace
import JitDt.Misclib.Dateconv
import JitDt.Regexplib.Bounds
import JitDt.Regexplib.Quoting
import JitDt.Regexplib.Termination
import JitDt.Jitclient.Session
import JitDt.Kwatcher.Configured
import JitDt.Lockfile.Deaths
import JitDt.Lockfile.Progress
import JitDt.Lwatcher.Queue
import JitDt.HttpDaemon.Streams
import JitDt.Lib.WaitGraph
import JitDt.Lockfile.Opened
import JitDt.Lockfile.Publishing
import JitDt.HttpDaemon.Browse
