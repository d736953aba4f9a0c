import Btide.Base.Buffer
import Btide.Base.Ends
import Btide.Base.Epoll
import Btide.Base.Fair
import Btide.Base.Heap
import Btide.Base.Loop
import Btide.Base.Run
import Btide.Base.Stdio
import Btide.Base.Steps
import Btide.Chk.Capacity
import Btide.Chk.Collect
import Btide.Chk.Completed
import Btide.Chk.FieldSizes
import Btide.Chk.HashesOf
import Btide.Chk.Layout
import Btide.Chk.Lines
import Btide.Chk.Listing
import Btide.Chk.Load
import Btide.Chk.MinCover
import Btide.Chk.Missing
import Btide.Chk.Obj
import Btide.Chk.Original
import Btide.Chk.Pkgmain
import Btide.Chk.Query
import Btide.Chk.RoundTrip
import Btide.Chk.WellFormed
import Btide.Command.Address
import Btide.Command.Contained
import Btide.Command.Disconnect
import Btide.Command.Ends
import Btide.Command.Feed
import Btide.Command.Filter
import Btide.Command.Fits
import Btide.Command.Lifetime
import Btide.Command.Listing
import Btide.Command.Owned
import Btide.Command.Port
import Btide.Command.Process
import Btide.Command.Quit
import Btide.Command.Removal
import Btide.Command.Session
import Btide.Command.Stale
import Btide.Command.Status
import Btide.Command.Tracker
import Btide.Command.Undo
import Btide.Config.Load
import Btide.Crypt.Eval
import Btide.Crypt.Fill
import Btide.Crypt.Fips180
import Btide.Crypt.Sha256
import Btide.Crypt.Stream
import Btide.Package.Add
import Btide.Package.Ends
import Btide.Package.IsComplete
import Btide.Package.Remove
import Btide.Packet.Transfer
import Btide.Peer.Closing
import Btide.Peer.Descriptors
import Btide.Peer.Life
import Btide.Peer.Net
import Btide.Peer.Refine
import Btide.Peer.Sequence
import Btide.Peer.Server
import Btide.Peer.Shutdown
import Btide.Peer.Threads
import Btide.Peer.Wakeup
import Btide.Theory.Chain
import Btide.Theory.Fingerprint
import Btide.Theory.LevelOrder
import Btide.Theory.Merkle
import Btide.Theory.Missing
import Btide.Theory.Numbered
import Btide.Theory.Topmost
import Btide.Theory.Traversal
import Btide.Tree.Allocated
import Btide.Tree.Binding
import Btide.Tree.Build
import Btide.Tree.Deal
import Btide.Tree.HashChunk
import Btide.Tree.Match
import Btide.Tree.Node
import Btide.Tree.Overflow
import Btide.Tree.Perfect
import Btide.Tree.Queue
import Btide.Tree.Reads
import Btide.Tree.Traverse
