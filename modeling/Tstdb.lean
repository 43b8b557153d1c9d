import Tstdb.Lib.Fuel
import Tstdb.Lib.Runs
import Tstdb.Lib.Journal
import Tstdb.Lib.CText
import Tstdb.Lib.Bytes
import Tstdb.Lib.TernaryTree
import Tstdb.Lib.TernaryWords
import Tstdb.Lib.Chains
import Tstdb.Lib.Outcome
import Tstdb.Tst.Arena
import Tstdb.Tst.Shape
import Tstdb.Tst.Put
import Tstdb.Tst.Delete
import Tstdb.Tst.Runs
import Tstdb.Tst.Calls
import Tstdb.Tst.Twin
import Tstdb.Tst.NullNode
import Tstdb.Tst.Growth
import Tstdb.Tst.Scan
import Tstdb.Tst.Walks
import Tstdb.Tst.Ranges
import Tstdb.Server.Index
import Tstdb.Server.Store
import Tstdb.Server.Sections
import Tstdb.Server.View
import Tstdb.Server.Workers
import Tstdb.Server.Boot
import Tstdb.Server.Shutdown
import Tstdb.Server.Swap
import Tstdb.Server.Pool
import Tstdb.Server.Discipline
import Tstdb.Server.Commands
import Tstdb.Server.Values
import Tstdb.Server.Buffers
import Tstdb.Server.Framing
import Tstdb.Server.Replies
import Tstdb.Server.History
import Tstdb.Server.Frame
import Tstdb.Server.Counter
import Tstdb.Server.Expiry
import Tstdb.Server.Absent
import Tstdb.Server.Output
import Tstdb.Server.Intake
import Tstdb.Server.Limits
import Tstdb.Server.Tokens
import Tstdb.Server.Stream
import Tstdb.Server.Requests
import Tstdb.Server.Exhaustion
import Tstdb.Server.Segments
import Tstdb.Server.Numbers
import Tstdb.Server.Atomic
import Tstdb.Lib.PyText
import Tstdb.Client.Host
import Tstdb.Client.Keys
import Tstdb.Client.Values
import Tstdb.V1.Library
import Tstdb.V1.Tree
import Tstdb.V1.Map
import Tstdb.V1.Hint
import Tstdb.V1.Server
import Tstdb.V1.Shop
import Tstdb.V1.Pieces
import Tstdb.Server.Dialogue
import Tstdb.Client.Lines
import Tstdb.Client.Service
import Tstdb.Client.Calls
import Tstdb.Client.Session
import Tstdb.Client.Batch
import Tstdb.Client.Cas
import Tstdb.Server.EventLoop
