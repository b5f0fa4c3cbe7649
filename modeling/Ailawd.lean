import Ailawd.Library.Run
import Ailawd.Library.ByteString
import Ailawd.Library.Conversion
import Ailawd.Library.OrderedMap
import Ailawd.Library.CharVec
import Ailawd.Library.Segments
import Ailawd.Model.HttpProto
import Ailawd.Model.HttpParser
import Ailawd.Model.Reply
import Ailawd.Model.Connection
import Ailawd.Model.FrontConn
import Ailawd.Model.Session
import Ailawd.Model.ClientOps
import Ailawd.Model.Analyse
import Ailawd.Backend.Reading
import Ailawd.Backend.WholeReplies
import Ailawd.Connection.Exits
import Ailawd.Connection.Reception
import Ailawd.Connection.Reactions
import Ailawd.Connection.Parsing
import Ailawd.Connection.HeaderFields
import Ailawd.Connection.RequestLine
import Ailawd.Model.Dialogue
import Ailawd.Model.Feed
import Ailawd.Connection.Phases
import Ailawd.Connection.Framing
import Ailawd.Connection.Reassembly
import Ailawd.Connection.ResponseIntegrity
import Ailawd.Connection.BufferBounds
import Ailawd.Model.HttpServer
import Ailawd.Server.Actions
import Ailawd.Server.Pool
import Ailawd.Server.Supervision
import Ailawd.Server.Lifecycle
import Ailawd.Server.Recycling
import Ailawd.Server.Isolation
import Ailawd.Server.Wakeup
import Ailawd.Model.RedisClient
import Ailawd.Cache.History
import Ailawd.Cache.Keys
import Ailawd.Cache.Values
import Ailawd.Backend.Exchange
import Ailawd.Backend.Segmentation
import Ailawd.Backend.Outcomes
import Ailawd.Backend.Containment
import Ailawd.Connection.FeedSteps
import Ailawd.Connection.Surplus
import Ailawd.Connection.Answering
import Ailawd.Cache.LiveContext
import Ailawd.Backend.ReadWindow
import Ailawd.Server.PendingEntries
import Ailawd.Server.IdleExpiry
import Ailawd.Connection.HeaderRoundTrip
import Ailawd.Connection.ReplyRoundTrip
import Ailawd.Connection.LetterCase
import Ailawd.Server.Reuse
import Ailawd.Server.Listening
import Ailawd.Server.Absorption
import Ailawd.Backend.Timeouts
import Ailawd.Connection.TrailingSlashes
import Ailawd.Connection.ReplyEncoders
import Ailawd.Backend.ShortWrites
import Ailawd.Backend.AccessControl
import Ailawd.Model.Blocking
import Ailawd.Backend.Survival
import Ailawd.Server.Accepting
import Ailawd.Server.WriteOffsets
import Ailawd.Library.Simulation
import Ailawd.Server.Serial
import Ailawd.Server.Alone
import Ailawd.Server.Passes
import Ailawd.Library.CodeWords
import Ailawd.Connection.ReplyStream
import Ailawd.Library.Memo
import Ailawd.Cache.Memoised
import Ailawd.Connection.Conversation
import Ailawd.Cache.ContextOwnership
import Ailawd.Server.Lifetime
import Ailawd.Connection.Aborts
import Ailawd.Server.Aborts
import Ailawd.Server.Sweeps
import Ailawd.Connection.Routing
import Ailawd.Server.Routing
