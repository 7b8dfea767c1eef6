import FeedHandler.Sync
import FeedHandler.Ladder
import FeedHandler.LadderWindow
import FeedHandler.Dict
import FeedHandler.OrderBookRef
import FeedHandler.BookSide
import FeedHandler.StoreUpdate
import FeedHandler.OrderBook
import FeedHandler.OrderBookRefinement
import FeedHandler.BookDepartures
import FeedHandler.BookBurst
import FeedHandler.GoldenAgreement
import FeedHandler.ParserFraming
import FeedHandler.GoldenReplay
import FeedHandler.AxisDropFifo
import FeedHandler.FifoStall
import FeedHandler.DropCounters
import FeedHandler.GoldenSignals
import FeedHandler.FeedPipeline
import FeedHandler.LadderNested
import FeedHandler.StoreDepth
import FeedHandler.FifoService
import FeedHandler.FeedOverload
import FeedHandler.FeedLatency
import FeedHandler.SignalRange
import FeedHandler.AxisWrap
import FeedHandler.GoldenEndToEnd
import FeedHandler.ExceptLoops
import FeedHandler.ParserStreams
import FeedHandler.Level2
import FeedHandler.CoinbaseFeed
import FeedHandler.PynqDriver
import FeedHandler.FeedToBook
import FeedHandler.DriverRun
import FeedHandler.GoldenFloat
import FeedHandler.DecimalFeed
import FeedHandler.SideMirror
