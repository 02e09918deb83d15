import Wslay.Event.Recv
import Wslay.Event.RecvLoop
import Wslay.Frame.RoundTrip
import Wslay.Frame.SendRun
import Wslay.Event.Run
import Wslay.Event.Counters
import Wslay.Event.Closing
import Wslay.Event.AfterClose
import Wslay.Event.EndOfFile
import Wslay.Frame.Failures
import Wslay.Event.Failures
import Wslay.Event.Exits
import Wslay.Event.Fatal
import Wslay.Event.Endings
import Wslay.Event.Protocol
import Wslay.Event.Pings
import Wslay.Event.InStep
import Wslay.Event.SendInStep
import Wslay.Frame.Window
import Wslay.Frame.Reencode
import Wslay.Event.Report
import Wslay.Event.Drafts
import Wslay.Event.Reassembly
import Wslay.Event.Assembly
import Wslay.Event.Fronts
import Wslay.Event.Legal
import Wslay.Event.Validation
import Wslay.Event.Limit
import Wslay.Event.CloseBodies
import Wslay.Event.LateClose
import Wslay.Event.Healthy
import Wslay.Event.Messages
import Wslay.Event.Attending
import Wslay.Event.Pair
import Wslay.Event.Recut
import Wslay.Event.TwoModes
import Wslay.Event.WordSize
import Wslay.Event.Delivery
import Wslay.Event.Farewell
import Wslay.Event.LeaveTaking
import Wslay.Event.Handshake
import Wslay.Queue
