import Flashflow.Sched.Finish
import Flashflow.Sched.Reload
import Flashflow.Sched.Json
import Flashflow.Sched.Printing
import Flashflow.Loop.Safety
import Flashflow.Loop.Allocate
import Flashflow.Loop.Background
import Flashflow.Loop.Cleanup
import Flashflow.Loop.Pairing
import Flashflow.Loop.Failsafe
import Flashflow.Loop.Sockets
import Flashflow.Loop.Bounds
import Flashflow.Torclient.Segments
import Flashflow.Torclient.Buffer
import Flashflow.Torclient.Commands
import Flashflow.Torclient.ClientLines
import Flashflow.Torclient.Strings
import Flashflow.V3bw.RoundTrip
import Flashflow.V3bw.Bandwidth
import Flashflow.V3bw.Overflow
import Flashflow.V3bw.Minimum
import Flashflow.V3bw.Filter
import Flashflow.Rotatefd.Rotation
import Flashflow.Sched.Split
import Flashflow.Loop.Sweep
import Flashflow.V3bw.Raised
import Flashflow.V3bw.Trim
import Flashflow.Rotatefd.Handles
import Flashflow.Loop.Sessions
import Flashflow.Loop.Progress
import Flashflow.Loop.Reasons
import Flashflow.Loop.Layers
import Flashflow.Loop.Epoll
import Flashflow.Main.Publish
