import Aesd.Lib.Run
import Aesd.Lib.Segments
import Aesd.Lib.Window
import Aesd.Lib.Heap
import Aesd.Lib.Atomic
import Aesd.Lib.FileSystem
import Aesd.Driver.Memory
import Aesd.Driver.CircularBuffer
import Aesd.Driver.Device
import Aesd.Driver.Effect
import Aesd.Driver.Supply
import Aesd.Driver.Module
import Aesd.Driver.Ownership
import Aesd.Driver.Concurrent
import Aesd.Driver.Reading
import Aesd.Driver.Ring
import Aesd.Driver.Contents
import Aesd.Driver.Refinement
import Aesd.Driver.Failure
import Aesd.Driver.Reader
import Aesd.Driver.Draining
import Aesd.Driver.Service
import Aesd.Server.ReadLine
import Aesd.Server.HandleConnection
import Aesd.Server.Calls
import Aesd.Server.Mutex
import Aesd.Server.Deadlock
import Aesd.Server.Snapshots
import Aesd.Server.Completion
import Aesd.Server.Framing
import Aesd.Server.Stream
import Aesd.Server.Filestore
import Aesd.Server.Builds
import Aesd.Server.Timestamp
import Aesd.Server.FileServer
import Aesd.Server.FileSnapshots
import Aesd.Server.FileShutdown
import Aesd.Server.Queue
import Aesd.Server.Process
import Aesd.Server.Reaping
import Aesd.Server.Cleanup
import Aesd.Server.Descriptors
import Aesd.Server.Shutdown
import Aesd.Server.Boot
import Aesd.Server.Connections
import Aesd.Server.Threads
import Aesd.Writer.Mkdir
import Aesd.Writer.Main
import Aesd.Writer.Runs
