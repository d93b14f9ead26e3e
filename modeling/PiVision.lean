import PiVision.Lib.Run
import PiVision.Lib.ScriptLoop
import PiVision.Lib.Framing
import PiVision.Data
import PiVision.EthTerm.Connection
import PiVision.EthTerm.Receive
import PiVision.EthTerm.Send
import PiVision.EthTerm.OutgoingStream
import PiVision.EthTerm.Execute
import PiVision.EthTerm.ControlWords
import PiVision.EthTerm.WholeFrames
import PiVision.EthTerm.RoundTrip
import PiVision.EthTerm.Link
import PiVision.Lib.StopAndWait
import PiVision.EthTerm.AckToken
import PiVision.Grayscale.Job
import PiVision.Grayscale.ControlWords
import PiVision.Lib.Block
import PiVision.Pipeline.Client
import PiVision.Pipeline.AlgoCtrl
import PiVision.Pipeline.Scheduler
import PiVision.Pipeline.HandOff
import PiVision.Camera.Stream
import PiVision.Camera.Reassembly
import PiVision.Pipeline.Normalizer
import PiVision.Pipeline.InputStability
import PiVision.ImageData.DataTL
import PiVision.ImageData.PythonClient
import PiVision.ImageData.Lockstep
import PiVision.ImageData.AckRecognition
import PiVision.Server.Transfer
import PiVision.ImageData.Sessions
import PiVision.Lib.History
import PiVision.Service.Handler
import PiVision.Service.History
import PiVision.Service.Registry
import PiVision.Service.Subscribers
import PiVision.Service.Terminal
import PiVision.Service.Confirmations
import PiVision.Service.Announcements
import PiVision.EthTerm.Heartbeat
import PiVision.EthTerm.SameProcess
import PiVision.EthTerm.ProcessIds
import PiVision.Camera.Recovery
import PiVision.Clients.JavaClient
import PiVision.Clients.Alignment
import PiVision.Clients.ControlFrames
import PiVision.Clients.AckFormats
import PiVision.Clients.StopAndWait
import PiVision.Service.Lookup
import PiVision.Pipeline.Results
import PiVision.Discovery.Requests
import PiVision.Server.Context
import PiVision.Discovery.Replies
import PiVision.Pipeline.ImageDiff
import PiVision.Pipeline.Normalization
import PiVision.Pipeline.Contrast
import PiVision.Pipeline.Outcomes
import PiVision.Grayscale.Conversion
import PiVision.Server.Broadcast
import PiVision.Clients.ReadUnits
import PiVision.Clients.Numbering
import PiVision.Data.Appends
import PiVision.EthTerm.SendTermination
import PiVision.EthTerm.ReceiveTermination
import PiVision.Server.ClientGone
import PiVision.Clients.ClosedStream
import PiVision.Grayscale.JobLimit
import PiVision.Discovery.Terminators
import PiVision.Lib.IntText
import PiVision.Discovery.PythonServer
import PiVision.Lib.Pixmap
import PiVision.PpmCreator.Creation
import PiVision.Diag.Message
import PiVision.ThreadPool.Jobs
import PiVision.ThreadPool.Progress
import PiVision.ThreadPool.LostWakeup
import PiVision.Pipeline.PooledProcess
import PiVision.Pipeline.Stall
import PiVision.Pipeline.Liveness
import PiVision.Lib.LinkedList
import PiVision.Pipeline.Registration
import PiVision.Pipeline.Sequential
import PiVision.Pipeline.MainProcess
import PiVision.Service.Application
import PiVision.Service.Cascade
import PiVision.Service.Shutdown
import PiVision.Clients.DrawPanel
import PiVision.Clients.PythonGui
import PiVision.Clients.Tearing
import PiVision.Pipeline.CameraToWindow
