import SunshineService.Foundation.TransitionRun
import SunshineService.Foundation.Utf8
import SunshineService.Foundation.ByteBuffer
import SunshineService.Foundation.Framing
import SunshineService.Foundation.XorFold
import SunshineService.Foundation.ThreadPoolExecutor
import SunshineService.Algorithm.UnpairedNumbers
import SunshineService.Utils.ProcessUtils
import SunshineService.Utils.CloseUtils
import SunshineService.Nio.ServerHandler
import SunshineService.Nio.ClientHandler
import SunshineService.Nio.TimeProtocol
import SunshineService.Aio.Operation
import SunshineService.Aio.ClientHandler
import SunshineService.Aio.ServerHandler
import SunshineService.Aio.TimeProtocol
import SunshineService.Servers.TimeService
import SunshineService.Bio.BioAnsyTimeServer
import SunshineService.Netty.LineDecoder
import SunshineService.Netty.StickylossOK
import SunshineService.Netty.DelimiterDecoder
import SunshineService.Netty.Delimiter
import SunshineService.Bio.BIOHandler
import SunshineService.Bio.TimeServer
import SunshineService.Foundation.Pieces
import SunshineService.Netty.Stickyloss
import SunshineService.Netty.TimeProtocol
import SunshineService.Netty.FixedLength
import SunshineService.Foundation.Interleaving
import SunshineService.Aio.Server
import SunshineService.Bio.TimeProtocol
import SunshineService.Foundation.Monitor
import SunshineService.Foundation.CriticalSection
import SunshineService.Foundation.ThreadProgress
import SunshineService.Foundation.ThreadRuns
import SunshineService.Javathread.SleepTest
import SunshineService.Javathread.JoinTest
import SunshineService.Javathread.WaitNotifyTest
import SunshineService.Foundation.StreamMachine
import SunshineService.Nginx.ChunkedParser
import SunshineService.Nginx.ChunkedFilter
import SunshineService.Nginx.ChunkedFormat
import SunshineService.Nginx.NonBuffered
import SunshineService.Nginx.ChunkedBody
import SunshineService.Nginx.ChunkedLength
import SunshineService.Nginx.EventPipe
import SunshineService.Foundation.ShiftRegister
import SunshineService.Nginx.Crc32
