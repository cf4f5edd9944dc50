import TamuProofs.Echo.Dialogue
import TamuProofs.IrDemod.Interrupt
import TamuProofs.IrDemod.Polling
import TamuProofs.IrDemod.Pulses
import TamuProofs.IrDemod.Receiver
import TamuProofs.IrDriver.Calls
import TamuProofs.IrDriver.DataPath
import TamuProofs.IrDriver.QueueRuns
import TamuProofs.IrDriver.Reads
import TamuProofs.Jackpot.Board
import TamuProofs.Lib.Polyline
import TamuProofs.Multiplier.Driver
import TamuProofs.Ppm.Control
import TamuProofs.Ppm.Cubic
import TamuProofs.Ppm.Curves
import TamuProofs.Ppm.Dims
import TamuProofs.Ppm.Mirror
import TamuProofs.Ppm.Warp
import TamuProofs.Proxy.Browse
import TamuProofs.Proxy.Delivery
import TamuProofs.Proxy.Descriptors
import TamuProofs.Proxy.Recency
import TamuProofs.Proxy.Revalidation
import TamuProofs.Sbcp.Capacity
import TamuProofs.Sbcp.Room
import TamuProofs.Tftp.Answers
import TamuProofs.Tftp.Leftovers
import TamuProofs.Tftp.Old
import TamuProofs.Tftp.Stream
