import AcqBoard.Schemes.Run
import AcqBoard.Schemes.Interleave
import AcqBoard.Schemes.Ledger
import AcqBoard.Schemes.Text
import AcqBoard.Schemes.CString
import AcqBoard.Schemes.Scanf
import AcqBoard.Schemes.Calendar
import AcqBoard.Schemes.Trace
import AcqBoard.Schemes.Word
import AcqBoard.Schemes.Frames
import AcqBoard.Schemes.FileTree
import AcqBoard.Schemes.Codec
import AcqBoard.App.Csr
import AcqBoard.App.Lfsr
import AcqBoard.App.Bits
import AcqBoard.App.State
import AcqBoard.App.Configuration
import AcqBoard.App.Handlers
import AcqBoard.App.Delivery
import AcqBoard.App.Socket
import AcqBoard.App.Fifo
import AcqBoard.App.Acquisition
import AcqBoard.App.SdFiles
import AcqBoard.App.Interleave
import AcqBoard.App.Stopped
import AcqBoard.App.DataIrq
import AcqBoard.App.Command
import AcqBoard.App.Directories
import AcqBoard.Gps.State
import AcqBoard.Gps.Frame
import AcqBoard.Gps.Reassembly
import AcqBoard.Gps.Fields
import AcqBoard.Gps.Checksum
import AcqBoard.Gps.Complete
import AcqBoard.Gps.Clock
import AcqBoard.Gps.Covered
import AcqBoard.App.Labels
import AcqBoard.App.Limits
import AcqBoard.App.Period
import AcqBoard.Driver.Device
import AcqBoard.Driver.XfifoDma
import AcqBoard.Driver.Transfer
import AcqBoard.App.Code
import AcqBoard.Gps.Twins
import AcqBoard.Gps.Position
import AcqBoard.Gps.Fixes
import AcqBoard.Gps.Records
import AcqBoard.Ini.Scanner
import AcqBoard.Ini.Document
import AcqBoard.Ini.Exact
import AcqBoard.Ini.Entry
import AcqBoard.Ini.Storage
import AcqBoard.Ini.RoundTrip
import AcqBoard.Gps.Thread
import AcqBoard.Ini.Meaning
import AcqBoard.Ini.Overwrite
import AcqBoard.Ini.Framed
import AcqBoard.Ini.Cuts
import AcqBoard.Schemes.Partial
import AcqBoard.Ini.Reads
import AcqBoard.Ini.Bounds
import AcqBoard.Ini.Selected
import AcqBoard.Ini.Pieces
import AcqBoard.Ini.Numbers
import AcqBoard.App.Settings
import AcqBoard.App.ConfigurationFile
import AcqBoard.App.Registers
import AcqBoard.App.DataFile
import AcqBoard.App.FixMessages
import AcqBoard.Schemes.MaximalSequence
import AcqBoard.App.CodeSequence
import AcqBoard.Driver.Files
import AcqBoard.Driver.Binding
import AcqBoard.Schemes.Counting
import AcqBoard.App.UdpDelivery
import AcqBoard.Driver.Traffic
import AcqBoard.App.Atomic
import AcqBoard.App.Statements
import AcqBoard.Schemes.Reduction
import AcqBoard.Gps.Discipline
import AcqBoard.Schemes.Account
