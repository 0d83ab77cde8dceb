import Fsock.Lib.Run
import Fsock.Lib.SlotTable
import Fsock.Lib.Segment
import Fsock.Lib.LockOrder
import Fsock.Lib.StreamCodec
import Fsock.Utils.AnetConnect
import Fsock.Utils.AnetServer
import Fsock.Utils.Parr
import Fsock.Utils.ParrTable
import Fsock.Utils.ParrSpec
import Fsock.Utils.ParrRefine
import Fsock.Utils.ParrIter
import Fsock.Utils.ParrBounds
import Fsock.Utils.ParrFill
import Fsock.Utils.ParrSlots
import Fsock.Utils.ParrSweep
import Fsock.Utils.Queue
import Fsock.Core.OutList
import Fsock.Core.ListFramer
import Fsock.Core.Writer
import Fsock.Core.WriterOrder
import Fsock.Core.SendOrder
import Fsock.Core.SendIdle
import Fsock.Core.Send
import Fsock.Core.SendStep
import Fsock.Core.SendCount
import Fsock.Core.SendWake
import Fsock.Core.Recv
import Fsock.Core.RecvCount
import Fsock.Core.RecvWait
import Fsock.Core.Mailbox
import Fsock.Core.Sendc
import Fsock.Core.Address
import Fsock.Core.Global
import Fsock.Core.GlobalLife
import Fsock.Core.SendBound
import Fsock.Core.Flow
import Fsock.Core.FlowFlags
import Fsock.Core.RecvSleep
import Fsock.Utils.QueueFamily
import Fsock.Utils.Thread
import Fsock.Utils.ThreadJobs
import Fsock.Core.Switch
import Fsock.Core.Workers
import Fsock.Core.WorkersStep
import Fsock.Core.WorkersSound
import Fsock.Core.JobQueue
import Fsock.Core.WorkersStaged
import Fsock.Core.WorkersRouted
import Fsock.Core.ReadSwitch
import Fsock.Core.ReadConverge
import Fsock.Core.ReadPause
import Fsock.Core.Zombie
import Fsock.Core.Publication
import Fsock.Core.FatalError
import Fsock.Core.Attached
import Fsock.Core.CloseQuiet
import Fsock.Core.TreeTeardown
import Fsock.Core.Races
import Fsock.Core.RecvEfd
import Fsock.Core.ChannelDrain
import Fsock.Core.SendDrain
import Fsock.Core.ReadDrain
import Fsock.Core.Hub
import Fsock.Core.Opening
import Fsock.Core.SendReport
import Fsock.Core.Broadcast
import Fsock.Core.SendAgree
import Fsock.Core.FramerWalk
import Fsock.Core.WouldBlock
import Fsock.Core.Attach
import Fsock.Core.AttachWhole
