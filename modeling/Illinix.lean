import Illinix.Base.Run
import Illinix.Base.Links
import Illinix.Base.Chain
import Illinix.Base.Word
import Illinix.Base.Blocks
import Illinix.Base.Segment
import Illinix.Base.Store
import Illinix.Base.Copy
import Illinix.Base.Overlay
import Illinix.Base.Split
import Illinix.Base.Iterate
import Illinix.Base.Stack
import Illinix.Base.Critical
import Illinix.Lib.CString
import Illinix.Lib.Memcpy
import Illinix.Lib.Memory
import Illinix.Lib.Itoa
import Illinix.Lib.Printf
import Illinix.Paging.Tables
import Illinix.Paging.Isolation
import Illinix.FileSys.Image
import Illinix.FileSys.Data
import Illinix.FileSys.Lookup
import Illinix.Files.Descriptor
import Illinix.Files.Allocator
import Illinix.Files.Stream
import Illinix.Files.ReadBound
import Illinix.Files.Listing
import Illinix.Process.Kernel
import Illinix.Process.Exec
import Illinix.Process.Args
import Illinix.Process.Step
import Illinix.Process.Atomic
import Illinix.Process.Validity
import Illinix.Process.Load
import Illinix.Process.Effect
import Illinix.Process.Designation
import Illinix.Process.VideoAccess
import Illinix.Process.Descriptors
import Illinix.Process.Vidmap
import Illinix.Process.GetArgs
import Illinix.Process.Context
import Illinix.Process.Terminals
import Illinix.Process.Forest
import Illinix.Process.FailedSwitch
import Illinix.Process.Pending
import Illinix.Process.Scheduler
import Illinix.Process.Suspended
import Illinix.Screen.Text
import Illinix.Screen.Switch
import Illinix.Screen.Cursor
import Illinix.Screen.Access
import Illinix.Screen.Backspace
import Illinix.Screen.Page
import Illinix.Terminal.Driver
import Illinix.Terminal.Buffer
import Illinix.Terminal.Lines
import Illinix.Terminal.Interrupted
import Illinix.Terminal.Keyboard
import Illinix.Device.I8259
import Illinix.Device.Idt
import Illinix.Device.Service
import Illinix.Device.Sections
import Illinix.Device.Rtc
import Illinix.Device.RtcRead
import Illinix.Fish.Blink
import Illinix.Fish.BlinkList
import Illinix.Fish.BlinkShow
import Illinix.Fish.Frames
import Illinix.Fish.Animation
import Illinix.Fish.Period
import Illinix.Syscalls.Grep
import Illinix.Syscalls.GrepLines
import Illinix.Syscalls.World
import Illinix.Syscalls.Cat
import Illinix.Syscalls.Console
import Illinix.Syscalls.Shell
import Illinix.Syscalls.Counter
import Illinix.Syscalls.Linkage
