import CanBoot.Laws.Cando.Clock
import CanBoot.Laws.Cando.Crypto
import CanBoot.Laws.Cando.Http
import CanBoot.Laws.Cando.Mixer
import CanBoot.Laws.Cando.Mkfs
import CanBoot.Laws.Cando.NtfsBridge
import CanBoot.Laws.Cando.SockTable
import CanBoot.Laws.Cando.Sockets
import CanBoot.Laws.Cando.Url
import CanBoot.Laws.Cando.WavEncode
import CanBoot.Laws.Display.Line
import CanBoot.Laws.Fat32.Aliases
import CanBoot.Laws.Fat32.Failure
import CanBoot.Laws.Fat32.FreeChain
import CanBoot.Laws.Fat32.Geometry
import CanBoot.Laws.Fat32.Looping
import CanBoot.Laws.Fat32.Reach
import CanBoot.Laws.Fat32.RootApi
import CanBoot.Laws.Fat32.Runs
import CanBoot.Laws.Fat32.Usable
import CanBoot.Laws.Gui.Hit
import CanBoot.Laws.Input.Ps2
import CanBoot.Laws.Net.LwipBio
import CanBoot.Laws.Net.Netboot
import CanBoot.Laws.Net.Tftp
import CanBoot.Laws.Ntfs.Fixup
import CanBoot.Laws.Ntfs.Hostile
import CanBoot.Laws.Partition.Crc
import CanBoot.Laws.Partition.CreateMbr
import CanBoot.Laws.Partition.Hostile
import CanBoot.Laws.Partition.Refine
import CanBoot.Laws.Rt.AllocGuard
import CanBoot.Laws.Rt.Heap
import CanBoot.Laws.Rt.Preempt
import CanBoot.Laws.Rt.Syscalls
import CanBoot.Laws.Sched.OnceRuns
import CanBoot.Laws.Usb.Descriptors
import CanBoot.Laws.Usb.Ring
import CanBoot.Laws.Vfs
