import Qunix.Elf.StackLayout
import Qunix.Fs.Ext4.Checksum
import Qunix.Fs.Ext4.CounterRuns
import Qunix.Fs.Ext4.Descriptor
import Qunix.Fs.Ext4.DirectoryEntries
import Qunix.Fs.Ext4.Durability
import Qunix.Fs.Ext4.ExtentLevels
import Qunix.Fs.Ext4.OpenTransaction
import Qunix.Fs.Ext4.OwnershipRuns
import Qunix.Fs.Fat32.ChainLoops
import Qunix.Fs.Fat32.FileWrite
import Qunix.Fs.Tmpfs.Atomicity
import Qunix.Fs.Tmpfs.TreeReach
import Qunix.Ipc.Channels
import Qunix.Ipc.MsgQueue
import Qunix.Ipc.PipeCounts
import Qunix.Ipc.Sem
import Qunix.Memory.Phys.FrameHistory
import Qunix.Memory.Vmm.Reprotection
import Qunix.Memory.Vmm.WriteHistory
import Qunix.Memory.Zswap.ZramSectors
import Qunix.Net.Udp
import Qunix.Process.DescriptorTable
import Qunix.Process.WaitRuns
import Qunix.Security.Narrowing
import Qunix.Security.PolicyLines
import Qunix.Signal.RoundTrip
import Qunix.Time.Calendar
import Qunix.Userland.Base64
import Qunix.Vfs.Getdents
import Qunix.Vfs.Mounts
import Qunix.Vfs.OpenFiles
