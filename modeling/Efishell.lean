import Efishell.Fs.PartitionSound
import Efishell.Memory.HeapPlacement
import Efishell.Arch.SpaceRun
import Efishell.Kernel.RiefSound
import Efishell.Kernel.SchedRun
import Efishell.Net.TcpStream
import Efishell.Net.SocketRun
import Efishell.Net.Endpoints
import Efishell.Kernel.SchedSafe
import Efishell.Kernel.SchedLife
import Efishell.Kernel.SchedFair
import Efishell.Kernel.Lease
import Efishell.Kernel.SchedRoster
import Efishell.Kernel.LeaseScan
import Efishell.Kernel.LeaseSafe
import Efishell.Memory.HeapFree
import Efishell.Fs.Path
import Efishell.Arch.CopyExact
import Efishell.Fs.PathSound
import Efishell.Arch.PageSplit
import Efishell.Fs.Fat
import Efishell.Fs.FatChain
import Efishell.Kernel.Sync
import Efishell.Kernel.Ipc
import Efishell.Kernel.IpcSafe
import Efishell.Fs.FileMap
import Efishell.Fs.Ram
import Efishell.Fs.RamTree
import Efishell.Fs.RamSound
import Efishell.Fs.RamCalls
import Efishell.Fs.RamRun
import Efishell.Fs.Native
import Efishell.Fs.Extents
import Efishell.Fs.NtfsRuns
import Efishell.Fs.NtfsAlloc
import Efishell.Kernel.ServiceSafe
import Efishell.Fs.UpdateSequence
import Efishell.Tools.RiefGen
import Efishell.Tools.RiefRun
import Efishell.Storage.Flat
import Efishell.Fs.NativeIo
import Efishell.Fs.NtTx
import Efishell.Fs.FlatVolume
import Efishell.Fs.ExtAdd
import Efishell.Fs.ExtLookup
import Efishell.Net.AddressText
import Efishell.Net.AddressCodec
import Efishell.Os.DnsName
import Efishell.Os.DnsCodec
import Efishell.Support.OnesComplement
import Efishell.Net.Packets
import Efishell.Net.Checksums
import Efishell.Net.Reassembly
import Efishell.Net.ReassemblySound
import Efishell.Net.ReassemblyWhole
import Efishell.Os.Hid
import Efishell.Os.HidLayout
import Efishell.Os.HidReport
import Efishell.Os.Http
import Efishell.Os.HttpSplit
import Efishell.Os.HttpBody
import Efishell.Os.HttpFraming
import Efishell.Kernel.RiefPlain
import Efishell.Tools.RiefBody
