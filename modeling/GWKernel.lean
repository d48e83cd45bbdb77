import GWKernel.Proofs.KernelImage
import GWKernel.Proofs.UserWindow
import GWKernel.Proofs.DrivePaths
import GWKernel.Proofs.OpenFile
import GWKernel.Proofs.PkgFetch
import GWKernel.Proofs.MountEffect
import GWKernel.Proofs.PmmStatistics
import GWKernel.Proofs.RamfsEntries
import GWKernel.Proofs.NetRoundTrip
import GWKernel.Proofs.TcpAcks
import GWKernel.Proofs.KeyboardRing
import GWKernel.Proofs.ReceivePoll
import GWKernel.Proofs.ExecImage
import GWKernel.Proofs.DoubleFree
import GWKernel.Proofs.HeapResults
import GWKernel.Proofs.HeapCoalescing
import GWKernel.Proofs.FatCopies
import GWKernel.Proofs.FatUnlink
import GWKernel.Proofs.FatNames
import GWKernel.Proofs.FatCwdPath
import GWKernel.Proofs.AtaAddress
import GWKernel.Proofs.AhciCommand
import GWKernel.Proofs.KernelLoad
import GWKernel.Proofs.HttpGet
import GWKernel.Proofs.ThreadSlots
import GWKernel.Proofs.FatReading
import GWKernel.Proofs.NvmeDisk
import GWKernel.Proofs.TablePages
import GWKernel.Proofs.TcpSend
