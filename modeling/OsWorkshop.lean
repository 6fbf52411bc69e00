import OsWorkshop.Memory
import OsWorkshop.Sv32
import OsWorkshop.Vmm
import OsWorkshop.PageTables
import OsWorkshop.MapCalls
import OsWorkshop.MapSpec
import OsWorkshop.PageOwnership
import OsWorkshop.MapRefinement
import OsWorkshop.KernelMap
import OsWorkshop.MapStatus
import OsWorkshop.FrameIsolation
import OsWorkshop.UserImage
import OsWorkshop.HandOver
import OsWorkshop.Rv32
import OsWorkshop.TrapEntry
import OsWorkshop.Octets
import OsWorkshop.InternetChecksum
import OsWorkshop.Ipv6
import OsWorkshop.Ipv6Tx
import OsWorkshop.Ipv6Rx
import OsWorkshop.Ipv6Frames
import OsWorkshop.Ipv6Laws
import OsWorkshop.ChecksumLaws
import OsWorkshop.Netboot
import OsWorkshop.NetbootSafety
import OsWorkshop.PacketLengths
import OsWorkshop.NetbootAnswers
import OsWorkshop.Gfx
import OsWorkshop.TextCursor
import OsWorkshop.Fill
import OsWorkshop.Terminal
import OsWorkshop.HostTool
import OsWorkshop.TargetMessages
import OsWorkshop.AddressFilter
import OsWorkshop.TargetProtocol
import OsWorkshop.ReplyStorms
import OsWorkshop.StopAndWait
import OsWorkshop.NetbootLink
import OsWorkshop.LinkedRing
import OsWorkshop.RunQueue
import OsWorkshop.Monitor
import OsWorkshop.LinkedText
import OsWorkshop.MonitorEntry
import OsWorkshop.ConsoleLine
import OsWorkshop.LineDiscipline
import OsWorkshop.MemoryRanges
import OsWorkshop.DeviceTree
import OsWorkshop.TransmitSlots
import OsWorkshop.OpenNode
import OsWorkshop.ImageTransfer
import OsWorkshop.RegisterLeaks
import OsWorkshop.TrapRuns
import OsWorkshop.ExceptionFrames
import OsWorkshop.OwnRegisters
import OsWorkshop.UserStores
import OsWorkshop.Turns
import OsWorkshop.PrintfOutput
import OsWorkshop.PrintfMeaning
import OsWorkshop.MemoryMovers
import OsWorkshop.SerialLine
import OsWorkshop.ThreadPictures
import OsWorkshop.DumpText
import OsWorkshop.MmuDump
import OsWorkshop.Strings
import OsWorkshop.StringTokens
import OsWorkshop.Multipass
import OsWorkshop.UserRuns
