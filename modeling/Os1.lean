import Os1.Boot.KernelImage
import Os1.Console.LineEditor
import Os1.Console.Terminal
import Os1.Debug.EventRing
import Os1.Display.Incremental
import Os1.Fs.CpioPaths
import Os1.Fs.CpioSafety
import Os1.Irq.VectorLedger
import Os1.Mm.AccessRights
import Os1.Mm.PageFrameBoot
import Os1.Mm.PageFrameReserve
import Os1.Mm.SharedKernel
import Os1.Mm.UserString
import Os1.Platform.Madt
import Os1.Proc.LoadSecret
import Os1.Proc.WaitLedger
import Os1.Proc.Wakeup
import Os1.Sched.ClockSkew
import Os1.Sched.LeastLoaded
import Os1.Sched.Stacks
import Os1.Storage.BlockDevice
import Os1.Sync.Completion
import Os1.Sync.Locks
import Os1.Sync.Spinlock
import Os1.Sync.WaitQueue
import Os1.Syscall.ConsoleWake
import Os1.Syscall.Exec
import Os1.Syscall.ObserveCount
import Os1.Usb.CommandRing
import Os1.Usb.EventRing
import Os1.Usb.HidConfiguration
import Os1.Usb.HidKeyboard
import Os1.Usb.Ports
import Os1.Virtio.BlkExact
import Os1.Virtio.PciTransport
import Os1.Virtio.QueueRuns
