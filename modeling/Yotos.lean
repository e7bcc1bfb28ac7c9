import Yotos.Pmm.FirstFit
import Yotos.Pmm.Regions
import Yotos.Pmm.Accuracy
import Yotos.Kheap.Coalesce
import Yotos.Process.Kill
import Yotos.Process.Return
import Yotos.Vmm.AllocPage
import Yotos.Vmm.Refinement
import Yotos.Vmm.Directory
import Yotos.Fat16.Alloc
import Yotos.Fat16.Read
import Yotos.Fat16.Session
import Yotos.Fat16.Names
import Yotos.Fat16.Consistency
import Yotos.Fat16.Termination
import Yotos.Fat16.Hierarchy
import Yotos.Fat16.Copies
import Yotos.Loader.Load
import Yotos.Loader.Free
import Yotos.Loader.Leak
import Yotos.Terminal.Sheet
import Yotos.Process.Ring
import Yotos.Process.Syscall
import Yotos.Kheap.Holding
import Yotos.Fat16.Walk
import Yotos.Vfs.Path
import Yotos.Fat16.Listing
import Yotos.Fat16.Stream
import Yotos.Fat16.Handles
import Yotos.Fat16.Ends
import Yotos.Vfs.Open
import Yotos.Shell.Basic
import Yotos.Shell.Text
import Yotos.Shell.Cd
import Yotos.Shell.Up
import Yotos.Shell.Split
import Yotos.Fat16.Making
import Yotos.Shell.Commands
import Yotos.Shell.Whole
import Yotos.Fat16.Overwrite
import Yotos.Shell.Echo
import Yotos.Fat16.FreeChain
import Yotos.Fat16.ShortName
import Yotos.Irq.Basic
import Yotos.Irq.Masks
import Yotos.Library.Numeral
import Yotos.Library.Shift
import Yotos.Snake.Basic
import Yotos.Snake.Body
import Yotos.Snake.Growth
import Yotos.Snake.Reversal
import Yotos.Snake.Screen
import Yotos.Stdio.Basic
import Yotos.Stdio.Numbers
import Yotos.Timer.Basic
import Yotos.Timer.Sleep
import Yotos.Vmm.Identity
import Yotos.Ata.Basic
import Yotos.Ata.Run
import Yotos.Cpu.Gdt
import Yotos.Cpu.Idt
import Yotos.Cpu.Interrupt
import Yotos.Cpu.Tss
import Yotos.Cpu.UserMode
import Yotos.Fat16.Entries
import Yotos.Fat16.FileSystem
import Yotos.Fat16.Losses
import Yotos.Fat16.LossyCalls
import Yotos.Library.CString
import Yotos.Library.LineEditor
import Yotos.Shell.Console
import Yotos.Shell.Screen
import Yotos.Shell.Ls
