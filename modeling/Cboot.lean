import Cboot.Mem
import Cboot.Compare
import Cboot.Paging.Field
import Cboot.Paging.Refinement
import Cboot.Paging.Frame
import Cboot.Paging.Print
import Cboot.Paging.Listing
import Cboot.Paging.Order
import Cboot.Paging.SelfTest
import Cboot.Kernel.Faithful
import Cboot.Bios.FreeRange
import Cboot.Bios.Report
import Cboot.Disk.Handshake
import Cboot.Disk.Transfer
import Cboot.Disk.Slots
import Cboot.Disk.Names
import Cboot.Archive.Fields
import Cboot.Archive.Termination
import Cboot.Archive.Agreement
import Cboot.Archive.Load
import Cboot.Archive.Listing
import Cboot.Console.Terminal
import Cboot.Console.Print
import Cboot.Console.Serial
import Cboot.Md5.Run
import Cboot.Interrupts.Report
import Cboot.Boot
import Cboot.Handover
import Cboot.Outcome
import Cboot.PowerOn
