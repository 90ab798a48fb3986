import DordOs.Lib.Loop
import DordOs.Lib.Run
import DordOs.Lib.BitWords
import DordOs.Lib.Ownership
import DordOs.Libk.Align
import DordOs.Pmman.Map
import DordOs.Pmman.Alloc
import DordOs.Pmman.Isolation
import DordOs.Pmman.Initialize
import DordOs.Pmman.Firmware
import DordOs.Pmman.Usable
import DordOs.Pmman.Sort
import DordOs.Pmman.Reserve
import DordOs.Pmman.Race
import DordOs.Pmman.FirstFit
import DordOs.Kernel.Cores
import DordOs.Kernel.Fills
import DordOs.Proc.Queues
import DordOs.Proc.Schedule
import DordOs.Proc.Settled
import DordOs.Proc.Runs
import DordOs.Proc.Lost
import DordOs.Proc.Outcome
import DordOs.Proc.Sleep
import DordOs.Proc.Machine
import DordOs.Proc.Lock
import DordOs.Drivers.Ide
import DordOs.Drivers.IdeRace
import DordOs.Drivers.IdeDevice
import DordOs.Libk.Memory
import DordOs.Drivers.Dfs
import DordOs.Lib.Trail
import DordOs.Drivers.IdeRead
import DordOs.Drivers.DfsDisk
import DordOs.WriteImg.Image
import DordOs.WriteImg.RoundTrip
import DordOs.Libk.Move
import DordOs.Libk.Ram
import DordOs.Libk.Render
import DordOs.Libk.Clipping
import DordOs.Libk.Visible
import DordOs.Libk.Blend
import DordOs.Wserver.Window
import DordOs.Wserver.Raise
import DordOs.Wserver.Drag
import DordOs.Drivers.Terminal
import DordOs.Drivers.TerminalColor
import DordOs.Lib.Numeral
import DordOs.Libk.Io
import DordOs.Libk.Printf
import DordOs.Libk.Ppm
import DordOs.Libk.PpmGrammar
import DordOs.Libk.PpmAccept
import DordOs.Libk.PrecompTab
import DordOs.Libk.Psf
import DordOs.Libk.PsfHeader
import DordOs.Libk.PsfRows
import DordOs.Libk.PsfBounds
import DordOs.Libk.Psf2
import DordOs.Wserver.Text
import DordOs.Lib.Memory
import DordOs.Lib.Elements
import DordOs.Stage2.Elf
import DordOs.Stage2.Search
import DordOs.Stage2.MemoryMap
import DordOs.Lib.Region
import DordOs.Drivers.Pci
import DordOs.Drivers.IdeDetect
import DordOs.Lib.X86
import DordOs.Proc.Switch
import DordOs.Proc.Context
import DordOs.Proc.Convention
import DordOs.Drivers.Keymap
import DordOs.Drivers.Keyboard
import DordOs.Drivers.Mouse
import DordOs.Drivers.Pit
import DordOs.Drivers.PciBounds
import DordOs.Libk.FormatUse
import DordOs.Lib.Walk
import DordOs.Drivers.Acpi
import DordOs.Drivers.AcpiRsdp
import DordOs.Drivers.AcpiMadt
import DordOs.Drivers.AcpiBounds
import DordOs.Drivers.AcpiDecode
import DordOs.Bootsector.Boot
import DordOs.Lib.Trap
import DordOs.Proc.Isr
import DordOs.Proc.Traps
import DordOs.Proc.Waiting
import DordOs.Lib.Layers
import DordOs.Wserver.Screen
import DordOs.Lib.Pic
import DordOs.Kernel.Interrupts
import DordOs.Drivers.Pic
import DordOs.Drivers.Apic
import DordOs.Lib.Search
import DordOs.Stage2.Scan
import DordOs.Stage2.Main
