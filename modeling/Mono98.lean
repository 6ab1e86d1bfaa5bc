import Mono98.Font
import Mono98.Graphics
import Mono98.Tty
import Mono98.TextGrid
import Mono98.TtyRows
import Mono98.TtyRun
import Mono98.TextPage
import Mono98.PageWindow
import Mono98.ListSafety
import Mono98.CursorBound
import Mono98.Lib.Ring
import Mono98.PageOrder
import Mono98.Keyboard
import Mono98.KeyboardRing
import Mono98.KeyboardLine
import Mono98.KeyboardOverflow
import Mono98.LineEcho
import Mono98.LineBuffer
import Mono98.Lib.Progress
import Mono98.LineInput
import Mono98.Lib.Acts
import Mono98.KeyboardPolling
import Mono98.Modifiers
import Mono98.Strings
import Mono98.StringScans
import Mono98.Lib.Decimal
import Mono98.Lib.Footprint
import Mono98.Itoa
import Mono98.Process
import Mono98.TextRead
import Mono98.Heap
import Mono98.Romdisk
import Mono98.Packer
import Mono98.RomdiskLookup
import Mono98.PackerLimits
import Mono98.Basename
import Mono98.Tokens
import Mono98.SplitScan
import Mono98.Quoting
import Mono98.Command
import Mono98.CommandRun
import Mono98.LoadCheck
import Mono98.Listing
import Mono98.TputsLoop
import Mono98.Syscall
import Mono98.Lib.Sum
import Mono98.SyscallReads
import Mono98.Lib.Period
import Mono98.Stdlib
import Mono98.Sandbox
import Mono98.Picture
import Mono98.Repaint
import Mono98.Lib.Newton
import Mono98.Math
import Mono98.Roots
import Mono98.Angles
import Mono98.Lib.Argmin
import Mono98.Imgconvert
import Mono98.Bootloader
import Mono98.Lib.Simulation
import Mono98.ScreenPage
import Mono98.Shell
import Mono98.Console
import Mono98.ShellAnswer
import Mono98.ShellRefines
import Mono98.ShellRun
import Mono98.ShellInput
import Mono98.ShellPrograms
import Mono98.ShellProgress
import Mono98.Libc
import Mono98.ShellArguments
import Mono98.Lib.Pic
import Mono98.Interrupts
import Mono98.Boot
import Mono98.Lib.Words
import Mono98.Reach
import Mono98.TtyMemory
import Mono98.Lib.X86
import Mono98.ProgramCode
import Mono98.Lib.Pit
import Mono98.Audio
import Mono98.ShellScreen
import Mono98.Wallpaper
import Mono98.PackerRead
