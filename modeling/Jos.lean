import Jos.Prog.Loop
import Jos.Prog.Machine
import Jos.Prog.Memory
import Jos.Prog.StringOps
import Jos.Prog.Bytes
import Jos.Prog.Ring
import Jos.Prog.Overlay
import Jos.Prog.Bisection
import Jos.Prog.Halving
import Jos.Prog.Words
import Jos.Prog.Paging
import Jos.Prog.LinkedList
import Jos.Prog.CString
import Jos.Prog.Merge
import Jos.Prog.BitFields
import Jos.Inc.Types
import Jos.Inc.Mmu
import Jos.Inc.Segments
import Jos.Lib.String
import Jos.Lib.Portable
import Jos.Lib.Strings
import Jos.Lib.Compare
import Jos.Lib.Printfmt
import Jos.Lib.Emission
import Jos.Lib.Format
import Jos.Lib.Numbers
import Jos.Lib.Scanning
import Jos.Lib.Fields
import Jos.Lib.Text
import Jos.Lib.RoundTrip
import Jos.Lib.EndPointer
import Jos.Lib.Justify
import Jos.Lib.Snprintf
import Jos.Lib.StringField
import Jos.Lib.Digits
import Jos.Lib.ErrorCodes
import Jos.Lib.Precision
import Jos.Kern.Console
import Jos.Kern.Terminal
import Jos.Kern.Screen
import Jos.Kern.Streams
import Jos.Kern.Printf
import Jos.Kern.Glyphs
import Jos.Kern.Keyboard
import Jos.Kern.Input
import Jos.Kern.ShiftWord
import Jos.Kern.Modifiers
import Jos.Kern.ScanCodes
import Jos.Kern.Overflow
import Jos.Kern.Mouse
import Jos.Kern.Pmap
import Jos.Kern.PageTable
import Jos.Kern.SelfMap
import Jos.Kern.FreeList
import Jos.Kern.Kdebug
import Jos.Kern.StabSearch
import Jos.Kern.ReadRange
import Jos.Kern.Eip
import Jos.Kern.Landing
import Jos.Kern.LineLookup
import Jos.Kern.ArgCount
import Jos.Kern.Monitor
import Jos.Boot.Main
import Jos.Boot.ReadSeg
import Jos.Boot.Layout
import Jos.Lib.Readline
import Jos.Lib.LineEdit
import Jos.Lib.Echo
import Jos.Lib.Copies
import Jos.Kern.Init
import Jos.Kern.Typing
import Jos.Kern.Merge
import Jos.Kern.Reboot
import Jos.Kern.Symbols
import Jos.Kern.EntryPgdir
