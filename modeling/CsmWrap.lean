import CsmWrap.E820.Build
import CsmWrap.E820.Shift
import CsmWrap.Coreboot.Table
import CsmWrap.Vga.Vbe
import CsmWrap.Vga.RealMode
import CsmWrap.Vga.TextServices
import CsmWrap.Vga.TextCursor
import CsmWrap.Vga.TextBounds
import CsmWrap.Vga.Scrolling
import CsmWrap.Vga.Packing
import CsmWrap.Vga.MirrorBounds
import CsmWrap.Video.RomWalk
import CsmWrap.Video.Init
import CsmWrap.Boot.BiosRegion
import CsmWrap.Boot.Csm
import CsmWrap.Boot.ExitBoot
import CsmWrap.Boot.Smbios
import CsmWrap.Boot.Clock
import CsmWrap.Malloc.BootMap
