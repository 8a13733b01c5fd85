import Advos.Schemes.Tiling
import Advos.Schemes.Dyadic
import Advos.Schemes.Word
import Advos.Schemes.Linked
import Advos.Schemes.Run
import Advos.Schemes.SearchTree
import Advos.Schemes.Slot
import Advos.Physmem.Buddy
import Advos.Physmem.Lists
import Advos.Physmem.Coalesce
import Advos.Physmem.Region
import Advos.Physmem.Blocks
import Advos.Physmem.Runs
import Advos.Sched.Kernel
import Advos.Sched.Queue
import Advos.Sched.Timer
import Advos.Sched.Exit
import Advos.Sched.Fpu
import Advos.Slab.Allocator
import Advos.Slab.Lists
import Advos.Slab.Runs
import Advos.Slab.Owned
import Advos.Slab.Create
import Advos.Slab.Kmalloc
import Advos.Pgt.Table
import Advos.Pgt.Entry
import Advos.Pgt.Tree
import Advos.Pgt.Moves
import Advos.Pgt.Runs
import Advos.Pgt.Large
import Advos.Pgt.Pages
import Advos.Pgt.Overlay
import Advos.Pgt.Shared
import Advos.Vmem.Btree
import Advos.Vmem.Block
import Advos.Vmem.BlockOps
import Advos.Vmem.Order
import Advos.Vmem.Machine
import Advos.Vmem.Alloc
import Advos.Vmem.Parts
import Advos.Schemes.Arc
import Advos.Schemes.Owned
import Advos.Vmem.Laws
import Advos.Vmem.Carve
import Advos.Vmem.Ranges
import Advos.Vmem.Release
import Advos.Vmem.Space
import Advos.Vmem.Intact
import Advos.Vmem.Calls
import Advos.Vmem.Spans
import Advos.Vmem.Blocks
import Advos.Vmem.Refused
import Advos.Vmem.Steps
import Advos.Vmem.Effects
import Advos.Vmem.Maps
import Advos.Schemes.Shares
import Advos.Vmem.Ledger
import Advos.Physmem.Zones
import Advos.Physmem.Complete
import Advos.Schemes.Layers
import Advos.Pgt.Arch
import Advos.Pgt.Orders
import Advos.Pgt.V2p
import Advos.Pgt.Prepared
import Advos.Vmem.PageLists
import Advos.Vmem.Paged
import Advos.Vmem.Wire
import Advos.Vmem.Linear
import Advos.Vmem.Tally
import Advos.Vmem.Leaks
import Advos.Vmem.Restored
import Advos.Vmem.Atomic
import Advos.Vmem.Geometry
import Advos.Vmem.Coalesced
import Advos.Schemes.Visit
import Advos.Vmem.Fork
import Advos.Vmem.Surgery
import Advos.Vmem.Teardown
import Advos.Vmem.Released
import Advos.Schemes.Ring
import Advos.Devfs.Fifo
import Advos.Devfs.Table
import Advos.Devfs.Residue
import Advos.Devfs.Driver
import Advos.Devfs.Fresh
import Advos.Devfs.Stream
import Advos.Slab.Directory
import Advos.Slab.Layout
import Advos.Sched.Idle
import Advos.Schemes.Numeral
import Advos.Strfmt.Format
import Advos.Strfmt.Text
import Advos.Strfmt.Numbers
import Advos.Strfmt.Kprintf
import Advos.Schemes.Bytes
import Advos.Initramfs.Files
import Advos.Initramfs.Archive
import Advos.Syscall.Tables
import Advos.Asm.Copy
import Advos.Vfs.Mount
import Advos.Schemes.Orbit
import Advos.Acpi.Tables
import Advos.Acpi.Srat
import Advos.Acpi.Timer
import Advos.Schemes.Zipper
import Advos.Tty.Console
import Advos.Tty.Editor
import Advos.Tty.Screen
import Advos.Schemes.Trace
import Advos.Schemes.Span
import Advos.Vconsole.Write
import Advos.Physmem.Numa
import Advos.Physmem.NumaInit
import Advos.Physmem.Usable
import Advos.Schemes.Fields
import Advos.Desc.Encoding
import Advos.Boot.Chs
import Advos.Boot.MemoryMap
import Advos.Slab.Objects
import Advos.Vmem.NewSpace
