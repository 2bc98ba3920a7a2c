import CsmWrap.Arena
import Mathlib.Data.UInt

/-!
# The memory zones of SeaBIOS

`malloc.c` keeps the memory it may hand out in five zones. A zone is a list of
`allocinfo_s` nodes, from high addresses to low: a node owns the addresses from
`range_start` to `range_end`, and those from `range_start + alloc_size` on are free.
Each allocation has an `allocdetail_s`, which holds its node, the node of its own
memory, and a handle, and is itself allocated in a temporary zone.

The lists are modelled as lists and the nodes as values, each with the place it is
stored at. The zone of low memory does not grow: `CONFIG_MALLOC_UPPERMEMORY` is set.
-/

namespace CsmWrap.Malloc

inductive Zone
  | tmpLow
  | low
  | fSeg
  | tmpHigh
  | high
  deriving DecidableEq, Repr

/-- `Zones` -/
def zones : List Zone := [.tmpLow, .low, .fSeg, .tmpHigh, .high]

theorem mem_zones (z : Zone) : z ∈ zones := by
  cases z <;> decide

/-- The two nodes of an `allocdetail_s`. -/
inductive Part
  | detailinfo
  | datainfo
  deriving DecidableEq, Repr

/-- Where a node is stored: in the `tempdetail` of the running function, or in the
`allocdetail_s` at an address. -/
inductive Place
  | temp (part : Part)
  | detail (addr : UInt32) (part : Part)
  deriving DecidableEq, Repr

/-- `struct allocinfo_s` -/
structure AllocInfo where
  place : Place
  rangeStart : UInt32
  rangeEnd : UInt32
  allocSize : UInt32
  deriving DecidableEq, Repr

/-- `sizeof(struct allocinfo_s)`, which is also the offset of `datainfo`. -/
def sizeofAllocinfo : UInt32 := 20

/-- `sizeof(struct allocdetail_s)` -/
def sizeofAllocdetail : UInt32 := 44

def mallocMinAlign : UInt32 := 16
def mallocDefaultHandle : UInt32 := 0xffffffff

/-- `virt_to_phys(info)` -/
def Place.phys : Place → Option UInt32
  | .temp _ => none
  | .detail addr .detailinfo => some addr
  | .detail addr .datainfo => some (addr + sizeofAllocinfo)

/-- `ALIGN_DOWN` -/
def alignDown (x a : UInt32) : UInt32 := x &&& ~~~(a - 1)

/-- `ALIGN` -/
def align (x a : UInt32) : UInt32 := (x + (a - 1)) &&& ~~~(a - 1)

/-- The zones, and the `handle` field of the `allocdetail_s` at an address. -/
structure Heap where
  zone : Zone → List AllocInfo
  handle : UInt32 → UInt32

def Heap.setZone (h : Heap) (z : Zone) (l : List AllocInfo) : Heap :=
  { h with zone := Function.update h.zone z l }

def Heap.mapZones (h : Heap) (f : List AllocInfo → List AllocInfo) : Heap :=
  { h with zone := fun z => f (h.zone z) }

/-- The nodes in the order in which the loops over `Zones` visit them. -/
def Heap.nodes (h : Heap) : List AllocInfo := zones.flatMap h.zone

/-! ## Low-level memory reservations -/

/-- `alloc_new`, on the nodes of a zone. The new node is stored at `fill`. -/
def allocNew (size align : UInt32) (fill : Place) : List AllocInfo → UInt32 × List AllocInfo
  | [] => (0, [])
  | info :: rest =>
    let allocEnd := info.rangeStart + info.allocSize
    let newRangeEnd := alignDown (info.rangeEnd - size) align
    if newRangeEnd ≥ allocEnd ∧ newRangeEnd ≤ info.rangeEnd then
      (newRangeEnd,
        ⟨fill, newRangeEnd, info.rangeEnd, size⟩ :: { info with rangeEnd := newRangeEnd } :: rest)
    else
      let found := allocNew size align fill rest
      (found.1, info :: found.2)

/-- `hlist_replace`: a node of `tempdetail` becomes the same node of the
`allocdetail_s` at `detail`. -/
def Place.settle (detail : UInt32) : Place → Place
  | .temp part => .detail detail part
  | place => place

def AllocInfo.settle (detail : UInt32) (info : AllocInfo) : AllocInfo :=
  { info with place := info.place.settle detail }

/-- The end of `alloc_new_detail`: `tempdetail`, whose handle is the default one, is
copied to the memory found for it. -/
def Heap.settle (h : Heap) (detail : UInt32) : Heap where
  zone z := (h.zone z).map (AllocInfo.settle detail)
  handle := Function.update h.handle detail mallocDefaultHandle

/-- `alloc_new_detail`, with 0 for `NULL`. -/
def allocNewDetail (h : Heap) : UInt32 × Heap :=
  let high := allocNew sizeofAllocdetail mallocMinAlign (.temp .detailinfo) (h.zone .tmpHigh)
  let h := h.setZone .tmpHigh high.2
  if high.1 ≠ 0 then (high.1, h.settle high.1)
  else
    let low := allocNew sizeofAllocdetail mallocMinAlign (.temp .detailinfo) (h.zone .tmpLow)
    let h := h.setZone .tmpLow low.2
    if low.1 ≠ 0 then (low.1, h.settle low.1) else (0, h)

/-- `hlist_del` -/
def hlistDel (place : Place) (l : List AllocInfo) : List AllocInfo :=
  l.filter fun info => info.place ≠ place

/-- The loop of `alloc_add`: a node comes before the first that starts lower. -/
def hlistAdd (node : AllocInfo) : List AllocInfo → List AllocInfo
  | [] => [node]
  | info :: rest =>
    if info.rangeStart < node.rangeStart then node :: info :: rest
    else info :: hlistAdd node rest

/-- `alloc_add` -/
def allocAdd (h : Heap) (z : Zone) (start stop : UInt32) : Heap :=
  let node : AllocInfo := ⟨.temp .datainfo, start, stop, 0⟩
  let found := allocNewDetail (h.setZone z (hlistAdd node (h.zone z)))
  if found.1 = 0 then found.2.mapZones (hlistDel (.temp .datainfo)) else found.2

/-- `alloc_free`, on the zone that holds the node. -/
def allocFree (place : Place) : List AllocInfo → List AllocInfo
  | [] => []
  | info :: rest =>
    if info.place = place then
      match rest with
      | [] => []
      | next :: rest =>
        (if next.rangeEnd = info.rangeStart then { next with rangeEnd := info.rangeEnd }
          else next) :: rest
    else info :: allocFree place rest

/-- `alloc_find` -/
def allocFind (h : Heap) (data : UInt32) : Option AllocInfo :=
  h.nodes.find? fun info => info.rangeStart = data

/-- `alloc_find_lowest` -/
def allocFindLowest (h : Heap) (z : Zone) : Option AllocInfo := (h.zone z).getLast?

/-! ## Tracked memory allocations -/

/-- `malloc_palloc` -/
def mallocPalloc (h : Heap) (z : Zone) (size align : UInt32) : UInt32 × Heap :=
  if size = 0 then (0, h)
  else
    let found := allocNew size align (.temp .datainfo) (h.zone z)
    let h := h.setZone z found.2
    if found.1 = 0 then (0, h)
    else
      let detail := allocNewDetail h
      if detail.1 = 0 then (0, detail.2.mapZones (allocFree (.temp .datainfo)))
      else (found.1, detail.2)

/-- The node that starts at `data` and its `allocdetail_s`, as `malloc_pfree` and
`malloc_sethandle` look for them: both refuse what is not a tracked allocation. -/
def findDetail (h : Heap) (data : UInt32) : Option (AllocInfo × UInt32) :=
  match allocFind h data with
  | none => none
  | some info =>
    match info.place.phys with
    | none => none
    | some phys =>
      if data = phys ∨ info.allocSize = 0 then none
      -- `container_of(info, struct allocdetail_s, datainfo)`
      else some (info, phys - sizeofAllocinfo)

/-- `malloc_pfree`, with `none` for −1. -/
def mallocPfree (h : Heap) (data : UInt32) : Option Heap :=
  match findDetail h data with
  | none => none
  | some (info, detail) =>
    some ((h.mapZones (allocFree info.place)).mapZones (allocFree (.detail detail .detailinfo)))

/-- The free space of a node. -/
def AllocInfo.space (info : AllocInfo) : UInt32 :=
  info.rangeEnd - info.rangeStart - info.allocSize

/-- The loop of `malloc_getspace`. -/
def maxSpace (l : List AllocInfo) (maxspace : UInt32) : UInt32 :=
  l.foldl (fun maxspace info => if info.space > maxspace then info.space else maxspace) maxspace

/-- `malloc_getspace` -/
def mallocGetspace (h : Heap) (z : Zone) : UInt32 :=
  let maxspace := maxSpace (h.zone z) 0
  if z ≠ .tmpHigh ∧ z ≠ .tmpLow then maxspace
  else
    let reserve := align sizeofAllocdetail mallocMinAlign
    if maxspace ≤ reserve then 0 else maxspace - reserve

/-- `malloc_sethandle` -/
def mallocSethandle (h : Heap) (data handle : UInt32) : Heap :=
  match findDetail h data with
  | none => h
  | some (_, detail) => { h with handle := Function.update h.handle detail handle }

/-- The node behind a pointer. -/
def Heap.node (h : Heap) (place : Place) : Option AllocInfo :=
  h.nodes.find? fun info => info.place = place

/-- `detail->datainfo.range_start` -/
def Heap.dataStart (h : Heap) (detail : UInt32) : UInt32 :=
  match h.node (.detail detail .datainfo) with
  | none => 0
  | some info => info.rangeStart

/-- `malloc_findhandle` -/
def mallocFindhandle (h : Heap) (handle : UInt32) : UInt32 :=
  match h.nodes.find? fun info =>
      info.place.phys = some info.rangeStart ∧ h.handle info.rangeStart = handle with
  | none => 0
  | some info => h.dataStart info.rangeStart

def buildMinHightable : UInt32 := 256 * 1024

/-- No memory yet. -/
def Heap.empty : Heap where
  zone _ := []
  handle _ := 0

/-- `malloc_csm_preinit` -/
def mallocCsmPreinit (h : Heap) (lowPmm lowPmmSize hiPmm hiPmmSize : UInt32) : Heap :=
  let h :=
    if hiPmmSize > buildMinHightable then
      let hiPmmEnd := hiPmm + hiPmmSize
      let h := allocAdd h .tmpHigh hiPmm (hiPmmEnd - buildMinHightable)
      allocAdd h .high (hiPmmEnd - buildMinHightable) hiPmmEnd
    else allocAdd h .tmpHigh hiPmm (hiPmm + hiPmmSize)
  allocAdd h .tmpLow lowPmm (lowPmm + lowPmmSize)

end CsmWrap.Malloc
