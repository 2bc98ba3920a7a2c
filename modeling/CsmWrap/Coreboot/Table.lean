import CsmWrap.Coreboot.Checksum
import CsmWrap.Memory

/-!
# The coreboot table

csmwrap describes the framebuffer to SeaVGABIOS as coreboot would: a table at
`CB_TABLE_START` with a header and one record. `build_coreboot_table` writes it,
`find_cb_table` and `find_cb_subtable` of SeaBIOS look for it in the first page.
Addresses are flat and below 4 GiB; 0 is the null pointer.
-/

namespace CsmWrap.Coreboot
open Memory OnesComplement

def cbHeaderSignature : UInt32 := 0x4F49424C
def cbTagForward : UInt32 := 0x11
def cbTagFramebuffer : UInt32 := 0x12
def cbTableStart : Nat := 0x500
def sizeofHeader : Nat := 24
def sizeofFramebuffer : Nat := 40

inductive VideoType where
  | none
  | oprom
  | seavgabios
  | fallback
  deriving DecidableEq, Repr

/-- `struct cb_framebuffer`, with the padding that its alignment adds. -/
@[ext] structure CbFramebuffer where
  tag : UInt32
  size : UInt32
  physicalAddress : UInt64
  xResolution : UInt32
  yResolution : UInt32
  bytesPerLine : UInt32
  bitsPerPixel : UInt8
  redMaskPos : UInt8
  redMaskSize : UInt8
  greenMaskPos : UInt8
  greenMaskSize : UInt8
  blueMaskPos : UInt8
  blueMaskSize : UInt8
  reservedMaskPos : UInt8
  reservedMaskSize : UInt8
  pad0 : UInt8
  pad1 : UInt8
  pad2 : UInt8
  deriving DecidableEq, Repr

def CbFramebuffer.maskBytes (fb : CbFramebuffer) : List UInt8 :=
  [fb.bitsPerPixel, fb.redMaskPos, fb.redMaskSize, fb.greenMaskPos, fb.greenMaskSize,
    fb.blueMaskPos, fb.blueMaskSize, fb.reservedMaskPos, fb.reservedMaskSize,
    fb.pad0, fb.pad1, fb.pad2]

/-- The record after its `tag` and `size`. -/
def CbFramebuffer.content (fb : CbFramebuffer) : List UInt8 :=
  leBytes 8 fb.physicalAddress.toNat ++
    (wordBytes [fb.xResolution, fb.yResolution, fb.bytesPerLine] ++ fb.maskBytes)

def CbFramebuffer.bytes (fb : CbFramebuffer) : List UInt8 :=
  wordBytes [fb.tag, fb.size] ++ fb.content

def framebufferAt (mem : Mem) (p : Nat) : CbFramebuffer where
  tag := read32 mem p
  size := read32 mem (p + 4)
  physicalAddress := read64 mem (p + 8)
  xResolution := read32 mem (p + 16)
  yResolution := read32 mem (p + 20)
  bytesPerLine := read32 mem (p + 24)
  bitsPerPixel := mem (p + 28)
  redMaskPos := mem (p + 29)
  redMaskSize := mem (p + 30)
  greenMaskPos := mem (p + 31)
  greenMaskSize := mem (p + 32)
  blueMaskPos := mem (p + 33)
  blueMaskSize := mem (p + 34)
  reservedMaskPos := mem (p + 35)
  reservedMaskSize := mem (p + 36)
  pad0 := mem (p + 37)
  pad1 := mem (p + 38)
  pad2 := mem (p + 39)

/-- The framebuffer record, which is left out for a real option ROM: memory, the
number of records and the end of the records. -/
def writeRecords (mem : Mem) (videoType : VideoType) (cbFb : CbFramebuffer) (p : Nat) :
    Mem × UInt32 × Nat :=
  if videoType ≠ .oprom then
    let mem := store mem p cbFb.bytes
    let mem := write32 mem p cbTagFramebuffer
    let mem := write32 mem (p + 4) (UInt32.ofNat sizeofFramebuffer)
    (mem, 1, p + sizeofFramebuffer)
  else (mem, 0, p)

def buildCorebootTable (mem : Mem) (videoType : VideoType) (cbFb : CbFramebuffer) : Mem :=
  let header := cbTableStart
  let mem := store mem header (List.replicate sizeofHeader 0)
  let mem := write32 mem header cbHeaderSignature
  let mem := write32 mem (header + 4) (UInt32.ofNat sizeofHeader)
  let tables := header + sizeofHeader
  let (mem, tableEntries, p) := writeRecords mem videoType cbFb tables
  -- Last header stuff.
  let mem := write32 mem (header + 20) tableEntries
  let mem := write32 mem (header + 12) (UInt32.ofNat (p - tables))
  let mem := write32 mem (header + 16) (cbCheckSum16 (load mem tables (p - tables))).toUInt32
  write32 mem (header + 8) (cbCheckSum16 (load mem header sizeofHeader)).toUInt32

/-- How many bytes `ipchksum` sums for a `count` of `tsize`. The parameter is an
`int`, and a negative one skips the loop and adds one byte. -/
def chksumCount (tsize : UInt32) : Nat := if tsize.toNat < 2 ^ 31 then tsize.toNat else 1

/-- The checks that `find_cb_header` makes on a candidate. -/
def accepted (mem : Mem) (addr : Nat) : Bool :=
  let tsize := read32 mem (addr + 12)
  read32 mem addr == cbHeaderSignature && tsize != 0 &&
    ipchksum (load mem addr sizeofHeader) == 0 &&
    (ipchksum (load mem (addr + sizeofHeader) (chksumCount tsize))).toUInt32 ==
      read32 mem (addr + 16)

/-- The loop of `find_cb_header`, for at most the given number of rounds. -/
def scanHeaders (mem : Mem) (stop : Nat) : Nat → Nat → Nat
  | 0, _ => 0
  | n + 1, addr =>
    if addr < stop then
      if accepted mem addr then addr else scanHeaders mem stop n (addr + 16)
    else 0

/-- Both callers pass a multiple of 16, so `len / 16` rounds are all there are. -/
def findCbHeader (mem : Mem) (addr len : Nat) : Nat :=
  scanHeaders mem ((addr + len) % 2 ^ 32) (len / 16) addr

def scanRecords (mem : Mem) (tag : UInt32) : Nat → Nat → Nat
  | 0, _ => 0
  | n + 1, tbl =>
    if read32 mem tbl = tag then tbl
    else scanRecords mem tag n ((tbl + (read32 mem (tbl + 4)).toNat) % 2 ^ 32)

def findCbSubtable (mem : Mem) (cbh : Nat) (tag : UInt32) : Nat :=
  scanRecords mem tag (read32 mem (cbh + 20)).toNat (cbh + sizeofHeader)

def findCbTable (mem : Mem) : Nat :=
  let cbh := findCbHeader mem 0 0x1000
  if cbh = 0 then 0
  else
    let cbf := findCbSubtable mem cbh cbTagForward
    if cbf ≠ 0 then findCbHeader mem ((read64 mem (cbf + 8)).toNat % 2 ^ 32) 0x100 else cbh

def CbFramebuffer.tagged (fb : CbFramebuffer) : CbFramebuffer :=
  { fb with tag := cbTagFramebuffer, size := UInt32.ofNat sizeofFramebuffer }

def tableChecksum (fb : CbFramebuffer) : UInt32 := (cbCheckSum16 fb.tagged.bytes).toUInt32

def headerWords (fb : CbFramebuffer) (headerChecksum : UInt32) : List UInt32 :=
  [cbHeaderSignature, UInt32.ofNat sizeofHeader, headerChecksum, UInt32.ofNat sizeofFramebuffer,
    tableChecksum fb, 1]

def headerChecksum (fb : CbFramebuffer) : UInt32 :=
  (cbCheckSum16 (wordBytes (headerWords fb 0))).toUInt32

@[simp] theorem length_content (fb : CbFramebuffer) : fb.content.length = 32 := by
  simp [CbFramebuffer.content, CbFramebuffer.maskBytes]

@[simp] theorem length_fb_bytes (fb : CbFramebuffer) : fb.bytes.length = sizeofFramebuffer := by
  simp [CbFramebuffer.bytes, sizeofFramebuffer]

theorem writeRecords_eq (mem : Mem) {videoType : VideoType} (hv : videoType ≠ .oprom)
    (fb : CbFramebuffer) (p : Nat) :
    writeRecords mem videoType fb p =
      (store mem p fb.tagged.bytes, 1, p + sizeofFramebuffer) := by
  have htag : write32 (store mem p fb.bytes) p cbTagFramebuffer =
      store mem p (wordBytes [cbTagFramebuffer, fb.size] ++ fb.content) :=
    write32_word mem p [fb.tag, fb.size] fb.content (i := 0) (by simp) _
  have hsize : write32 (store mem p (wordBytes [cbTagFramebuffer, fb.size] ++ fb.content)) (p + 4)
      (UInt32.ofNat sizeofFramebuffer) = store mem p fb.tagged.bytes :=
    write32_word mem p [cbTagFramebuffer, fb.size] fb.content (i := 1) (by simp) _
  simp only [writeRecords, if_pos hv, htag, hsize]

theorem load_header (mem : Mem) (a : Nat) {ws : List UInt32} (hws : ws.length = 6)
    (q : List UInt8) : load (store mem a (wordBytes ws ++ q)) a sizeofHeader = wordBytes ws := by
  have h := load_store_mid mem a [] (wordBytes ws) q
  rwa [length_wordBytes, hws] at h

theorem load_tables (mem : Mem) (a : Nat) {ws : List UInt32} (hws : ws.length = 6)
    {q : List UInt8} (hq : q.length = sizeofFramebuffer) :
    load (store mem a (wordBytes ws ++ q)) (a + sizeofHeader) sizeofFramebuffer = q := by
  have h := load_store_mid mem a (wordBytes ws) q []
  rwa [List.append_nil, length_wordBytes, hws, hq] at h

/-- The writes of the header and of the record, field by field, as one store. -/
theorem build_eq_store (mem : Mem) {videoType : VideoType} (hv : videoType ≠ .oprom)
    (fb : CbFramebuffer) :
    buildCorebootTable mem videoType fb =
      store mem cbTableStart
        (wordBytes (headerWords fb (headerChecksum fb)) ++ fb.tagged.bytes) := by
  have hzero : List.replicate sizeofHeader 0 = wordBytes [0, 0, 0, 0, 0, 0] ++ [] := by decide
  have signature : write32 (store mem cbTableStart (List.replicate sizeofHeader 0)) cbTableStart
      cbHeaderSignature =
      store mem cbTableStart (wordBytes [cbHeaderSignature, 0, 0, 0, 0, 0] ++ []) := by
    rw [hzero]
    exact write32_word mem cbTableStart [0, 0, 0, 0, 0, 0] [] (i := 0) (by simp) _
  have headerBytes : write32 (store mem cbTableStart
      (wordBytes [cbHeaderSignature, 0, 0, 0, 0, 0] ++ [])) (cbTableStart + 4)
      (UInt32.ofNat sizeofHeader) = store mem cbTableStart
        (wordBytes [cbHeaderSignature, UInt32.ofNat sizeofHeader, 0, 0, 0, 0]) := by
    rw [← List.append_nil (wordBytes [_, UInt32.ofNat sizeofHeader, _, _, _, _])]
    exact write32_word mem cbTableStart _ [] (i := 1) (by simp) _
  have records : store (store mem cbTableStart
      (wordBytes [cbHeaderSignature, UInt32.ofNat sizeofHeader, 0, 0, 0, 0]))
      (cbTableStart + sizeofHeader) fb.tagged.bytes = store mem cbTableStart
        (wordBytes [cbHeaderSignature, UInt32.ofNat sizeofHeader, 0, 0, 0, 0] ++
          fb.tagged.bytes) :=
    store_append mem cbTableStart _ _
  have tableEntries : write32 (store mem cbTableStart
      (wordBytes [cbHeaderSignature, UInt32.ofNat sizeofHeader, 0, 0, 0, 0] ++ fb.tagged.bytes))
      (cbTableStart + 20) 1 = store mem cbTableStart
        (wordBytes [cbHeaderSignature, UInt32.ofNat sizeofHeader, 0, 0, 0, 1] ++
          fb.tagged.bytes) :=
    write32_word mem cbTableStart _ _ (i := 5) (by simp) _
  have tableBytes : write32 (store mem cbTableStart
      (wordBytes [cbHeaderSignature, UInt32.ofNat sizeofHeader, 0, 0, 0, 1] ++ fb.tagged.bytes))
      (cbTableStart + 12) (UInt32.ofNat sizeofFramebuffer) = store mem cbTableStart
        (wordBytes [cbHeaderSignature, UInt32.ofNat sizeofHeader, 0,
          UInt32.ofNat sizeofFramebuffer, 0, 1] ++ fb.tagged.bytes) :=
    write32_word mem cbTableStart _ _ (i := 3) (by simp) _
  have checksum : write32 (store mem cbTableStart (wordBytes [cbHeaderSignature,
      UInt32.ofNat sizeofHeader, 0, UInt32.ofNat sizeofFramebuffer, 0, 1] ++ fb.tagged.bytes))
      (cbTableStart + 16) (tableChecksum fb) =
        store mem cbTableStart (wordBytes (headerWords fb 0) ++ fb.tagged.bytes) :=
    write32_word mem cbTableStart _ _ (i := 4) (by simp) _
  have hsub : cbTableStart + sizeofHeader + sizeofFramebuffer - (cbTableStart + sizeofHeader) =
      sizeofFramebuffer := rfl
  simp only [buildCorebootTable, signature, headerBytes, writeRecords_eq _ hv, records,
    tableEntries, tableBytes, hsub]
  rw [load_tables mem cbTableStart rfl (length_fb_bytes _), ← tableChecksum, checksum,
    load_header mem cbTableStart rfl]
  exact write32_word mem cbTableStart (headerWords fb 0) _ (i := 2) (by simp [headerWords]) _

/-! ## What is read back -/

theorem framebufferAt_of_load {mem : Mem} {p : Nat} {fb : CbFramebuffer}
    (h : load mem p sizeofFramebuffer = fb.bytes) : framebufferAt mem p = fb := by
  have part : ∀ i n, i + n ≤ sizeofFramebuffer → load mem (p + i) n = (fb.bytes.drop i).take n :=
    fun i n hin => (load_sub mem p hin).trans (by rw [h])
  have byte : ∀ i, (hi : i < sizeofFramebuffer) →
      mem (p + i) = fb.bytes.get ⟨i, (length_fb_bytes fb).symm ▸ hi⟩ := by
    intro i hi
    simp only [List.get_eq_getElem, ← h]
    exact (getElem_load mem p _ _).symm
  apply CbFramebuffer.ext
  · exact read32_of_load (part 0 4 (by decide))
  · exact read32_of_load (part 4 4 (by decide))
  · exact read64_of_load (part 8 8 (by decide))
  · exact read32_of_load (part 16 4 (by decide))
  · exact read32_of_load (part 20 4 (by decide))
  · exact read32_of_load (part 24 4 (by decide))
  · exact byte 28 (by decide)
  · exact byte 29 (by decide)
  · exact byte 30 (by decide)
  · exact byte 31 (by decide)
  · exact byte 32 (by decide)
  · exact byte 33 (by decide)
  · exact byte 34 (by decide)
  · exact byte 35 (by decide)
  · exact byte 36 (by decide)
  · exact byte 37 (by decide)
  · exact byte 38 (by decide)
  · exact byte 39 (by decide)

theorem wordSum_word (w : UInt32) (bytes : List UInt8) :
    wordSum 0 (word w ++ bytes) = w.toNat % 65536 + w.toNat / 65536 + wordSum 0 bytes := by
  have hw := w.toNat_lt
  have e : word w ++ bytes = UInt8.ofNat w.toNat :: UInt8.ofNat (w.toNat / 256) ::
      UInt8.ofNat (w.toNat / 256 / 256) :: UInt8.ofNat (w.toNat / 256 / 256 / 256) :: bytes := rfl
  rw [e, wordSum_pair, wordSum_pair]
  simp only [UInt8.toNat_ofNat']
  omega

/-- The header checksum fills the place that was zero when it was computed. -/
theorem wordSum_header (fb : CbFramebuffer) {c : UInt32} (hc : c.toNat < 65536) :
    wordSum 0 (wordBytes (headerWords fb c)) =
      wordSum 0 (wordBytes (headerWords fb 0)) + c.toNat := by
  have hz : (0 : UInt32).toNat = 0 := rfl
  simp only [headerWords, wordBytes, List.flatMap_cons, wordSum_word, hz]
  omega

theorem ipchksum_header (fb : CbFramebuffer) :
    ipchksum (wordBytes (headerWords fb (headerChecksum fb))) = 0 := by
  have hc : (headerChecksum fb).toNat =
      65535 - residue 65535 (wordSum 0 (wordBytes (headerWords fb 0))) := by
    unfold headerChecksum
    rw [UInt16.toNat_toUInt32, toNat_cbCheckSum16]
  have hsum := wordSum_header fb (c := headerChecksum fb) (by omega)
  have hsmall : wordSum 0 (wordBytes (headerWords fb (headerChecksum fb))) < 2 ^ 32 := by
    have := wordSum_le (wordBytes (headerWords fb (headerChecksum fb)))
    rw [length_wordBytes] at this
    simp only [headerWords, List.length_cons, List.length_nil] at this ⊢
    omega
  rw [← UInt16.toNat_inj, toNat_ipchksum hsmall, hsum, hc, residue_add_compl (by decide)]
  rfl

theorem ipchksum_table (fb : CbFramebuffer) :
    (ipchksum fb.tagged.bytes).toUInt32 = tableChecksum fb := by
  have hsmall : wordSum 0 fb.tagged.bytes < 2 ^ 32 := by
    have := wordSum_le fb.tagged.bytes
    rw [length_fb_bytes, sizeofFramebuffer] at this
    omega
  rw [ipchksum_eq hsmall, tableChecksum]

section
variable (mem : Mem) {videoType : VideoType} (hv : videoType ≠ .oprom) (fb : CbFramebuffer)
include hv

theorem read32_build {i : Nat} (hi : i < 6) :
    read32 (buildCorebootTable mem videoType fb) (cbTableStart + 4 * i) =
      (headerWords fb (headerChecksum fb)).get ⟨i, hi⟩ := by
  rw [build_eq_store mem hv]
  exact read32_word mem cbTableStart (headerWords fb (headerChecksum fb)) _ hi

theorem load_build_header :
    load (buildCorebootTable mem videoType fb) cbTableStart sizeofHeader =
      wordBytes (headerWords fb (headerChecksum fb)) := by
  rw [build_eq_store mem hv]
  exact load_header mem cbTableStart rfl _

theorem load_build_tables :
    load (buildCorebootTable mem videoType fb) (cbTableStart + sizeofHeader) sizeofFramebuffer =
      fb.tagged.bytes := by
  rw [build_eq_store mem hv]
  exact load_tables mem cbTableStart rfl (length_fb_bytes _)

/-- SeaBIOS accepts the header that csmwrap writes, whatever the record holds. -/
theorem accepted_build : accepted (buildCorebootTable mem videoType fb) cbTableStart = true := by
  have signature : read32 (buildCorebootTable mem videoType fb) cbTableStart = cbHeaderSignature :=
    read32_build mem hv fb (i := 0) (by decide)
  have tsize : read32 (buildCorebootTable mem videoType fb) (cbTableStart + 12) =
      UInt32.ofNat sizeofFramebuffer := read32_build mem hv fb (i := 3) (by decide)
  have checksum : read32 (buildCorebootTable mem videoType fb) (cbTableStart + 16) =
      tableChecksum fb := read32_build mem hv fb (i := 4) (by decide)
  have hcount : chksumCount (UInt32.ofNat sizeofFramebuffer) = sizeofFramebuffer := by decide
  have hne : (UInt32.ofNat sizeofFramebuffer != 0) = true := by decide
  simp only [accepted, signature, tsize, checksum, hcount, hne, load_build_header mem hv,
    load_build_tables mem hv, ipchksum_header, ipchksum_table, beq_self_eq_true, Bool.and_self]

theorem accepted_build_low {addr : Nat} (haddr : addr + 4 ≤ cbTableStart)
    (hsig : read32 mem addr ≠ cbHeaderSignature) :
    accepted (buildCorebootTable mem videoType fb) addr = false := by
  have hread : read32 (buildCorebootTable mem videoType fb) addr = read32 mem addr := by
    rw [build_eq_store mem hv, read32, load_store_outside _ _ (.inl haddr), ← read32]
  unfold accepted
  rw [hread, beq_false_of_ne hsig]
  rfl

theorem framebufferAt_build :
    framebufferAt (buildCorebootTable mem videoType fb) (cbTableStart + sizeofHeader) =
      fb.tagged :=
  framebufferAt_of_load (load_build_tables mem hv fb)

theorem findCbSubtable_build (tag : UInt32) :
    findCbSubtable (buildCorebootTable mem videoType fb) cbTableStart tag =
      if cbTagFramebuffer = tag then cbTableStart + sizeofHeader else 0 := by
  have hcount : read32 (buildCorebootTable mem videoType fb) (cbTableStart + 20) = 1 :=
    read32_build mem hv fb (i := 5) (by decide)
  have htag : read32 (buildCorebootTable mem videoType fb) (cbTableStart + sizeofHeader) =
      cbTagFramebuffer := congrArg CbFramebuffer.tag (framebufferAt_build mem hv fb)
  unfold findCbSubtable
  rw [hcount]
  change scanRecords _ tag 1 _ = _
  rw [scanRecords, htag]
  rfl

end

/-- The scan ends at the first header it accepts. -/
theorem scanHeaders_first {mem : Mem} {stop n addr k : Nat} (hk : k < n)
    (hstop : addr + 16 * k < stop) (hno : ∀ j < k, accepted mem (addr + 16 * j) = false)
    (hyes : accepted mem (addr + 16 * k) = true) :
    scanHeaders mem stop n addr = addr + 16 * k := by
  induction k generalizing n addr with
  | zero =>
    cases n with
    | zero => omega
    | succ n =>
      simp only [Nat.mul_zero, Nat.add_zero] at hstop hyes ⊢
      rw [scanHeaders, if_pos hstop, if_pos hyes]
  | succ k ih =>
    cases n with
    | zero => omega
    | succ n =>
      have hfirst : ¬ accepted mem addr = true := Bool.eq_false_iff.mp (hno 0 (by omega))
      have next : ∀ j, addr + 16 + 16 * j = addr + 16 * (j + 1) := fun j => by omega
      rw [scanHeaders, if_pos (by omega), if_neg hfirst,
        ih (by omega) (by rw [next]; exact hstop)
          (fun j hj => by rw [next]; exact hno (j + 1) (by omega)) (by rw [next]; exact hyes), next]

/-- Both pointers that SeaVGABIOS goes through, given that nothing below is found first. -/
theorem findCbTable_build (mem : Mem) {videoType : VideoType} (hv : videoType ≠ .oprom)
    (fb : CbFramebuffer)
    (hlow : ∀ addr < cbTableStart, addr % 16 = 0 →
      accepted (buildCorebootTable mem videoType fb) addr = false) :
    findCbTable (buildCorebootTable mem videoType fb) = cbTableStart ∧
      findCbSubtable (buildCorebootTable mem videoType fb) cbTableStart cbTagForward = 0 ∧
      findCbSubtable (buildCorebootTable mem videoType fb) cbTableStart cbTagFramebuffer =
        cbTableStart + sizeofHeader := by
  have hforward : findCbSubtable (buildCorebootTable mem videoType fb) cbTableStart
      cbTagForward = 0 := by
    rw [findCbSubtable_build mem hv, if_neg (by decide)]
  have hheader : findCbHeader (buildCorebootTable mem videoType fb) 0 0x1000 = cbTableStart := by
    apply scanHeaders_first (k := 80) (by decide) (by decide)
    · intro j hj
      apply hlow _ _ (by omega)
      unfold cbTableStart
      omega
    · exact accepted_build mem hv fb
  refine ⟨?_, hforward, ?_⟩
  · simp only [findCbTable, hheader, hforward]
    rfl
  · rw [findCbSubtable_build mem hv, if_pos rfl]

/-- **The framebuffer record survives the way to SeaVGABIOS.** Unless the memory
that is scanned has an accepted header below `CB_TABLE_START`, the scan finds the
header that csmwrap wrote, follows no forwarder, and the record found there is
`priv->cb_fb` with its `tag` and `size` filled in. -/
theorem coreboot_round_trip (mem : Mem) (videoType : VideoType) (hv : videoType ≠ .oprom)
    (cbFb : CbFramebuffer)
    (hlow : ∀ addr < cbTableStart, addr % 16 = 0 →
      accepted (buildCorebootTable mem videoType cbFb) addr = false) :
    findCbTable (buildCorebootTable mem videoType cbFb) = cbTableStart ∧
    accepted (buildCorebootTable mem videoType cbFb) cbTableStart = true ∧
    findCbSubtable (buildCorebootTable mem videoType cbFb) cbTableStart cbTagForward = 0 ∧
    findCbSubtable (buildCorebootTable mem videoType cbFb) cbTableStart cbTagFramebuffer =
      cbTableStart + sizeofHeader ∧
    framebufferAt (buildCorebootTable mem videoType cbFb) (cbTableStart + sizeofHeader) =
      { cbFb with tag := cbTagFramebuffer, size := UInt32.ofNat sizeofFramebuffer } := by
  obtain ⟨htable, hforward, hrecord⟩ := findCbTable_build mem hv cbFb hlow
  exact ⟨htable, accepted_build mem hv cbFb, hforward, hrecord, framebufferAt_build mem hv cbFb⟩

/-- A framebuffer of 1024 by 768 pixels of 32 bits. -/
def sampleFramebuffer : CbFramebuffer :=
  ⟨0, 0, 0xe0000000, 1024, 768, 4096, 32, 16, 8, 8, 8, 0, 8, 24, 8, 0, 0, 0⟩

/-- In memory that was all zero, no header is found below the table. -/
theorem accepted_build_empty (fb : CbFramebuffer) : ∀ addr < cbTableStart, addr % 16 = 0 →
    accepted (buildCorebootTable (fun _ => 0) .seavgabios fb) addr = false := by
  intro addr hlt halign
  have hzero : read32 (fun _ => 0) addr = 0 := rfl
  apply accepted_build_low _ (by decide) _ _ (by rw [hzero]; decide)
  simp only [cbTableStart] at hlt ⊢
  omega

theorem coreboot_round_trip_empty :
    findCbTable (buildCorebootTable (fun _ => 0) .seavgabios sampleFramebuffer) = cbTableStart :=
  (coreboot_round_trip (fun _ => 0) .seavgabios (by decide) sampleFramebuffer
    (accepted_build_empty sampleFramebuffer)).1

/-- Memory with a header at 0x4e0 for a table of 16 bytes, the last eight of
which are where the new table begins. -/
def staleMemory : Mem :=
  store (fun _ => 0) 0x4e0 (wordBytes [cbHeaderSignature, 24, 0xffef, 16, 0x6e52, 0])

/-- The header in `staleMemory` is not accepted until the new table completes
the bytes its checksum is for; then it is found first. -/
theorem coreboot_round_trip_stale :
    (∀ addr < cbTableStart, addr % 16 = 0 → accepted staleMemory addr = false) ∧
    findCbTable (buildCorebootTable staleMemory .seavgabios sampleFramebuffer) = 0x4e0 := by
  have hsig : ∀ j < 78, read32 staleMemory (0 + 16 * j) ≠ cbHeaderSignature := by decide +kernel
  have hheader : findCbHeader (buildCorebootTable staleMemory .seavgabios sampleFramebuffer) 0
      0x1000 = 0x4e0 :=
    scanHeaders_first (k := 78) (by decide) (by decide)
      (fun j hj => accepted_build_low _ (by decide) _ (by rw [cbTableStart]; omega) (hsig j hj))
      (by decide +kernel)
  have hforward : findCbSubtable (buildCorebootTable staleMemory .seavgabios sampleFramebuffer)
      0x4e0 cbTagForward = 0 := by decide +kernel
  constructor
  · intro addr hlt halign
    -- the scan looks at multiples of 16 only
    obtain ⟨j, rfl⟩ : ∃ j, addr = 16 * j := ⟨addr / 16, by omega⟩
    have hold : ∀ j < 80, accepted staleMemory (16 * j) = false := by decide +kernel
    rw [cbTableStart] at hlt
    exact hold j (by omega)
  · simp only [findCbTable, hheader, hforward]
    rfl

end CsmWrap.Coreboot
