import CsmWrap.Boot.Csm

/-!
# The memory services of INT 15h

An operating system asks for the memory map entry by entry, with `AX` = E820h; each
call returns in `EBX` what to pass to the next. The older functions E801h and 88h give
sizes only, which SeaBIOS computes from `LegacyRamSize`.
-/

namespace CsmWrap.Boot
open Memory E820 Regions

/-- The registers of `struct bregs` that these services use, and the carry flag. -/
structure Bregs where
  eax : UInt32
  ebx : UInt32
  ecx : UInt32
  edx : UInt32
  di : UInt16
  es : UInt16
  cf : Bool
  deriving DecidableEq, Repr

/-- Set the lower half of a register. -/
def setLow (r : UInt32) (v : UInt16) : UInt32 := (r &&& 0xffff0000) ||| v.toUInt32

/-- `set_code_invalid` and `set_code_unimplemented` with `RET_EUNSUPPORTED`. -/
def unsupported (regs : Bregs) : Bregs :=
  { regs with eax := (regs.eax &&& 0xffff00ff) ||| 0x8600, cf := true }

/-- `memcpy_far`: the offset counts up in 16 bits. -/
def memcpyFar (mem : Mem) (seg off : UInt16) (bytes : List UInt8) : Mem :=
  storeFar mem seg off.toNat bytes

def smap : UInt32 := 0x534d4150

/-- `handle_15e820`. `e820_list` has a used part of `e820_count` entries. -/
def handle15e820 (e820List : List Entry) (mem : Mem) (regs : Bregs) : Mem × Bregs :=
  let bx := regs.ebx.toUInt16.toNat
  match e820List[bx]? with
  | none => (mem, unsupported regs)
  | some e =>
    if regs.edx ≠ smap ∨ regs.ecx.toNat < sizeofEntry then (mem, unsupported regs)
    else
      (memcpyFar mem regs.es regs.di e.bytes,
        { regs with
          ebx := if bx = e820List.length - 1 then 0 else regs.ebx + 1
          eax := smap
          ecx := UInt32.ofNat sizeofEntry
          cf := false })

/-- `handle_15e801` -/
def handle15e801 (legacyRamSize : UInt32) (regs : Bregs) : Bregs :=
  let rs := legacyRamSize
  let cx : UInt16 := if rs > 0x1000000 then 15 * 1024 else ((rs - 0x100000) / 1024).toUInt16
  let dx : UInt16 := if rs > 0x1000000 then ((rs - 0x1000000) / 0x10000).toUInt16 else 0
  { regs with
    eax := setLow regs.eax cx
    ebx := setLow regs.ebx dx
    ecx := setLow regs.ecx cx
    edx := setLow regs.edx dx
    cf := false }

/-- `handle_1588` -/
def handle1588 (legacyRamSize : UInt32) (regs : Bregs) : Bregs :=
  let rs := legacyRamSize
  let ax : UInt16 := if rs > 0x4000000 then 63 * 1024 else ((rs - 0x100000) / 1024).toUInt16
  { regs with eax := setLow regs.eax ax, cf := false }

/-- `handle_15e8` -/
def handle15e8 (e820List : List Entry) (legacyRamSize : UInt32) (mem : Mem) (regs : Bregs) :
    Mem × Bregs :=
  match (regs.eax &&& 0xff).toNat with
  | 0x01 => (mem, handle15e801 legacyRamSize regs)
  | 0x20 => handle15e820 e820List mem regs
  | _ => (mem, unsupported regs)

/-- What `calcRamSize` counts: memory that ends below 4 GiB. -/
def counted (e : Entry) : Bool :=
  e.eEnd ≤ 0xffffffff ∧ (e.type = e820Acpi ∨ e.type = e820Ram)

/-- `calcRamSize`, with the value of `LegacyRamSize`. -/
def calcRamSize (e820List : List Entry) : UInt32 :=
  let rs :=
    match e820List.reverse.find? counted with
    | none => 0
    | some e => e.eEnd.toUInt32
  if rs ≥ 0x100000 then rs else 0x100000

/-! ## Reading the map -/

/-- How an operating system reads the map into a buffer at `ES:DI`. -/
def readMap (e820List : List Entry) (legacyRamSize : UInt32) (es di : UInt16) :
    Nat → Mem → UInt32 → List Entry
  | 0, _, _ => []
  | fuel + 1, mem, ebx =>
    let after := handle15e8 e820List legacyRamSize mem ⟨0xe820, ebx, 20, smap, di, es, false⟩
    if after.2.cf then []
    else
      entryAt after.1 (makeFlatptr es di).toNat ::
        if after.2.ebx = 0 then []
        else readMap e820List legacyRamSize es di fuel after.1 after.2.ebx

theorem makeFlatptr_toNat (seg off : UInt16) :
    (makeFlatptr seg off).toNat = 16 * seg.toNat + off.toNat := by
  have hs := seg.toNat_lt
  have ho := off.toNat_lt
  simp only [makeFlatptr, UInt32.toNat_add, UInt32.toNat_shiftLeft, UInt16.toNat_toUInt32,
    UInt32.reduceToNat, Nat.reduceMod, Nat.shiftLeft_eq, Nat.reducePow]
  omega

/-- A copy that stays in its segment. -/
theorem memcpyFar_eq_store (mem : Mem) (seg off : UInt16) (bytes : List UInt8)
    (h : off.toNat + bytes.length ≤ 2 ^ 16) :
    memcpyFar mem seg off bytes = store mem (makeFlatptr seg off).toNat bytes := by
  rw [memcpyFar, storeFar_eq_store mem seg h, makeFlatptr_toNat]

section
variable {e820List : List Entry} {legacyRamSize : UInt32} {es di : UInt16}

/-- One call copies the entry with the number in `EBX`. -/
theorem handle15e8_entry (mem : Mem) {i : Nat} (hi : i < e820List.length)
    (hlen : e820List.length ≤ 2 ^ 16) (hdi : di.toNat + sizeofEntry ≤ 2 ^ 16) :
    handle15e8 e820List legacyRamSize mem ⟨0xe820, UInt32.ofNat i, 20, smap, di, es, false⟩ =
      (store mem (makeFlatptr es di).toNat e820List[i].bytes,
        ⟨smap, if i = e820List.length - 1 then 0 else UInt32.ofNat (i + 1), 20, smap, di, es,
          false⟩) := by
  have hbx : (UInt32.ofNat i).toUInt16.toNat = i := by
    rw [UInt32.toNat_toUInt16, UInt32.toNat_ofNat']
    omega
  have hnext : UInt32.ofNat i + 1 = UInt32.ofNat (i + 1) := by simp
  have hcopy := memcpyFar_eq_store mem es di e820List[i].bytes (by rw [length_bytes]; exact hdi)
  have hal : ((0xe820 : UInt32) &&& 0xff).toNat = 0x20 := by decide
  have hentry : e820List[i]? = some e820List[i] := List.getElem?_eq_getElem hi
  have hok : ¬ (smap ≠ smap ∨ (20 : UInt32).toNat < sizeofEntry) := by decide
  unfold handle15e8
  rw [hal]
  simp only [handle15e820, hbx, hentry, hcopy, hnext, if_neg hok]
  rfl

theorem readMap_drop (mem : Mem) {i : Nat} (hi : i < e820List.length)
    (hlen : e820List.length ≤ 2 ^ 16) (hdi : di.toNat + sizeofEntry ≤ 2 ^ 16) {fuel : Nat}
    (hfuel : e820List.length ≤ i + fuel) :
    readMap e820List legacyRamSize es di fuel mem (UInt32.ofNat i) = e820List.drop i := by
  induction fuel generalizing mem i with
  | zero => omega
  | succ fuel ih =>
    have hentry : entryAt (store mem (makeFlatptr es di).toNat e820List[i].bytes)
        (makeFlatptr es di).toNat = e820List[i] := by
      apply entryAt_of_load
      have := load_store mem (makeFlatptr es di).toNat e820List[i].bytes
      rwa [length_bytes] at this
    rw [readMap, handle15e8_entry mem hi hlen hdi, List.drop_eq_getElem_cons hi]
    simp only [hentry, Bool.false_eq_true, if_false, List.cons.injEq, true_and]
    by_cases hlast : i = e820List.length - 1
    · rw [if_pos hlast, if_pos rfl, List.drop_eq_nil_of_le (by omega)]
    · have hne : UInt32.ofNat (i + 1) ≠ 0 := by
        intro h
        have := congrArg UInt32.toNat h
        rw [UInt32.toNat_ofNat', UInt32.toNat_zero] at this
        omega
      rw [if_neg hlast, if_neg hne]
      exact ih _ (by omega) (by omega)

end

/-- An operating system that starts with 0 and goes on until it gets 0 back reads every
entry once and in order, in as many calls as there are entries, wherever its buffer is. -/
theorem os_reads_map (e820List : List Entry) (legacyRamSize : UInt32) (es di : UInt16) (mem : Mem)
    (hlen : e820List.length ≤ 2 ^ 16) (hdi : di.toNat + sizeofEntry ≤ 2 ^ 16) :
    readMap e820List legacyRamSize es di e820List.length mem 0 = e820List := by
  rcases e820List with _ | ⟨e, l⟩
  · rfl
  · exact readMap_drop mem (i := 0) (by simp) hlen hdi (by simp)

theorem mib_le_calcRamSize (l : List Entry) : 0x100000 ≤ (calcRamSize l).toNat := by
  unfold calcRamSize
  dsimp only
  split_ifs with h
  · exact UInt32.le_iff_toNat_le.mp h
  · exact Nat.le_refl _

/-- In a table in order, the last region that counts is the highest. -/
theorem calcRamSize_spec {l : List Entry} (hs : Sound seabios l) :
    (∀ e ∈ l, counted e → e.region.hi ≤ (calcRamSize l).toNat) ∧
    ((calcRamSize l).toNat = 0x100000 ∨
      ∃ e ∈ l, counted e ∧ (calcRamSize l).toNat = e.region.hi) := by
  have hend : ∀ e ∈ l, counted e → e.eEnd.toUInt32.toNat = e.region.hi := by
    intro e he hc
    have hle : e.eEnd.toNat ≤ 0xffffffff := UInt64.le_iff_toNat_le.mp (of_decide_eq_true hc).1
    rw [UInt64.toNat_toUInt32, ← eEnd_toNat (hs.bounded e he), Nat.mod_eq_of_lt (by omega)]
  unfold calcRamSize
  split
  case h_1 hnone =>
    refine ⟨fun e he hc => ?_, .inl rfl⟩
    exact absurd hc (List.find?_eq_none.mp hnone e (List.mem_reverse.mpr he))
  case h_2 e hsome =>
    obtain ⟨hc, pre, post, hl, hpost⟩ := List.find?_eq_some_iff_append.mp hsome
    have hsplit : l = post.reverse ++ e :: pre.reverse := by
      rw [← List.reverse_reverse l, hl]
      simp
    have hmem : e ∈ l := by rw [hsplit]; simp
    have htop : ∀ f ∈ l, counted f → f.region.hi ≤ e.region.hi := by
      intro f hf hcf
      rw [hsplit] at hf hs
      have hlt : e.region.lo < e.region.hi := hs.right.ordered.nonempty _ List.mem_cons_self
      rcases List.mem_append.mp hf with hf | hf
      · exact (hs.cross f hf e List.mem_cons_self).trans hlt.le
      · rcases List.mem_cons.mp hf with rfl | hf
        · exact Nat.le_refl _
        · exact absurd hcf (by simpa using hpost f (List.mem_reverse.mp hf))
    have hto := hend e hmem hc
    dsimp only
    split_ifs with hbig
    · exact ⟨fun f hf hcf => hto ▸ htop f hf hcf, .inr ⟨e, hmem, hc, hto⟩⟩
    · refine ⟨fun f hf hcf => (htop f hf hcf).trans ?_, .inl rfl⟩
      rw [← hto]
      exact (UInt32.lt_iff_toNat_lt.mp (UInt32.not_le.mp hbig)).le

theorem setLow_toUInt16 (r : UInt32) (v : UInt16) : (setLow r v).toUInt16 = v := by
  have hmask : (0xffff0000 : UInt32).toUInt16 = 0 := by decide
  rw [setLow, UInt32.toUInt16_or, UInt32.toUInt16_and, hmask]
  simp

/-- A size in units, where it fits a register. -/
theorem units_toNat {r b u : UInt32} (hle : b.toNat ≤ r.toNat)
    (hfit : (r.toNat - b.toNat) / u.toNat < 2 ^ 16) :
    ((r - b) / u).toUInt16.toNat = (r.toNat - b.toNat) / u.toNat := by
  rw [UInt32.toNat_toUInt16, UInt32.toNat_div,
    UInt32.toNat_sub_of_le _ _ (UInt32.le_iff_toNat_le.mpr hle), Nat.mod_eq_of_lt hfit]

/-- What E801h reports of `LegacyRamSize`, which loses no digit in the 16-bit registers. -/
theorem handle15e801_sizes {rs : UInt32} (hrs : 0x100000 ≤ rs.toNat) (regs : Bregs) :
    (handle15e801 rs regs).ecx.toUInt16.toNat =
      min (15 * 1024) ((rs.toNat - 0x100000) / 1024) ∧
    (handle15e801 rs regs).edx.toUInt16.toNat = (rs.toNat - 0x1000000) / 0x10000 := by
  have hlt := rs.toNat_lt
  simp only [handle15e801, setLow_toUInt16]
  by_cases hbig : rs > 0x1000000
  · have hmib : 0x1000000 < rs.toNat := UInt32.lt_iff_toNat_lt.mp hbig
    have hdx := units_toNat (r := rs) (b := 0x1000000) (u := 0x10000) hmib.le (by simp; omega)
    simp only [if_pos hbig, hdx, UInt32.reduceToNat, UInt16.reduceMul, UInt16.reduceToNat, and_true]
    omega
  · have hmib : rs.toNat ≤ 0x1000000 := UInt32.le_iff_toNat_le.mp (UInt32.not_lt.mp hbig)
    have hcx := units_toNat (r := rs) (b := 0x100000) (u := 1024) hrs (by simp; omega)
    simp only [if_neg hbig, hcx, UInt32.reduceToNat, UInt16.reduceToNat]
    omega

theorem handle15e801_copies (rs : UInt32) (regs : Bregs) :
    (handle15e801 rs regs).eax.toUInt16 = (handle15e801 rs regs).ecx.toUInt16 ∧
    (handle15e801 rs regs).ebx.toUInt16 = (handle15e801 rs regs).edx.toUInt16 := by
  simp only [handle15e801, setLow_toUInt16, and_self]

theorem handle1588_size {rs : UInt32} (hrs : 0x100000 ≤ rs.toNat) (regs : Bregs) :
    (handle1588 rs regs).eax.toUInt16.toNat =
      min (63 * 1024) ((rs.toNat - 0x100000) / 1024) := by
  simp only [handle1588, setLow_toUInt16]
  by_cases hbig : rs > 0x4000000
  · have hmib : 0x4000000 < rs.toNat := UInt32.lt_iff_toNat_lt.mp hbig
    simp only [if_pos hbig, UInt16.reduceMul, UInt16.reduceToNat]
    omega
  · have hmib : rs.toNat ≤ 0x4000000 := UInt32.le_iff_toNat_le.mp (UInt32.not_lt.mp hbig)
    have hax := units_toNat (r := rs) (b := 0x100000) (u := 1024) hrs (by simp; omega)
    simp only [if_neg hbig, hax, UInt32.reduceToNat]
    omega

/-- The older functions agree with the map. With `top` the end of the last usable region
below 4 GiB, but at least 1 MiB: the registers of E801h, each of them twice, and of 88h
hold the exact numbers of whole KiB and of whole 64 KiB up to `top` and their limits, so
that nothing past `top` is promised and E801h stops less than 64 KiB short of it. Regions
in between that are not usable do not count. -/
theorem sizes_agree {l : List Entry} (hs : Sound seabios l) (regs : Bregs) :
    ∃ top, 0x100000 ≤ top ∧ (∀ e ∈ l, counted e → e.region.hi ≤ top) ∧
      (top = 0x100000 ∨ ∃ e ∈ l, counted e ∧ e.region.hi = top) ∧
      (handle15e801 (calcRamSize l) regs).ecx.toUInt16.toNat =
        min (15 * 1024) ((top - 0x100000) / 1024) ∧
      (handle15e801 (calcRamSize l) regs).edx.toUInt16.toNat = (top - 0x1000000) / 0x10000 ∧
      (handle15e801 (calcRamSize l) regs).eax.toUInt16 =
        (handle15e801 (calcRamSize l) regs).ecx.toUInt16 ∧
      (handle15e801 (calcRamSize l) regs).ebx.toUInt16 =
        (handle15e801 (calcRamSize l) regs).edx.toUInt16 ∧
      0x100000 + 1024 * (handle15e801 (calcRamSize l) regs).ecx.toUInt16.toNat +
        65536 * (handle15e801 (calcRamSize l) regs).edx.toUInt16.toNat ≤ top ∧
      top < 0x110000 + 1024 * (handle15e801 (calcRamSize l) regs).ecx.toUInt16.toNat +
        65536 * (handle15e801 (calcRamSize l) regs).edx.toUInt16.toNat ∧
      (handle1588 (calcRamSize l) regs).eax.toUInt16.toNat =
        min (63 * 1024) ((top - 0x100000) / 1024) ∧
      0x100000 + 1024 * (handle1588 (calcRamSize l) regs).eax.toUInt16.toNat ≤ top := by
  obtain ⟨htop, hend⟩ := calcRamSize_spec hs
  have hmib := mib_le_calcRamSize l
  obtain ⟨hcx, hdx⟩ := handle15e801_sizes hmib regs
  obtain ⟨hax, hbx⟩ := handle15e801_copies (calcRamSize l) regs
  have h88 := handle1588_size hmib regs
  refine ⟨(calcRamSize l).toNat, hmib, htop, ?_, hcx, hdx, hax, hbx, ?_, ?_, h88, ?_⟩
  · exact hend.imp id fun ⟨e, he, hc, h⟩ => ⟨e, he, hc, h.symm⟩
  · rw [hcx, hdx]
    omega
  · rw [hcx, hdx]
    omega
  · rw [h88]
    omega

def sampleMap : List Entry := [⟨0, 0x80000, 1⟩, ⟨0x80000, 0x80000, 2⟩, ⟨0x100000, 0x1f00000, 1⟩]

theorem sampleMap_sound : Sound seabios sampleMap :=
  ⟨⟨by decide, by decide⟩, by decide, by decide⟩

theorem sizes_agree_sample :
    (handle15e801 (calcRamSize sampleMap) ⟨0xe801, 0, 0, 0, 0, 0, false⟩).ecx = 0x3c00 ∧
    (handle15e801 (calcRamSize sampleMap) ⟨0xe801, 0, 0, 0, 0, 0, false⟩).edx = 0x100 ∧
    ∃ top, (∀ e ∈ sampleMap, counted e → e.region.hi ≤ top) ∧
      (handle1588 (calcRamSize sampleMap) ⟨0x8800, 0, 0, 0, 0, 0, false⟩).eax.toUInt16.toNat =
        min (63 * 1024) ((top - 0x100000) / 1024) := by
  obtain ⟨top, -, htop, -, -, -, -, -, -, -, h88, -⟩ :=
    sizes_agree sampleMap_sound ⟨0x8800, 0, 0, 0, 0, 0, false⟩
  exact ⟨by decide, by decide, top, htop, h88⟩

end CsmWrap.Boot
