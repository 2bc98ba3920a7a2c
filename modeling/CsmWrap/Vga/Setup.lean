import CsmWrap.Vga.Vbe

/-!
# What `cbvga_setup` installs, and what it lists

For which records `cbvga_setup` ends with a geometry that it has checked: the
checks are made on 32 bits, and the mode keeps 16 of them. And for which tables
the list of modes and the lookup of a mode agree.
-/

namespace CsmWrap.Vga
open Coreboot Memory

/-- The record that `cbvga_setup` finds in memory. -/
def foundRecord (mem : Mem) : Option CbFramebuffer :=
  let cbh := findCbTable mem
  if cbh = 0 then none
  else
    let cbfb := findCbSubtable mem cbh cbTagFramebuffer
    if cbfb = 0 then none else some (framebufferAt mem cbfb)

theorem cbvgaSetup_found {mem : Mem} {fb : CbFramebuffer} (h : foundRecord mem = some fb)
    (st : State) :
    cbvgaSetup mem false st = (setupFramebuffer st fb).map fun st => (0, st) := by
  unfold foundRecord at h
  dsimp only at h
  split at h
  · cases h
  · next hcbh =>
    split at h
    · cases h
    · next hcbfb =>
      cases h
      unfold cbvgaSetup
      dsimp only
      rw [if_neg Bool.false_ne_true, if_neg hcbh, if_neg hcbfb]

theorem foundRecord_build (mem : Mem) {videoType : VideoType} (hv : videoType ≠ .oprom)
    (fb : CbFramebuffer)
    (hlow : ∀ addr < cbTableStart, addr % 16 = 0 →
      accepted (buildCorebootTable mem videoType fb) addr = false) :
    foundRecord (buildCorebootTable mem videoType fb) = some fb.tagged := by
  obtain ⟨htable, -, hrecord⟩ := findCbTable_build mem hv fb hlow
  unfold foundRecord
  simp only [htable, hrecord, framebufferAt_build mem hv]
  rfl

/-- Outside the table, a state is another one. -/
def SameSetup (base st : State) : Prop :=
  { st with svgaModes := base.svgaModes, svgaMcount := base.svgaMcount } = base

theorem SameSetup.append {base st : State} (h : SameSetup base st) (mode : UInt16)
    (set : VgaMode → VgaMode) : SameSetup base (appendMode st mode set) := h

theorem SameSetup.depths {base st : State} (h : SameSetup base st) (baseMode : UInt16)
    (x y : UInt32) (addr : UInt64) (pitch : UInt32) :
    SameSetup base (addModeDepthsForResolution st baseMode x y addr pitch) := by
  unfold addModeDepthsForResolution
  split
  · exact h
  · exact ((((h.append _ _).append _ _).append _ _).append _ _).append _ _

theorem sameSetup_registered (st : State) (addr : UInt64) (fbX fbY pitch : UInt32) :
    SameSetup st (registerEmulatedModes st addr fbX fbY pitch) := by
  have h0 : SameSetup st st := rfl
  exact ((((h0.depths 0x100 640 480 addr pitch).depths 0x110 800 600 addr pitch).depths
    0x120 1024 768 addr pitch).depths 0x130 1280 1024 addr pitch).depths 0x140 fbX fbY addr pitch

/-- What an accepted record becomes, whatever the size of the table. -/
theorem accepted_setup (st : State) (fb : CbFramebuffer) (hv : validFramebuffer fb = true) :
    ∃ st', setupFramebuffer st fb = some st' ∧ st'.cbMode = 0x143 ∧
      st'.cbModeinfo = { st.cbModeinfo with
        memmodel := .direct, width := fb.xResolution.toUInt16, height := fb.yResolution.toUInt16
        depth := effBpp fb, cwidth := 8, cheight := 16 } ∧
      st'.cbLinelength = fb.bytesPerLine ∧ st'.vbeFramebuffer = fb.physicalAddress.toUInt32 ∧
      st'.masks = saneMasks fb := by
  have hx : ¬ (fb.bitsPerPixel = 24 ∧ fb.xResolution = 0) := fun h => xResolution_ne_zero hv h.2
  unfold setupFramebuffer
  rw [if_neg hx]
  dsimp only
  rw [if_pos hv]
  refine ⟨_, rfl, ?_⟩
  rw [cbvgaSetupModes]
  generalize hst : State.mk _ _ _ _ _ _ _ _ _ _ = base
  have h := sameSetup_registered base fb.physicalAddress fb.xResolution fb.yResolution
    fb.bytesPerLine
  generalize registerEmulatedModes base _ _ _ _ = st' at h
  refine ⟨(congrArg State.cbMode h).trans ?_, (congrArg State.cbModeinfo h).trans ?_,
    (congrArg State.cbLinelength h).trans ?_, (congrArg State.vbeFramebuffer h).trans ?_,
    (congrArg State.masks h).trans ?_⟩
  all_goals rw [← hst]

/-- `cbvga_setup` has assumed EGA text. -/
structure State.TextFallback (st : State) : Prop where
  cbMode : st.cbMode = 0x03
  modeinfo : st.cbModeinfo = ⟨.text, 80, 25, 4, 9, 16, segCtext⟩
  linelength : st.cbLinelength = 80 * 2

/-- The mode has the geometry of the record, and the framebuffer ends below 4 GiB. -/
structure Validated (fb : CbFramebuffer) (st : State) : Prop where
  graphics : st.cbModeinfo.memmodel = .direct
  width : st.cbModeinfo.width.toNat = fb.xResolution.toNat ∧ 0 < fb.xResolution.toNat
  height : st.cbModeinfo.height.toNat = fb.yResolution.toNat ∧ 0 < fb.yResolution.toNat
  depth : st.cbModeinfo.depth = 16 ∨ st.cbModeinfo.depth = 24 ∨ st.cbModeinfo.depth = 32
  row : st.cbModeinfo.width.toNat * (st.cbModeinfo.depth.toNat / 8) ≤ st.cbLinelength.toNat
  address : st.vbeFramebuffer.toNat = fb.physicalAddress.toNat ∧ st.vbeFramebuffer ≠ 0
  below : fb.physicalAddress.toNat + st.cbLinelength.toNat * st.cbModeinfo.height.toNat ≤ 2 ^ 32

/-- Resolutions that fit the mode's fields, and a framebuffer that ends below 4 GiB. -/
structure Representable (fb : CbFramebuffer) : Prop where
  width : fb.xResolution.toNat < 65536
  height : fb.yResolution.toNat < 65536
  below : fb.physicalAddress.toNat + fb.bytesPerLine.toNat * fb.yResolution.toNat ≤ 2 ^ 32

theorem physicalAddress_le {fb : CbFramebuffer} (hv : validFramebuffer fb = true) :
    fb.physicalAddress.toNat < 2 ^ 32 := by
  simp only [validFramebuffer, Bool.not_eq_true', decide_eq_false_iff_not, not_or] at hv
  have hle := UInt64.le_iff_toNat_le.mp (UInt64.not_lt.mp hv.2.1)
  exact Nat.lt_succ_of_le hle

/-- `min_stride` is the length of a row where the resolution fits its field. -/
theorem row_le_stride {fb : CbFramebuffer} (hv : validFramebuffer fb = true)
    (hx : fb.xResolution.toNat < 65536) :
    fb.xResolution.toNat * ((effBpp fb).toNat / 8) ≤ fb.bytesPerLine.toNat := by
  have hrow := native_row hv hx
  obtain ⟨-, hbpp, -⟩ := valid_facts hv
  unfold rowBytes at hrow
  rw [toNat_toUInt16 hx] at hrow
  rcases hbpp with h | h | h
  all_goals
    rw [h] at hrow ⊢
    simp only [UInt8.reduceToNat] at hrow ⊢
    omega

theorem validated_iff {fb : CbFramebuffer} (hv : validFramebuffer fb = true) {st st' : State}
    (h : setupFramebuffer st fb = some st') : Validated fb st' ↔ Representable fb := by
  obtain ⟨st'', hsetup, -, hinfo, hline, haddr, -⟩ := accepted_setup st fb hv
  obtain rfl : st' = st'' := Option.some.inj (h.symm.trans hsetup)
  obtain ⟨hnz, hbpp, hx, hy, -⟩ := valid_facts hv
  have hlow := physicalAddress_le hv
  constructor
  · rintro ⟨-, ⟨hwidth, -⟩, ⟨hheight, -⟩, -, -, -, hbelow⟩
    have hw := st'.cbModeinfo.width.toNat_lt
    have hh := st'.cbModeinfo.height.toNat_lt
    refine ⟨by omega, by omega, ?_⟩
    rw [hheight, hline] at hbelow
    exact hbelow
  · rintro ⟨hwidth, hheight, hbelow⟩
    have hw : st'.cbModeinfo.width.toNat = fb.xResolution.toNat := by
      rw [hinfo]
      exact toNat_toUInt16 hwidth
    have hh : st'.cbModeinfo.height.toNat = fb.yResolution.toNat := by
      rw [hinfo]
      exact toNat_toUInt16 hheight
    have hdepth : st'.cbModeinfo.depth = effBpp fb := by rw [hinfo]
    refine ⟨by rw [hinfo], ⟨hw, ?_⟩, ⟨hh, ?_⟩, ?_, ?_, ⟨?_, ?_⟩, ?_⟩
    · exact Nat.pos_of_ne_zero fun e => hx (UInt32.toNat_inj.mp e)
    · exact Nat.pos_of_ne_zero fun e => hy (UInt32.toNat_inj.mp e)
    · rwa [hdepth]
    · rw [hw, hdepth, hline]
      exact row_le_stride hv hwidth
    · rw [haddr, UInt64.toNat_toUInt32, Nat.mod_eq_of_lt hlow]
    · rwa [haddr]
    · rwa [hline, hh]

/-- **Setup installs what it validated**, just when the record is not one of 24 bits
per pixel without columns, on which it divides by zero, and the checks turn it down
or it fits the fields of a mode and ends below 4 GiB. -/
theorem setup_validated_iff {mem : Mem} {fb : CbFramebuffer} (hfound : foundRecord mem = some fb)
    (st : State) :
    (∃ st', cbvgaSetup mem false st = some (0, st') ∧ (st'.TextFallback ∨ Validated fb st')) ↔
      ¬ (fb.bitsPerPixel = 24 ∧ fb.xResolution = 0) ∧
        (validFramebuffer fb = true → Representable fb) := by
  rw [cbvgaSetup_found hfound]
  by_cases hv : validFramebuffer fb = true
  · have hx : ¬ (fb.bitsPerPixel = 24 ∧ fb.xResolution = 0) := fun h => xResolution_ne_zero hv h.2
    obtain ⟨st₁, hsetup, hmode, -⟩ := accepted_setup st fb hv
    have hiff := validated_iff hv hsetup
    constructor
    · rintro ⟨st', hst', hgood⟩
      rw [hsetup] at hst'
      cases hst'
      refine ⟨hx, fun _ => hiff.mp (hgood.resolve_left ?_)⟩
      rintro ⟨htext, -⟩
      rw [hmode] at htext
      exact absurd htext (by decide)
    · rintro ⟨-, hfits⟩
      exact ⟨st₁, by rw [hsetup]; rfl, .inr (hiff.mpr (hfits hv))⟩
  · constructor
    · rintro ⟨st', hst', -⟩
      refine ⟨fun hz => ?_, fun h => absurd h hv⟩
      rw [setupFramebuffer, if_pos hz] at hst'
      cases hst'
    · rintro ⟨hz, -⟩
      rw [setupFramebuffer, if_neg hz]
      dsimp only
      rw [if_neg hv]
      exact ⟨_, rfl, .inl ⟨rfl, rfl, rfl⟩⟩

theorem setup_validated_sample :
    ∃ st', cbvgaSetup (buildCorebootTable (fun _ => 0) .seavgabios sampleFramebuffer) false
        blankState = some (0, st') ∧
      (st'.TextFallback ∨ Validated sampleFramebuffer.tagged st') := by
  have hfound := foundRecord_build (fun _ => 0) (by decide) sampleFramebuffer
    (accepted_build_empty sampleFramebuffer)
  exact (setup_validated_iff hfound blankState).mpr
    ⟨by decide, fun _ => ⟨by decide, by decide, by decide⟩⟩

/-- A record of 24 bits per pixel without columns makes `cbvga_setup` divide by zero,
and of 66560 columns the mode keeps 1024. -/
theorem setup_not_validated :
    cbvgaSetup (buildCorebootTable (fun _ => 0) .seavgabios
        { sampleFramebuffer with bitsPerPixel := 24, xResolution := 0 }) false blankState = none ∧
      ∃ st', cbvgaSetup (buildCorebootTable (fun _ => 0) .seavgabios
          { sampleFramebuffer with xResolution := 66560, bytesPerLine := 266240 }) false
          blankState = some (0, st') ∧ st'.cbMode = 0x143 ∧ st'.cbModeinfo.width = 1024 := by
  rw [cbvgaSetup_build _ (by decide) _ (accepted_build_empty _),
    cbvgaSetup_build _ (by decide) _ (accepted_build_empty _)]
  refine ⟨rfl, ?_⟩
  obtain ⟨st', hsetup, hmode, hinfo, -⟩ := accepted_setup blankState
    { sampleFramebuffer with xResolution := 66560, bytesPerLine := 266240 } (by decide)
  refine ⟨st', by rw [hsetup]; rfl, hmode, ?_⟩
  rw [hinfo]
  rfl

/-- The modes of the table but for the unused entries. -/
def State.tableModes (st : State) : List UInt16 :=
  (st.used.map SvgaMode.mode).filter fun m => m ≠ 0xffff

/-- The loop writes the table's modes as far as there is room. -/
theorem listLoop_eq (cbMode : Int) (room : Nat) (modes : List UInt16) :
    listLoop cbMode room modes =
      ((modes.filter fun m => m ≠ 0xffff).take room,
        room - (modes.filter fun m => m ≠ 0xffff).length,
        ((modes.filter fun m => m ≠ 0xffff).take room).any fun m => cbMode = m.toNat) := by
  induction modes generalizing room with
  | nil => simp [listLoop]
  | cons mode modes ih =>
    cases room with
    | zero => simp [listLoop]
    | succ room =>
      rw [listLoop]
      by_cases hmode : mode = 0xffff
      · rw [if_pos hmode, ih, List.filter_cons_of_neg (by simp [hmode])]
      · rw [if_neg hmode, ih, List.filter_cons_of_pos (by simp [hmode])]
        simp [Bool.or_comm]

/-- Every mode of the table is found, and so are the native one and text. -/
theorem find_isSome_iff (st : State) (mode : Int) :
    (cbvgaFindMode st mode).isSome = true ↔
      mode = st.cbMode ∨ mode = 0x03 ∨ ∃ m ∈ st.tableModes, (m.toNat : Int) = mode := by
  unfold cbvgaFindMode
  split
  · next h => simp [h]
  · next hcb =>
    split
    · next h => simp [h]
    · next htext =>
      simp only [Option.isSome_map, List.find?_isSome, hcb, htext, false_or, State.tableModes,
        List.mem_filter, List.mem_map, decide_eq_true_eq]
      constructor
      · rintro ⟨m, hm, hend, hmode⟩
        exact ⟨m.mode, ⟨⟨m, hm, rfl⟩, hend⟩, hmode⟩
      · rintro ⟨_, ⟨⟨m, hm, rfl⟩, hend⟩, hmode⟩
        exact ⟨m, hm, hend, hmode⟩

/-- The words before the terminator: the modes of the table, then the native mode if
it was not among them and there is room. -/
def State.listedWords (st : State) (room : Nat) : List UInt16 :=
  if st.cbMode = 0x03 then [0x03].take room
  else
    let words := st.tableModes.take room
    if st.tableModes.length < room ∧ (words.any fun m => st.cbMode = m.toNat) = false then
      words ++ [UInt16.ofInt st.cbMode]
    else words

theorem cbvgaListModes_eq (st : State) (room : Nat) :
    cbvgaListModes st room = st.listedWords room ++ [0xffff] := by
  unfold cbvgaListModes State.listedWords
  by_cases htext : st.cbMode = 0x03
  · rw [if_neg (not_not.mpr htext), if_pos htext, htext]
    cases room with
    | zero => rfl
    | succ room =>
      dsimp only
      rw [if_pos ⟨room.succ_pos, rfl⟩, List.take_succ_cons, List.take_nil]
      decide
  · rw [if_pos htext, if_neg htext, listLoop_eq]
    dsimp only
    rw [← State.tableModes]
    simp only [Nat.sub_pos_iff_lt]
    split <;> simp

theorem length_listedWords (st : State) (room : Nat) : (st.listedWords room).length ≤ room := by
  unfold State.listedWords
  split
  · exact List.length_take_le _ _
  · dsimp only
    split
    · next h =>
      rw [List.length_append, List.length_take]
      simp only [List.length_singleton]
      omega
    · exact List.length_take_le _ _

theorem length_tableModes (st : State) : st.tableModes.length ≤ st.svgaMcount := by
  unfold State.tableModes State.used
  refine (List.length_filter_le _ _).trans ?_
  rw [List.length_map]
  exact List.length_take_le _ _

theorem tableModes_ne {st : State} {m : UInt16} (h : m ∈ st.tableModes) : m ≠ 0xffff :=
  of_decide_eq_true (List.mem_filter.mp h).2

/-- The list and the lookup agree on a buffer of `room + 1` words. -/
structure ListsFound (st : State) (room : Nat) : Prop where
  inside : (cbvgaListModes st room).length ≤ room + 1
  listed : ∃ words, cbvgaListModes st room = words ++ [0xffff] ∧ 0xffff ∉ words ∧
    ∀ w ∈ words, (cbvgaFindMode st w.toNat).isSome = true
  complete : st.svgaMcount + 2 ≤ room + 1 → ∀ mode : Int, mode ≠ 0x03 → mode ≠ 0xffff →
    (cbvgaFindMode st mode).isSome = true → ∃ w ∈ cbvgaListModes st room, (w.toNat : Int) = mode

theorem listsFound_iff_words (st : State) (room : Nat) :
    ListsFound st room ↔
      (∀ w ∈ st.listedWords room, w ≠ 0xffff ∧ (cbvgaFindMode st w.toNat).isSome = true) ∧
      (st.svgaMcount < room → ∀ mode : Int, mode ≠ 0x03 → mode ≠ 0xffff →
        (cbvgaFindMode st mode).isSome = true →
          ∃ w ∈ st.listedWords room, (w.toNat : Int) = mode) := by
  have hlist := cbvgaListModes_eq st room
  constructor
  · rintro ⟨-, ⟨words, hwords, hend, hfound⟩, hcomplete⟩
    obtain rfl : words = st.listedWords room :=
      (List.append_left_inj _).mp (hwords.symm.trans hlist)
    refine ⟨fun w hw => ⟨fun e => hend (e ▸ hw), hfound w hw⟩, ?_⟩
    intro hroom mode htext hmode hsome
    obtain ⟨w, hw, rfl⟩ := hcomplete (by omega) mode htext hmode hsome
    rw [hlist, List.mem_append, List.mem_singleton] at hw
    rcases hw with hw | rfl
    · exact ⟨w, hw, rfl⟩
    · exact absurd rfl hmode
  · rintro ⟨hfound, hcomplete⟩
    refine ⟨?_, ⟨_, hlist, fun h => (hfound _ h).1 rfl, fun w hw => (hfound w hw).2⟩, ?_⟩
    · rw [hlist, List.length_append, List.length_singleton]
      exact Nat.succ_le_succ (length_listedWords st room)
    · intro hroom mode htext hmode hsome
      obtain ⟨w, hw, hwm⟩ := hcomplete (by omega) mode htext hmode hsome
      exact ⟨w, by rw [hlist]; exact List.mem_append_left _ hw, hwm⟩

/-- In text mode nothing of the table is listed. -/
theorem listsFound_text {st : State} (htext : st.cbMode = 0x03) (room : Nat) :
    ListsFound st room ↔ (st.svgaMcount < room → ∀ m ∈ st.tableModes, m = 0x03) := by
  have hwords : st.listedWords room = [0x03].take room := if_pos htext
  rw [listsFound_iff_words, hwords]
  constructor
  · rintro ⟨-, hcomplete⟩ hroom m hm
    by_contra hne
    have hthree : (m.toNat : Int) ≠ 0x03 := fun e =>
      hne (UInt16.toNat_inj.mp (Int.ofNat_inj.mp e))
    have hend : (m.toNat : Int) ≠ 0xffff := fun e =>
      tableModes_ne hm (UInt16.toNat_inj.mp (Int.ofNat_inj.mp e))
    obtain ⟨w, hw, hwm⟩ := hcomplete hroom m.toNat hthree hend
      ((find_isSome_iff st _).mpr (.inr (.inr ⟨m, hm, rfl⟩)))
    obtain rfl : w = 0x03 := List.mem_singleton.mp (List.mem_of_mem_take hw)
    exact hthree hwm.symm
  · intro htable
    constructor
    · intro w hw
      obtain rfl : w = 0x03 := List.mem_singleton.mp (List.mem_of_mem_take hw)
      exact ⟨by decide, (find_isSome_iff st _).mpr (.inr (.inl rfl))⟩
    · intro hroom mode hthree hend hsome
      rcases (find_isSome_iff st mode).mp hsome with h | h | ⟨m, hm, rfl⟩
      · exact absurd (h.trans htext) hthree
      · exact absurd h hthree
      · rw [htable hroom m hm] at hthree
        exact absurd rfl hthree

section
variable {st : State} (htext : st.cbMode ≠ 0x03) (room : Nat)
include htext

theorem mem_listedWords {w : UInt16} (hw : w ∈ st.listedWords room) :
    w ∈ st.tableModes ∨ st.tableModes.length < room ∧ w = UInt16.ofInt st.cbMode := by
  rw [State.listedWords, if_neg htext] at hw
  dsimp only at hw
  split at hw
  · next h =>
    rcases List.mem_append.mp hw with hw | hw
    · exact .inl (List.mem_of_mem_take hw)
    · exact .inr ⟨h.1, List.mem_singleton.mp hw⟩
  · exact .inl (List.mem_of_mem_take hw)

/-- With room for all, the table is listed, and the native mode with it. -/
theorem listedWords_all (hroom : st.tableModes.length < room) :
    (∀ m ∈ st.tableModes, m ∈ st.listedWords room) ∧
      ((∃ m ∈ st.tableModes, st.cbMode = m.toNat) ∨
        UInt16.ofInt st.cbMode ∈ st.listedWords room) := by
  rw [State.listedWords, if_neg htext]
  dsimp only
  rw [List.take_of_length_le hroom.le]
  split
  · exact ⟨fun m hm => List.mem_append_left _ hm,
      .inr (List.mem_append_right _ List.mem_cons_self)⟩
  · next h =>
    have hany := Bool.eq_true_of_not_eq_false fun hno => h ⟨hroom, hno⟩
    obtain ⟨m, hm, he⟩ := List.any_eq_true.mp hany
    exact ⟨fun m hm => hm, .inl ⟨m, hm, of_decide_eq_true he⟩⟩

/-- A native mode that is a number of 16 bits but not the terminator. -/
theorem listsFound_native (hlow : 0 ≤ st.cbMode) (hhigh : st.cbMode < 0xffff) :
    ListsFound st room := by
  have hword : ((UInt16.ofInt st.cbMode).toNat : Int) = st.cbMode := by
    obtain ⟨n, hn⟩ := Int.eq_ofNat_of_zero_le hlow
    rw [hn] at hhigh ⊢
    simp [UInt16.ofInt]
    omega
  rw [listsFound_iff_words]
  constructor
  · intro w hw
    rcases mem_listedWords htext room hw with hw | ⟨-, rfl⟩
    · exact ⟨tableModes_ne hw, (find_isSome_iff st _).mpr (.inr (.inr ⟨w, hw, rfl⟩))⟩
    · refine ⟨fun e => ?_, (find_isSome_iff st _).mpr (.inl hword)⟩
      rw [e] at hword
      exact absurd hword (by simp; omega)
  · intro hroom mode hthree hend hsome
    have hle := length_tableModes st
    obtain ⟨htable, hnative⟩ := listedWords_all htext room (by omega)
    rcases (find_isSome_iff st mode).mp hsome with rfl | h | ⟨m, hm, rfl⟩
    · rcases hnative with ⟨m, hm, he⟩ | hnative
      · exact ⟨m, htable m hm, he.symm⟩
      · exact ⟨_, hnative, hword⟩
    · exact absurd h hthree
    · exact ⟨m, htable m hm, rfl⟩

/-- A native mode that cannot be told from the terminator, or is cut to 16 bits. -/
theorem listsFound_foreign (hrange : ¬ (0 ≤ st.cbMode ∧ st.cbMode < 0xffff)) :
    ListsFound st room ↔ room ≤ st.svgaMcount ∧
      (st.tableModes.length < room → UInt16.ofInt st.cbMode ≠ 0xffff ∧
        (UInt16.ofInt st.cbMode = 0x03 ∨ UInt16.ofInt st.cbMode ∈ st.tableModes)) := by
  have hne : ∀ w : UInt16, w ≠ 0xffff → (w.toNat : Int) ≠ st.cbMode := by
    intro w hw he
    have hlt := w.toNat_lt
    have hend : w.toNat ≠ 0xffff := fun e => hw (UInt16.toNat_inj.mp e)
    omega
  have hle := length_tableModes st
  rw [listsFound_iff_words]
  constructor
  · rintro ⟨hfound, hcomplete⟩
    have happended : st.tableModes.length < room →
        UInt16.ofInt st.cbMode ∈ st.listedWords room := by
      intro hroom
      rcases (listedWords_all htext room hroom).2 with ⟨m, hm, he⟩ | h
      · exact absurd he.symm (hne m (tableModes_ne hm))
      · exact h
    constructor
    · by_contra hroom
      have hmem := happended (by omega)
      by_cases hend : st.cbMode = 0xffff
      · exact (hfound _ hmem).1 (by rw [hend]; decide)
      · obtain ⟨w, hw, he⟩ := hcomplete (by omega) st.cbMode htext hend
          ((find_isSome_iff st _).mpr (.inl rfl))
        exact hne w (hfound w hw).1 he
    · intro hroom
      obtain ⟨hend, hsome⟩ := hfound _ (happended hroom)
      refine ⟨hend, ?_⟩
      rcases (find_isSome_iff st _).mp hsome with h | h | ⟨m, hm, he⟩
      · exact absurd h (hne _ hend)
      · exact .inl (UInt16.toNat_inj.mp (Int.ofNat_inj.mp h))
      · exact .inr (UInt16.toNat_inj.mp (Int.ofNat_inj.mp he) ▸ hm)
  · rintro ⟨hroom, hword⟩
    refine ⟨fun w hw => ?_, fun h => absurd h (by omega)⟩
    rcases mem_listedWords htext room hw with hw | ⟨hlt, rfl⟩
    · exact ⟨tableModes_ne hw, (find_isSome_iff st _).mpr (.inr (.inr ⟨w, hw, rfl⟩))⟩
    · obtain ⟨hend, h⟩ := hword hlt
      refine ⟨hend, (find_isSome_iff st _).mpr (.inr ?_)⟩
      rcases h with h | h
      · exact .inl (by rw [h]; rfl)
      · exact .inr ⟨_, h, rfl⟩

end

/-- Where the list and the lookup agree. In text mode the table must be too large for
the buffer or hold nothing but text; a native mode must be a number of 16 bits other
than the terminator, or the buffer must be too small to list it. -/
def ListsFoundWhen (st : State) (room : Nat) : Prop :=
  if st.cbMode = 0x03 then st.svgaMcount < room → ∀ m ∈ st.tableModes, m = 0x03
  else 0 ≤ st.cbMode ∧ st.cbMode < 0xffff ∨
    room ≤ st.svgaMcount ∧ (st.tableModes.length < room → UInt16.ofInt st.cbMode ≠ 0xffff ∧
      (UInt16.ofInt st.cbMode = 0x03 ∨ UInt16.ofInt st.cbMode ∈ st.tableModes))

/-- **The list of modes and the lookup agree**, just when `ListsFoundWhen` says so. -/
theorem lists_found_iff (st : State) (room : Nat) :
    ListsFound st room ↔ ListsFoundWhen st room := by
  unfold ListsFoundWhen
  by_cases htext : st.cbMode = 0x03
  · rw [if_pos htext]
    exact listsFound_text htext room
  · rw [if_neg htext]
    by_cases hrange : 0 ≤ st.cbMode ∧ st.cbMode < 0xffff
    · exact iff_of_true (listsFound_native htext room hrange.1 hrange.2) (.inl hrange)
    · rw [or_iff_right hrange]
      exact listsFound_foreign htext room hrange

/-- A record without lines is turned down. The table is as it was, so that its modes
are still found, but only text is listed. -/
theorem lists_found_fallback :
    ∃ st', setupFramebuffer
        { blankState with
          svgaModes := [⟨0x100, .packed, 640, 400, 8, 8, 16, 0xa000⟩,
            ⟨0x101, .packed, 640, 480, 8, 8, 16, 0xa000⟩]
          svgaMcount := 2 }
        { sampleFramebuffer with yResolution := 0 } = some st' ∧
      cbvgaListModes st' vbeListRoom = [0x03, 0xffff] ∧
      (cbvgaFindMode st' 0x101).isSome = true ∧ ¬ ListsFound st' vbeListRoom := by
  refine ⟨_, rfl, by decide, by decide, fun h => ?_⟩
  obtain ⟨w, hw, hmode⟩ := h.complete (by decide) 0x101 (by decide) (by decide) (by decide)
  have hlist : w ∈ ([0x03, 0xffff] : List UInt16) := hw
  revert hmode
  rcases List.mem_pair.mp hlist with rfl | rfl <;> decide

end CsmWrap.Vga
