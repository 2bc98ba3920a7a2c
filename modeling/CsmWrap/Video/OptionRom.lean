import CsmWrap.ReadTrace
import Mathlib.Logic.Relation

/-!
# The legacy image of an option ROM

`GetPciLegacyRom` walks the chain of images in a PCI option ROM, whose bytes come
from the device, and picks the PC-AT image for a vendor and device. Positions are
offsets from `*Rom`.
-/

namespace CsmWrap.Video
open Memory ReadTrace

/-- The 16-bit words that memory can hold. -/
def addressSpaceWords (arch : Arch) : Nat := 2 ^ (8 * sizeofUintptr arch - 1)

/-- Memory from `*Rom` upwards, of which `*ImageSize` bytes are the ROM, as a build for `arch`
has it. -/
structure Rom where
  arch : Arch
  mem : Mem
  imageSize : Nat
  lt : imageSize < 2 * addressSpaceWords arch

/-- The arguments. The last three say whether the caller passed the optional
pointers. -/
structure Query where
  csm16Revision : UInt16
  vendorId : UInt16
  deviceId : UInt16
  maxRuntimeImageLength : Bool
  opRomRevision : Bool
  configUtilityCodeHeader : Bool

/-- `sizeof (EFI_PCI_ROM_HEADER)`: a union of pointers. -/
def sizeofRomHeader (arch : Arch) : Nat := sizeofUintptr arch

theorem sizeofRomHeader_pos (arch : Arch) : 0 < sizeofRomHeader arch := by
  cases arch <;> decide

theorem sizeofRomHeader_le (arch : Arch) : sizeofRomHeader arch ≤ 8 := by
  cases arch <;> decide

/-- `sizeof (PCI_DATA_STRUCTURE)`, the structure of PCI 2.x. -/
def sizeofPciDataStructure : Nat := 24

def expansionRomSignature : UInt16 := 0xaa55

/-- "PCIR" -/
def pciDataStructureSignature : UInt32 := 0x52494350

def codeTypePcatImage : UInt8 := 0x00

/-- The loop over the device id list, or `none` when it has run through all of
memory. -/
def searchDeviceList (mem : Mem) (deviceId : UInt16) : Nat → Nat → Traced (Option Bool)
  | 0, _ => pure none
  | fuel + 1, list => do
    let word ← fetch16 mem list
    if word = 0 then return some false
    if word = deviceId then return some true
    searchDeviceList mem deviceId fuel (list + 2)

/-- `Match`, for the data structure at `pcir`. -/
def matchDevice (rom : Rom) (q : Query) (pcir : Nat) : Traced (Option Bool) := do
  let codeType ← fetch8 rom.mem (pcir + 0x14)
  if codeType ≠ codeTypePcatImage then return some false
  let vendorId ← fetch16 rom.mem (pcir + 0x04)
  if vendorId ≠ q.vendorId then return some false
  let deviceId ← fetch16 rom.mem (pcir + 0x06)
  if deviceId = q.deviceId then return some true
  let revision ← fetch8 rom.mem (pcir + 0x0c)
  if revision < 3 then return some false
  let deviceListOffset ← fetch16 rom.mem (pcir + 0x08)
  if deviceListOffset = 0 then return some false
  searchDeviceList rom.mem q.deviceId (addressSpaceWords rom.arch) (pcir + deviceListOffset.toNat)

/-- Whether a matching image is of the generation of the CSM. -/
def perfect (csm16Revision : UInt16) (revision : UInt8) : Bool :=
  if csm16Revision ≥ 0x0300 then revision ≥ 3 else revision < 3

/-- The local variables of the loop. -/
structure Walk where
  pos : Nat
  bestImage : Option Nat
  backupImage : Option Nat

inductive Exit where
  | left (w : Walk)
  /-- The device id list has no end. -/
  | runaway

inductive Step where
  | next (w : Walk)
  | exit (e : Exit)

/-- The end of the loop body. -/
def advance (rom : Rom) (pcir : Nat) (w : Walk) : Traced Step := do
  let indicator ← fetch8 rom.mem (pcir + 0x15)
  if indicator &&& 0x80 = 0x80 then return .exit (.left w)
  let imageLength ← fetch16 rom.mem (pcir + 0x10)
  return .next { w with pos := w.pos + 512 * imageLength.toNat }

/-- The part of the loop body that looks for a match. -/
def examine (rom : Rom) (q : Query) (pcir : Nat) (w : Walk) : Traced Step := do
  match ← matchDevice rom q pcir with
  | none => return .exit .runaway
  | some false => advance rom pcir w
  | some true =>
    let revision ← fetch8 rom.mem (pcir + 0x0c)
    if perfect q.csm16Revision revision then
      return .exit (.left { w with bestImage := some w.pos })
    advance rom pcir { w with backupImage := some w.pos }

/-- One round of the loop. -/
def walkStep (rom : Rom) (q : Query) (w : Walk) : Traced Step := do
  let signature ← fetch16 rom.mem w.pos
  if signature ≠ expansionRomSignature then return .exit (.left w)
  let pcirOffset ← fetch16 rom.mem (w.pos + 0x18)
  let pcir := w.pos + pcirOffset.toNat
  if pcirOffset = 0 ∨ pcirOffset &&& 3 ≠ 0 ∨ rom.imageSize < pcir + sizeofPciDataStructure then
    return .exit (.left w)
  let signature ← fetch32 rom.mem pcir
  if signature ≠ pciDataStructureSignature then return .exit (.left w)
  let imageLength ← fetch16 rom.mem (pcir + 0x10)
  if w.pos + imageLength.toNat * 512 > rom.imageSize then return .exit (.left w)
  examine rom q pcir w

/-- The loop, for at most `fuel` rounds. -/
def walk (rom : Rom) (q : Query) : Nat → Walk → Traced (Option Exit)
  | 0, _ => pure none
  | fuel + 1, w => do
    match ← walkStep rom q w with
    | .next w => walk rom q fuel w
    | .exit e => return some e

inductive Status where
  | success
  | notFound
  deriving DecidableEq

/-- What the caller gets: the status, `*Rom` and `*ImageSize`, and the optional
values. -/
structure Outputs where
  status : Status
  rom : Nat
  imageSize : Nat
  maxRuntimeImageLength : Option Nat
  opRomRevision : Option UInt8
  configUtilityCodeHeader : Option (Option Nat)
  deriving DecidableEq

def outputMaxRuntimeImageLength (rom : Rom) (pcir : Nat) : Traced Nat := do
  let revision ← fetch8 rom.mem (pcir + 0x0c)
  if revision < 3 then return 0
  let maxRuntimeImageLength ← fetch16 rom.mem (pcir + 0x16)
  return maxRuntimeImageLength.toNat * 512

def outputOpRomRevision (rom : Rom) (pcir : Nat) : Traced UInt8 := do
  let length ← fetch16 rom.mem (pcir + 0x0a)
  if length < 0x1c then return 0
  fetch8 rom.mem (pcir + 0x0c)

def outputConfigUtilityCodeHeader (rom : Rom) (pos pcir : Nat) : Traced (Option Nat) := do
  let revision ← fetch8 rom.mem (pcir + 0x0c)
  if revision < 3 then return none
  let offset ← fetch16 rom.mem (pcir + 0x18)
  if offset = 0 then return none
  return some (pos + offset.toNat)

/-- An optional output is computed when the caller asks for it. -/
def requested {α : Type} (wanted : Bool) (output : Traced α) : Traced (Option α) :=
  if wanted then some <$> output else pure none

/-- The part after the loop. -/
def finish (rom : Rom) (q : Query) (w : Walk) : Traced Outputs :=
  match w.bestImage.or w.backupImage with
  | none => return ⟨.notFound, 0, rom.imageSize, none, none, none⟩
  | some pos => do
    let pcirOffset ← fetch16 rom.mem (pos + 0x18)
    let pcir := pos + pcirOffset.toNat
    let imageLength ← fetch16 rom.mem (pcir + 0x10)
    let maxRuntime ← requested q.maxRuntimeImageLength (outputMaxRuntimeImageLength rom pcir)
    let revision ← requested q.opRomRevision (outputOpRomRevision rom pcir)
    let header ← requested q.configUtilityCodeHeader (outputConfigUtilityCodeHeader rom pos pcir)
    return ⟨.success, pos, imageLength.toNat * 512, maxRuntime, revision, header⟩

inductive Result where
  | returned (out : Outputs)
  | runaway

def start : Walk := ⟨0, none, none⟩

/-- `none` when the loop has not come to an end after `fuel` rounds. -/
def getPciLegacyRom (rom : Rom) (q : Query) (fuel : Nat) : Traced (Option Result) := do
  if rom.imageSize < sizeofRomHeader rom.arch then
    return some (.returned ⟨.notFound, 0, rom.imageSize, none, none, none⟩)
  match ← walk rom q fuel start with
  | none => return none
  | some .runaway => return some .runaway
  | some (.left w) => (fun out => some (.returned out)) <$> finish rom q w

/-- The words of memory from `a` on, as an array of `n`. -/
def wordsAt (mem : Mem) : Nat → Nat → List UInt16
  | _, 0 => []
  | a, n + 1 => read16 mem a :: wordsAt mem (a + 2) n

theorem wordsAt_append (mem : Mem) (a m n : Nat) :
    wordsAt mem a (m + n) = wordsAt mem a m ++ wordsAt mem (a + 2 * m) n := by
  induction m generalizing a with
  | zero => simp [wordsAt]
  | succ m ih =>
    have hshift : a + 2 + 2 * m = a + 2 * (m + 1) := by omega
    rw [Nat.add_right_comm, wordsAt, ih, hshift]
    rfl

namespace Rom
variable (rom : Rom) (q : Query) (pos : Nat)

abbrev signature : UInt16 := read16 rom.mem pos
abbrev pcirOffset : UInt16 := read16 rom.mem (pos + 0x18)
abbrev pcir : Nat := pos + (rom.pcirOffset pos).toNat
abbrev pcirSignature : UInt32 := read32 rom.mem (rom.pcir pos)
abbrev vendorId : UInt16 := read16 rom.mem (rom.pcir pos + 0x04)
abbrev deviceId : UInt16 := read16 rom.mem (rom.pcir pos + 0x06)
abbrev deviceListOffset : UInt16 := read16 rom.mem (rom.pcir pos + 0x08)
abbrev revision : UInt8 := rom.mem (rom.pcir pos + 0x0c)
abbrev imageLength : UInt16 := read16 rom.mem (rom.pcir pos + 0x10)
abbrev codeType : UInt8 := rom.mem (rom.pcir pos + 0x14)
abbrev indicator : UInt8 := rom.mem (rom.pcir pos + 0x15)
abbrev deviceList : Nat := rom.pcir pos + (rom.deviceListOffset pos).toNat

/-- Where the image ends and the next one begins. -/
abbrev imageEnd : Nat := pos + 512 * (rom.imageLength pos).toNat

/-- The words from `a` to the end of the ROM. -/
def words (a : Nat) : List UInt16 := wordsAt rom.mem a ((rom.imageSize - a) / 2)

/-- An image that passes the checks at the head of the loop. -/
def Accepted : Prop :=
  rom.signature pos = expansionRomSignature ∧ rom.pcirOffset pos ≠ 0 ∧
    rom.pcirOffset pos &&& 3 = 0 ∧ rom.pcir pos + sizeofPciDataStructure ≤ rom.imageSize ∧
    rom.pcirSignature pos = pciDataStructureSignature ∧ rom.imageEnd pos ≤ rom.imageSize

def Last : Prop := rom.indicator pos &&& 0x80 = 0x80

/-- An image whose device id list is searched. -/
def Scanned : Prop :=
  rom.codeType pos = codeTypePcatImage ∧ rom.vendorId pos = q.vendorId ∧
    rom.deviceId pos ≠ q.deviceId ∧ 3 ≤ rom.revision pos ∧ rom.deviceListOffset pos ≠ 0

/-- The search comes to an end within the ROM. -/
def ListEnds : Prop := ∃ word ∈ rom.words (rom.deviceList pos), word = 0 ∨ word = q.deviceId

instance : Decidable (rom.Accepted pos) := inferInstanceAs (Decidable (_ ∧ _))
instance : Decidable (rom.Last pos) := inferInstanceAs (Decidable (_ = _))
instance : Decidable (rom.Scanned q pos) := inferInstanceAs (Decidable (_ ∧ _))
instance : Decidable (rom.ListEnds q pos) := List.decidableBEx _ _

/-- What `Match` becomes. -/
def matched : Option Bool := (matchDevice rom q (rom.pcir pos)).value

end Rom

theorem searchDeviceList_value (mem : Mem) (deviceId : UInt16) (fuel list : Nat) :
    (searchDeviceList mem deviceId fuel list).value =
      ((wordsAt mem list fuel).find? fun word => word = 0 ∨ word = deviceId).map
        fun word => decide (word ≠ 0) := by
  induction fuel generalizing list with
  | zero => rfl
  | succ fuel ih =>
    simp only [searchDeviceList, wordsAt, Traced.value_fetch16, Traced.value_ite, Traced.value_pure,
      ih]
    by_cases hzero : read16 mem list = 0
    · simp [hzero]
    · by_cases hdev : read16 mem list = deviceId
      · rw [hdev] at hzero
        simp [hzero, hdev]
      · simp [hzero, hdev]

/-- The search stays below `size` just when it ends there. -/
theorem searchDeviceList_within (mem : Mem) (deviceId : UInt16) (size fuel list : Nat)
    (hfuel : 0 < fuel) (hlong : size < list + 2 * fuel) :
    (searchDeviceList mem deviceId fuel list).Within size ↔
      ∃ word ∈ wordsAt mem list ((size - list) / 2), word = 0 ∨ word = deviceId := by
  induction fuel generalizing list with
  | zero => omega
  | succ fuel ih =>
    simp only [searchDeviceList, Traced.within_fetch16, Traced.within_ite, Traced.within_pure]
    by_cases hroom : list + 2 ≤ size
    · obtain ⟨n, hn⟩ : ∃ n, (size - list) / 2 = n + 1 := ⟨(size - list) / 2 - 1, by omega⟩
      have hrest : (size - (list + 2)) / 2 = n := by omega
      have ih := ih (list + 2) (by omega) (by omega)
      rw [hn, wordsAt, List.exists_mem_cons_iff, ih, hrest]
      by_cases hzero : read16 mem list = 0
      · simp [hzero, hroom]
      · by_cases hdev : read16 mem list = deviceId
        · simp [hdev, hroom]
        · simp [hzero, hdev, hroom]
    · have hnone : (size - list) / 2 = 0 := by omega
      rw [hnone]
      simp [wordsAt, hroom]

theorem matched_eq (rom : Rom) (q : Query) (pos : Nat) :
    rom.matched q pos =
      if rom.Scanned q pos then
        ((wordsAt rom.mem (rom.deviceList pos) (addressSpaceWords rom.arch)).find? fun word =>
          word = 0 ∨ word = q.deviceId).map fun word => decide (word ≠ 0)
      else some (rom.codeType pos = codeTypePcatImage ∧ rom.vendorId pos = q.vendorId ∧
        rom.deviceId pos = q.deviceId) := by
  unfold Rom.matched matchDevice Rom.Scanned
  simp only [Traced.value_fetch8, Traced.value_fetch16, Traced.value_ite, Traced.value_pure,
    searchDeviceList_value]
  -- the tests in the order of the source
  by_cases hcode : rom.codeType pos = codeTypePcatImage
  · by_cases hvendor : rom.vendorId pos = q.vendorId
    · by_cases hdevice : rom.deviceId pos = q.deviceId
      · simp [hcode, hvendor, hdevice]
      · by_cases hrev : rom.revision pos < 3
        · simp [hcode, hvendor, hdevice, hrev, UInt8.not_le.mpr hrev]
        · simp [hcode, hvendor, hdevice, hrev, UInt8.not_lt.mp hrev]
    · simp [hcode, hvendor]
  · simp [hcode]

theorem matchDevice_within (rom : Rom) (q : Query) {pos : Nat}
    (hpcir : rom.pcir pos + sizeofPciDataStructure ≤ rom.imageSize) :
    (matchDevice rom q (rom.pcir pos)).Within rom.imageSize ↔
      (rom.Scanned q pos → rom.ListEnds q pos) := by
  have hlist := searchDeviceList_within rom.mem q.deviceId rom.imageSize
    (addressSpaceWords rom.arch) (rom.deviceList pos) (Nat.two_pow_pos _)
    (by have := rom.lt; omega)
  have hfield : ∀ k n, k + n ≤ 24 → rom.pcir pos + k + n ≤ rom.imageSize := by
    intro k n hn
    unfold sizeofPciDataStructure at hpcir
    omega
  unfold matchDevice Rom.Scanned
  simp only [Traced.within_fetch8, Traced.within_fetch16, Traced.within_ite, Traced.within_pure,
    hlist]
  by_cases hcode : rom.codeType pos = codeTypePcatImage
  · by_cases hvendor : rom.vendorId pos = q.vendorId
    · by_cases hdevice : rom.deviceId pos = q.deviceId
      · simp [hcode, hvendor, hdevice, hfield]
      · by_cases hrev : rom.revision pos < 3
        · simp [hcode, hvendor, hdevice, hrev, UInt8.not_le.mpr hrev, hfield]
        · by_cases hoffset : rom.deviceListOffset pos = 0
          · simp [hcode, hvendor, hdevice, hrev, hoffset, hfield]
          · simp [hcode, hvendor, hdevice, hrev, UInt8.not_lt.mp hrev, hoffset, hfield,
              Rom.ListEnds, Rom.words]
    · simp [hcode, hvendor, hfield]
  · simp [hcode, hfield]

/-- A matching image that is not perfect is kept. -/
def Walk.note (w : Walk) (matching : Bool) : Walk :=
  if matching then { w with backupImage := some w.pos } else w

theorem advance_value (rom : Rom) (w : Walk) :
    (advance rom (rom.pcir w.pos) w).value =
      if rom.Last w.pos then .exit (.left w) else .next { w with pos := rom.imageEnd w.pos } := by
  unfold advance
  simp only [Traced.value_fetch8, Traced.value_fetch16, Traced.value_ite, Traced.value_pure]
  rfl

theorem examine_value (rom : Rom) (q : Query) (w : Walk) :
    (examine rom q (rom.pcir w.pos) w).value =
      match rom.matched q w.pos with
      | none => .exit .runaway
      | some matching =>
        if matching && perfect q.csm16Revision (rom.revision w.pos) then
          .exit (.left { w with bestImage := some w.pos })
        else if rom.Last w.pos then .exit (.left (w.note matching))
        else .next { w.note matching with pos := rom.imageEnd w.pos } := by
  unfold examine
  rw [Traced.value_bind, ← Rom.matched]
  rcases rom.matched q w.pos with _ | _ | _
  · rfl
  · exact advance_value rom w
  · dsimp only
    rw [Traced.value_fetch8, Traced.value_ite]
    split
    · next hperfect => simp [hperfect]
    · next hperfect =>
      rw [advance_value rom { w with backupImage := some w.pos }]
      simp [hperfect, Walk.note]

theorem examine_within (rom : Rom) (q : Query) {w : Walk}
    (hpcir : rom.pcir w.pos + sizeofPciDataStructure ≤ rom.imageSize) :
    (examine rom q (rom.pcir w.pos) w).Within rom.imageSize ↔
      (rom.Scanned q w.pos → rom.ListEnds q w.pos) := by
  have hmatch := matchDevice_within rom q hpcir
  unfold sizeofPciDataStructure at hpcir
  have hadvance : ∀ w' : Walk, (advance rom (rom.pcir w.pos) w').Within rom.imageSize := by
    intro w'
    unfold advance
    simp only [Traced.within_fetch8, Traced.within_fetch16, Traced.within_ite, Traced.within_pure,
      and_true, if_true_left]
    omega
  unfold examine
  rw [Traced.within_bind, hmatch, and_iff_left]
  split
  · exact Traced.within_pure _ _
  · exact hadvance w
  · rw [Traced.within_fetch8, Traced.within_ite]
    refine ⟨by omega, ?_⟩
    split
    · exact Traced.within_pure _ _
    · exact hadvance _

theorem walkStep_value (rom : Rom) (q : Query) (w : Walk) :
    (walkStep rom q w).value =
      if rom.Accepted w.pos then (examine rom q (rom.pcir w.pos) w).value else .exit (.left w) := by
  have hlength : w.pos + (rom.imageLength w.pos).toNat * 512 = rom.imageEnd w.pos :=
    congrArg (w.pos + ·) (Nat.mul_comm _ _)
  unfold walkStep
  dsimp only
  rw [Traced.value_fetch16, Traced.value_ite, Traced.value_fetch16, Traced.value_ite,
    Traced.value_fetch32, Traced.value_ite, Traced.value_fetch16, Traced.value_ite, hlength]
  by_cases hacc : rom.Accepted w.pos
  · rw [if_pos hacc]
    obtain ⟨hsig, hoffset, haligned, hpcir, hpcirSig, hinside⟩ := hacc
    rw [if_neg (not_not.mpr hsig), if_neg, if_neg (not_not.mpr hpcirSig),
      if_neg (Nat.not_lt.mpr hinside)]
    rintro (h | h | h)
    · exact hoffset h
    · exact h haligned
    · exact Nat.not_lt.mpr hpcir h
  · rw [if_neg hacc]
    split
    · rfl
    · split
      · rfl
      · split
        · rfl
        · split
          · rfl
          · next hsig hhead hpcirSig hinside =>
            simp only [not_or, ne_eq, not_not, Nat.not_lt] at hsig hhead hpcirSig hinside
            exact absurd ⟨hsig, hhead.1, hhead.2.1, hhead.2.2, hpcirSig, hinside⟩ hacc

/-- The ways a round can end. -/
inductive Round (rom : Rom) (q : Query) (w : Walk) : Step → Prop
  | rejected (hacc : ¬ rom.Accepted w.pos) : Round rom q w (.exit (.left w))
  | runaway (hacc : rom.Accepted w.pos) (hmatch : rom.matched q w.pos = none) :
      Round rom q w (.exit .runaway)
  | best (hacc : rom.Accepted w.pos) (hmatch : rom.matched q w.pos = some true)
      (hperfect : perfect q.csm16Revision (rom.revision w.pos) = true) :
      Round rom q w (.exit (.left { w with bestImage := some w.pos }))
  | last (hacc : rom.Accepted w.pos) (matching : Bool)
      (hmatch : rom.matched q w.pos = some matching)
      (hperfect : (matching && perfect q.csm16Revision (rom.revision w.pos)) = false)
      (hlast : rom.Last w.pos) : Round rom q w (.exit (.left (w.note matching)))
  | next (hacc : rom.Accepted w.pos) (matching : Bool)
      (hmatch : rom.matched q w.pos = some matching)
      (hperfect : (matching && perfect q.csm16Revision (rom.revision w.pos)) = false)
      (hlast : ¬ rom.Last w.pos) :
      Round rom q w (.next { w.note matching with pos := rom.imageEnd w.pos })

theorem walkStep_round (rom : Rom) (q : Query) (w : Walk) :
    Round rom q w (walkStep rom q w).value := by
  rw [walkStep_value]
  by_cases hacc : rom.Accepted w.pos
  · rw [if_pos hacc, examine_value]
    cases hmatch : rom.matched q w.pos with
    | none => exact .runaway hacc hmatch
    | some matching =>
      by_cases hperfect : (matching && perfect q.csm16Revision (rom.revision w.pos)) = true
      · obtain ⟨rfl, hperfect'⟩ := Bool.and_eq_true_iff.mp hperfect
        simp only [hperfect, if_true]
        exact .best hacc hmatch hperfect'
      · rw [Bool.not_eq_true] at hperfect
        by_cases hlast : rom.Last w.pos
        · simp only [hperfect, hlast, if_true, Bool.false_eq_true, if_false]
          exact .last hacc matching hmatch hperfect hlast
        · simp only [hperfect, hlast, Bool.false_eq_true, if_false]
          exact .next hacc matching hmatch hperfect hlast
  · rw [if_neg hacc]
    exact .rejected hacc

theorem walkStep_within (rom : Rom) (q : Query) (w : Walk) :
    (walkStep rom q w).Within rom.imageSize ↔
      w.pos + 2 ≤ rom.imageSize ∧
      (rom.signature w.pos = expansionRomSignature → w.pos + 0x1a ≤ rom.imageSize) ∧
      (rom.Accepted w.pos → rom.Scanned q w.pos → rom.ListEnds q w.pos) := by
  have hlength : w.pos + (rom.imageLength w.pos).toNat * 512 = rom.imageEnd w.pos :=
    congrArg (w.pos + ·) (Nat.mul_comm _ _)
  unfold walkStep
  dsimp only
  rw [Traced.within_fetch16, Traced.within_ite, Traced.within_fetch16, Traced.within_ite,
    Traced.within_fetch32, Traced.within_ite, Traced.within_fetch16, Traced.within_ite, hlength]
  simp only [Traced.within_pure]
  by_cases hsig : rom.signature w.pos = expansionRomSignature
  · rw [if_neg (not_not.mpr hsig)]
    apply and_congr_right'
    apply and_congr (by simp [hsig])
    -- from here on the data structure is known to be inside
    by_cases hacc : rom.Accepted w.pos
    · obtain ⟨-, hoffset, haligned, hpcir, hpcirSig, hinside⟩ := id hacc
      have hhead : ¬ (rom.pcirOffset w.pos = 0 ∨ rom.pcirOffset w.pos &&& 3 ≠ 0 ∨
          rom.imageSize < rom.pcir w.pos + sizeofPciDataStructure) := by
        simp [hoffset, haligned, hpcir]
      rw [if_neg hhead, if_neg (not_not.mpr hpcirSig), if_neg (Nat.not_lt.mpr hinside),
        examine_within rom q hpcir]
      unfold Rom.pcir Rom.pcirOffset sizeofPciDataStructure at hpcir
      exact ⟨fun h _ => h.2.2, fun h => ⟨by omega, by omega, h hacc⟩⟩
    · refine iff_of_true ?_ fun h => absurd h hacc
      split
      · trivial
      · next hhead =>
        simp only [not_or, ne_eq, not_not, Nat.not_lt, sizeofPciDataStructure] at hhead
        refine ⟨by omega, ?_⟩
        split
        · trivial
        · next hpcirSig =>
          refine ⟨by omega, ?_⟩
          split
          · trivial
          · next hinside =>
            rw [not_not] at hpcirSig
            exact absurd ⟨hsig, hhead.1, hhead.2.1, hhead.2.2, hpcirSig, Nat.not_lt.mp hinside⟩ hacc
  · simp [hsig, Rom.Accepted]

end CsmWrap.Video
