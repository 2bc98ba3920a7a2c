import CsmWrap.Video.OptionRom

/-!
# The walk over a ROM

When the walk over the images ends, when it stays inside the ROM, and which image
it picks from a well-formed one.
-/

namespace CsmWrap.Video
open Memory ReadTrace

namespace Rom
variable (rom : Rom) (q : Query)

/-- The loop goes on after the image at `pos`. -/
def GoesOn (pos : Nat) : Prop :=
  rom.Accepted pos ∧ ¬ rom.Last pos ∧ ∃ matching, rom.matched q pos = some matching ∧
    (matching && perfect q.csm16Revision (rom.revision pos)) = false

def Advances (pos next : Nat) : Prop := rom.GoesOn q pos ∧ next = rom.imageEnd pos

/-- The positions at which the loop looks for an image. -/
def Visited : Nat → Prop := Relation.ReflTransGen (rom.Advances q) 0

/-- From `a` on, the loop goes on from no image of length zero. -/
def Moves (a : Nat) : Prop :=
  ∀ pos, Relation.ReflTransGen (rom.Advances q) a pos → rom.GoesOn q pos → rom.imageLength pos ≠ 0

end Rom

section
variable {rom : Rom} {q : Query}

theorem walkStep_goesOn {w : Walk} (h : rom.GoesOn q w.pos) :
    ∃ matching, rom.matched q w.pos = some matching ∧
      (walkStep rom q w).value = .next { w.note matching with pos := rom.imageEnd w.pos } := by
  obtain ⟨hacc, hlast, matching, hmatch, hperfect⟩ := h
  have hround := walkStep_round rom q w
  generalize (walkStep rom q w).value = step at hround ⊢
  cases hround with
  | rejected hrej => exact absurd hacc hrej
  | runaway _ hnone =>
    rw [hmatch] at hnone
    cases hnone
  | best _ hbest hyes =>
    rw [hmatch] at hbest
    cases hbest
    rw [hyes] at hperfect
    cases hperfect
  | last _ _ _ _ hl => exact absurd hl hlast
  | next _ matching' hmatch' => exact ⟨matching', hmatch', rfl⟩

theorem walkStep_exit {w : Walk} (h : ¬ rom.GoesOn q w.pos) :
    ∃ e, (walkStep rom q w).value = .exit e := by
  have hround := walkStep_round rom q w
  generalize (walkStep rom q w).value = step at hround ⊢
  cases hround with
  | rejected | runaway | best | last => exact ⟨_, rfl⟩
  | next hacc matching hmatch hperfect hlast =>
    exact absurd ⟨hacc, hlast, matching, hmatch, hperfect⟩ h

theorem walk_next {w w' : Walk} (h : (walkStep rom q w).value = .next w') (fuel : Nat) :
    (walk rom q (fuel + 1) w).value = (walk rom q fuel w').value := by
  rw [walk, Traced.value_bind, h]

theorem walk_exit {w : Walk} {e : Exit} (h : (walkStep rom q w).value = .exit e) (fuel : Nat) :
    (walk rom q (fuel + 1) w).value = some e := by
  rw [walk, Traced.value_bind, h]
  rfl

/-- An image of length zero that is not the last leads to itself. -/
theorem walk_stalled {w : Walk} {pos : Nat}
    (hpath : Relation.ReflTransGen (rom.Advances q) w.pos pos) (hgo : rom.GoesOn q pos)
    (hlength : rom.imageLength pos = 0) (fuel : Nat) : (walk rom q fuel w).value = none := by
  induction fuel generalizing w with
  | zero => rfl
  | succ fuel ih =>
    cases hpath.cases_head with
    | inl hpos =>
      rw [← hpos] at hgo hlength
      obtain ⟨matching, -, hstep⟩ := walkStep_goesOn hgo
      rw [walk_next hstep]
      apply ih
      have hsame : rom.imageEnd w.pos = w.pos := by simp [Rom.imageEnd, hlength]
      rw [hsame, hpos]
    | inr hnext =>
      obtain ⟨next, ⟨hgoes, rfl⟩, hrest⟩ := hnext
      obtain ⟨matching, -, hstep⟩ := walkStep_goesOn hgoes
      rw [walk_next hstep]
      exact ih hrest

/-- Without such an image every round moves on, and no further than the end. -/
theorem walk_ends {w : Walk} (hmoves : rom.Moves q w.pos) (hinside : w.pos ≤ rom.imageSize)
    {fuel : Nat} (hfuel : rom.imageSize < w.pos + fuel) :
    (walk rom q fuel w).value.isSome := by
  induction fuel generalizing w with
  | zero => omega
  | succ fuel ih =>
    by_cases hgo : rom.GoesOn q w.pos
    · obtain ⟨matching, -, hstep⟩ := walkStep_goesOn hgo
      have hlength : (rom.imageLength w.pos).toNat ≠ 0 := fun h =>
        hmoves w.pos .refl hgo (UInt16.toNat_inj.mp h)
      have hend : rom.imageEnd w.pos ≤ rom.imageSize := hgo.1.2.2.2.2.2
      rw [walk_next hstep]
      apply ih
      · intro pos hpath
        exact hmoves pos (.head ⟨hgo, rfl⟩ hpath)
      · exact hend
      · dsimp only [Rom.imageEnd]
        omega
    · obtain ⟨e, hstep⟩ := walkStep_exit hgo
      rw [walk_exit hstep]
      rfl

theorem walk_start_ends (h : rom.Moves q 0) :
    (walk rom q (rom.imageSize + 1) start).value.isSome :=
  walk_ends (w := start) h (Nat.zero_le _) (by simp [start])

theorem moves_of_walk {fuel : Nat} (h : (walk rom q fuel start).value.isSome) : rom.Moves q 0 := by
  intro pos hvisited hgo hlength
  rw [walk_stalled (w := start) hvisited hgo hlength] at h
  cases h

/-- The search for the device id comes to an end somewhere in memory. -/
def Rom.ListStops (rom : Rom) (q : Query) (pos : Nat) : Prop :=
  ∃ word ∈ wordsAt rom.mem (rom.deviceList pos) (addressSpaceWords rom.arch),
    word = 0 ∨ word = q.deviceId

theorem matched_ne_none {pos : Nat} :
    rom.matched q pos ≠ none ↔ (rom.Scanned q pos → rom.ListStops q pos) := by
  rw [matched_eq]
  by_cases hscan : rom.Scanned q pos
  · rw [if_pos hscan, forall_prop_of_true hscan, Rom.ListStops, ne_eq, Option.map_eq_none_iff,
      List.find?_eq_none]
    simp only [decide_eq_true_eq, not_forall, not_not, exists_prop]
  · rw [if_neg hscan]
    exact iff_of_true nofun fun h => absurd h hscan

/-- A list without an end on the way. -/
theorem walk_lost {w : Walk} {pos : Nat}
    (hpath : Relation.ReflTransGen (rom.Advances q) w.pos pos) (hacc : rom.Accepted pos)
    (hlost : rom.matched q pos = none) (fuel : Nat) (w' : Walk) :
    (walk rom q fuel w).value ≠ some (.left w') := by
  induction fuel generalizing w with
  | zero => exact nofun
  | succ fuel ih =>
    cases hpath.cases_head with
    | inl hpos =>
      subst hpos
      have hround := walkStep_round rom q w
      generalize hstep : (walkStep rom q w).value = step at hround
      cases hround with
      | runaway =>
        rw [walk_exit hstep]
        exact nofun
      | rejected hrej => exact absurd hacc hrej
      | best _ hmatch | last _ _ hmatch | next _ _ hmatch =>
        rw [hlost] at hmatch
        cases hmatch
    | inr hnext =>
      obtain ⟨next, ⟨hgoes, rfl⟩, hrest⟩ := hnext
      obtain ⟨matching, -, hstep⟩ := walkStep_goesOn hgoes
      rw [walk_next hstep]
      exact ih hrest

/-- Where every list stops, the walk does not get lost in one. -/
theorem walk_left {w : Walk} {fuel : Nat}
    (hstops : ∀ pos, Relation.ReflTransGen (rom.Advances q) w.pos pos → rom.Accepted pos →
      rom.matched q pos ≠ none)
    (h : (walk rom q fuel w).value.isSome) : ∃ w', (walk rom q fuel w).value = some (.left w') := by
  induction fuel generalizing w with
  | zero => cases h
  | succ fuel ih =>
    have hround := walkStep_round rom q w
    generalize hstep : (walkStep rom q w).value = step at hround
    cases hround with
    | runaway hacc hmatch => exact absurd hmatch (hstops w.pos .refl hacc)
    | rejected | best | last => exact ⟨_, walk_exit hstep fuel⟩
    | next hacc matching hmatch hperfect hlast =>
      have hgo : rom.GoesOn q w.pos := ⟨hacc, hlast, matching, hmatch, hperfect⟩
      rw [walk_next hstep] at h ⊢
      exact ih (fun pos hpath => hstops pos (.head ⟨hgo, rfl⟩ hpath)) h

theorem getPciLegacyRom_small (hsize : ¬ sizeofRomHeader rom.arch ≤ rom.imageSize) (fuel : Nat) :
    getPciLegacyRom rom q fuel =
      pure (some (.returned ⟨.notFound, 0, rom.imageSize, none, none, none⟩)) := by
  unfold getPciLegacyRom
  rw [if_pos (Nat.lt_of_not_le hsize)]

theorem getPciLegacyRom_returned (hsize : sizeofRomHeader rom.arch ≤ rom.imageSize) (fuel : Nat) :
    (∃ out, (getPciLegacyRom rom q fuel).value = some (.returned out)) ↔
      ∃ w, (walk rom q fuel start).value = some (.left w) := by
  unfold getPciLegacyRom
  rw [if_neg (Nat.not_lt.mpr hsize), Traced.value_bind]
  rcases (walk rom q fuel start).value with _ | _ | _ <;> simp

theorem getPciLegacyRom_isSome (hsize : sizeofRomHeader rom.arch ≤ rom.imageSize) (fuel : Nat) :
    (getPciLegacyRom rom q fuel).value.isSome = (walk rom q fuel start).value.isSome := by
  unfold getPciLegacyRom
  rw [if_neg (Nat.not_lt.mpr hsize), Traced.value_bind]
  rcases (walk rom q fuel start).value with _ | _ | _ <;> rfl

end

/-- **When the walk ends.** The loop over the images does unless it comes to an image of
length zero after which it goes on. The function returns if in addition every list of
device ids that is searched has an end in memory. -/
theorem walk_terminates_iff (rom : Rom) (q : Query) :
    ((∃ fuel, (getPciLegacyRom rom q fuel).value.isSome) ↔
      (sizeofRomHeader rom.arch ≤ rom.imageSize → rom.Moves q 0)) ∧
    ((∃ fuel out, (getPciLegacyRom rom q fuel).value = some (.returned out)) ↔
      (sizeofRomHeader rom.arch ≤ rom.imageSize → rom.Moves q 0 ∧
        ∀ pos, rom.Visited q pos → rom.Accepted pos → rom.Scanned q pos →
          rom.ListStops q pos)) := by
  by_cases hsize : sizeofRomHeader rom.arch ≤ rom.imageSize
  · simp only [getPciLegacyRom_isSome hsize, getPciLegacyRom_returned hsize, hsize, true_imp_iff,
      ← matched_ne_none]
    refine ⟨⟨fun ⟨_, hsome⟩ => moves_of_walk hsome, fun h => ⟨_, walk_start_ends h⟩⟩, ?_, ?_⟩
    · rintro ⟨fuel, w, hleft⟩
      have hsome : (walk rom q fuel start).value.isSome := by rw [hleft]; rfl
      refine ⟨moves_of_walk hsome, fun pos hvisited hacc hlost => ?_⟩
      exact walk_lost (w := start) hvisited hacc hlost fuel w hleft
    · rintro ⟨hmoves, hstops⟩
      exact ⟨_, walk_left hstops (walk_start_ends hmoves)⟩
  · have hvalue := fun fuel => congrArg Traced.value (getPciLegacyRom_small (q := q) hsize fuel)
    exact ⟨iff_of_true ⟨0, by rw [hvalue]; rfl⟩ fun h => absurd h hsize,
      iff_of_true ⟨0, _, hvalue 0⟩ fun h => absurd h hsize⟩

/-- A ROM of one image without code for a PC, of length zero. -/
def emptyImage : Rom where
  arch := .x86_64
  mem a := [0x55, 0xaa, 0, 0, 0, 0, 0, 0, 0, 0, 0, 0, 0, 0, 0, 0, 0, 0, 0, 0, 0, 0, 0, 0, 0x1c, 0,
    0, 0, 0x50, 0x43, 0x49, 0x52, 0, 0, 0, 0, 0, 0, 0x18, 0, 0, 0, 0, 0, 0, 0, 0, 0, 3, 0].getD a 0
  imageSize := 64
  lt := by decide

/-- The query of `csmwrap_video_oprom_init`. -/
def oprom (vendorId deviceId : UInt16) : Query := ⟨0x0300, vendorId, deviceId, false, false, false⟩

/-- The walk stays at the first image forever. -/
theorem walk_terminates_empty :
    ¬ ∃ fuel, (getPciLegacyRom emptyImage (oprom 0x8086 0x46a6) fuel).value.isSome := by
  have hgo : emptyImage.GoesOn (oprom 0x8086 0x46a6) 0 := by
    refine ⟨by decide, by decide, false, ?_, rfl⟩
    rw [matched_eq]
    decide
  rintro ⟨fuel, hsome⟩
  rw [getPciLegacyRom_isSome (by decide), walk_stalled (w := start) .refl hgo (by decide)] at hsome
  cases hsome

/-! ## Reads -/

namespace Rom
variable (rom : Rom) (q : Query)

/-- What the round at `pos` reads is inside. -/
def StepInside (pos : Nat) : Prop :=
  pos + 2 ≤ rom.imageSize ∧
    (rom.signature pos = expansionRomSignature → pos + 0x1a ≤ rom.imageSize) ∧
    (rom.Accepted pos → rom.Scanned q pos → rom.ListEnds q pos)

/-- A PC-AT image for the device. -/
def Candidate (pos : Nat) : Prop :=
  rom.codeType pos = codeTypePcatImage ∧ rom.vendorId pos = q.vendorId ∧
    (rom.deviceId pos = q.deviceId ∨ 3 ≤ rom.revision pos ∧ rom.deviceListOffset pos ≠ 0 ∧
      q.deviceId ∈ (rom.words (rom.deviceList pos)).takeWhile (· ≠ 0))

instance (pos : Nat) : Decidable (rom.Candidate q pos) := inferInstanceAs (Decidable (_ ∧ _))

/-- An image that the loop keeps. -/
def Matches (pos : Nat) : Prop := rom.Accepted pos ∧ rom.Candidate q pos

/-- Of the images for the device from `a` on, the one at `pos` comes last. -/
def LastMatch (a pos : Nat) : Prop :=
  Relation.ReflTransGen (rom.Advances q) a pos ∧ rom.Matches q pos ∧
    ∀ next, Relation.TransGen (rom.Advances q) pos next → ¬ rom.Matches q next

/-- The ROMs in which the walk finds everything it reads: every position it comes to
has room for a signature, every signature is that of a whole header, every device id
list that is searched ends, and, if the header of the configuration utility is asked
for and the walk ends, its last match has the fields of PCI 3.0 when it says so. -/
structure ReadsInside : Prop where
  signature : ∀ pos, rom.Visited q pos → pos + 2 ≤ rom.imageSize
  header : ∀ pos, rom.Visited q pos → rom.signature pos = expansionRomSignature →
    pos + 0x1a ≤ rom.imageSize
  deviceList : ∀ pos, rom.Visited q pos → rom.Accepted pos → rom.Scanned q pos →
    rom.ListEnds q pos
  configUtility : q.configUtilityCodeHeader = true → rom.Moves q 0 → ∀ pos,
    rom.LastMatch q 0 pos → 3 ≤ rom.revision pos → rom.pcir pos + 0x1a ≤ rom.imageSize

end Rom

section
variable {rom : Rom} {q : Query}

theorem walk_within {w : Walk} :
    (∀ fuel, (walk rom q fuel w).Within rom.imageSize) ↔
      ∀ pos, Relation.ReflTransGen (rom.Advances q) w.pos pos → rom.StepInside q pos := by
  constructor
  · intro h pos hpath
    generalize ha : w.pos = a at hpath
    induction hpath using Relation.ReflTransGen.head_induction_on generalizing w with
    | refl =>
      have hone := h 1
      rw [walk, Traced.within_bind, walkStep_within, ha] at hone
      exact hone.1
    | head hadv _ ih =>
      obtain ⟨hgo, rfl⟩ := hadv
      rw [← ha] at hgo
      obtain ⟨matching, -, hstep⟩ := walkStep_goesOn hgo
      apply ih (w := { w.note matching with pos := rom.imageEnd w.pos })
      · intro fuel
        have hnext := h (fuel + 1)
        rw [walk, Traced.within_bind, hstep] at hnext
        exact hnext.2
      · rw [ha]
  · intro h fuel
    induction fuel generalizing w with
    | zero => exact Traced.within_pure _ _
    | succ fuel ih =>
      rw [walk, Traced.within_bind, walkStep_within]
      refine ⟨h w.pos .refl, ?_⟩
      by_cases hgo : rom.GoesOn q w.pos
      · obtain ⟨matching, -, hstep⟩ := walkStep_goesOn hgo
        rw [hstep]
        exact ih fun pos hpath => h pos (.head ⟨hgo, rfl⟩ hpath)
      · obtain ⟨e, hstep⟩ := walkStep_exit hgo
        rw [hstep]
        exact Traced.within_pure _ _

theorem find?_end {deviceId : UInt16} {l : List UInt16}
    (h : ∃ word ∈ l, word = 0 ∨ word = deviceId) :
    (l.find? fun word => word = 0 ∨ word = deviceId).map (fun word => decide (word ≠ 0)) =
      some (decide (deviceId ∈ l.takeWhile (· ≠ 0))) := by
  induction l with
  | nil => simp at h
  | cons word l ih =>
    by_cases hzero : word = 0
    · simp [hzero]
    · by_cases hdev : word = deviceId
      · rw [hdev] at hzero
        simp [hdev, hzero]
      · have hrest : ∃ word ∈ l, word = 0 ∨ word = deviceId := by
          simpa [hzero, hdev] using h
        simpa [hzero, hdev, Ne.symm hdev] using ih hrest

/-- `Match` says whether the image is one for the device. -/
theorem matched_candidate {pos : Nat} (h : rom.Scanned q pos → rom.ListEnds q pos) :
    rom.matched q pos = some (decide (rom.Candidate q pos)) := by
  rw [matched_eq]
  by_cases hscan : rom.Scanned q pos
  · obtain ⟨hcode, hvendor, hdevice, hrev, hoffset⟩ := id hscan
    have hwords : wordsAt rom.mem (rom.deviceList pos) (addressSpaceWords rom.arch) =
        rom.words (rom.deviceList pos) ++ wordsAt rom.mem
          (rom.deviceList pos + 2 * ((rom.imageSize - rom.deviceList pos) / 2))
          (addressSpaceWords rom.arch - (rom.imageSize - rom.deviceList pos) / 2) := by
      rw [Rom.words, ← wordsAt_append]
      congr 1
      have hlt := rom.lt
      omega
    rw [if_pos hscan, hwords, List.find?_append]
    have hend := find?_end (h hscan)
    obtain ⟨word, hfind, hword⟩ := Option.map_eq_some_iff.mp hend
    rw [hfind, Option.some_or, Option.map_some, hword]
    simp [Rom.Candidate, hcode, hvendor, hdevice, hrev, hoffset]
  · rw [if_neg hscan]
    refine congrArg some (decide_eq_decide.mpr ?_)
    constructor
    · rintro ⟨hcode, hvendor, hdevice⟩
      exact ⟨hcode, hvendor, .inl hdevice⟩
    · rintro ⟨hcode, hvendor, hdevice | ⟨hrev, hoffset, _⟩⟩
      · exact ⟨hcode, hvendor, hdevice⟩
      · -- another device, whose list is then searched
        by_cases hdevice : rom.deviceId pos = q.deviceId
        · exact ⟨hcode, hvendor, hdevice⟩
        · exact absurd ⟨hcode, hvendor, hdevice, hrev, hoffset⟩ hscan

/-! The image that is returned is the last match: a match of the generation of the CSM
ends the walk, and of the others each replaces the one before. -/

theorem reach_iff {a b : Nat} : Relation.ReflTransGen (rom.Advances q) a b ↔
    b = a ∨ rom.GoesOn q a ∧ Relation.ReflTransGen (rom.Advances q) (rom.imageEnd a) b := by
  rw [Relation.ReflTransGen.cases_head_iff]
  apply or_congr eq_comm
  constructor
  · rintro ⟨_, ⟨hgo, rfl⟩, hrest⟩
    exact ⟨hgo, hrest⟩
  · rintro ⟨hgo, hrest⟩
    exact ⟨_, ⟨hgo, rfl⟩, hrest⟩

theorem reach_stop {a b : Nat} (hstop : ¬ rom.GoesOn q a) :
    Relation.ReflTransGen (rom.Advances q) a b ↔ b = a := by
  rw [reach_iff, or_iff_left fun h => hstop h.1]

theorem lastMatch_stop {a pos : Nat} (hstop : ¬ rom.GoesOn q a) :
    rom.LastMatch q a pos ↔ pos = a ∧ rom.Matches q a := by
  unfold Rom.LastMatch
  rw [reach_stop hstop]
  constructor
  · rintro ⟨rfl, hmatch, -⟩
    exact ⟨rfl, hmatch⟩
  · rintro ⟨rfl, hmatch⟩
    refine ⟨rfl, hmatch, fun next hnext => ?_⟩
    obtain ⟨_, ⟨hgo, -⟩, -⟩ := Relation.TransGen.head'_iff.mp hnext
    exact absurd hgo hstop

theorem lastMatch_next {a pos : Nat} (hgo : rom.GoesOn q a) :
    rom.LastMatch q a pos ↔ rom.LastMatch q (rom.imageEnd a) pos ∨ pos = a ∧ rom.Matches q a ∧
      ∀ next, Relation.ReflTransGen (rom.Advances q) (rom.imageEnd a) next →
        ¬ rom.Matches q next := by
  constructor
  · rintro ⟨hreach, hmatch, hlater⟩
    rcases reach_iff.mp hreach with rfl | ⟨-, hreach⟩
    · exact .inr ⟨rfl, hmatch, fun next hnext => hlater next (.head' ⟨hgo, rfl⟩ hnext)⟩
    · exact .inl ⟨hreach, hmatch, hlater⟩
  · rintro (⟨hreach, hmatch, hlater⟩ | ⟨rfl, hmatch, hlater⟩)
    · exact ⟨.head ⟨hgo, rfl⟩ hreach, hmatch, hlater⟩
    · refine ⟨.refl, hmatch, fun next hnext => ?_⟩
      obtain ⟨_, ⟨-, rfl⟩, hrest⟩ := Relation.TransGen.head'_iff.mp hnext
      exact hlater next hrest

/-- What is selected when the walk from `a` on ends and `backup` was kept before. -/
def Rom.Selected (rom : Rom) (q : Query) (a : Nat) (backup : Option Nat) (pos : Nat) : Prop :=
  rom.LastMatch q a pos ∨ backup = some pos ∧
    ∀ next, Relation.ReflTransGen (rom.Advances q) a next → ¬ rom.Matches q next

theorem selected_stop_match {a pos : Nat} (hstop : ¬ rom.GoesOn q a) (hmatch : rom.Matches q a)
    (backup : Option Nat) : rom.Selected q a backup pos ↔ some a = some pos := by
  unfold Rom.Selected
  rw [lastMatch_stop hstop, Option.some_inj, or_iff_left fun h => h.2 a .refl hmatch,
    and_iff_left hmatch, eq_comm]

theorem selected_stop {a pos : Nat} (hstop : ¬ rom.GoesOn q a) (hno : ¬ rom.Matches q a)
    (backup : Option Nat) : rom.Selected q a backup pos ↔ backup = some pos := by
  unfold Rom.Selected
  rw [lastMatch_stop hstop, or_iff_right fun h => hno h.2, and_iff_left_iff_imp]
  intro _ next hnext
  rw [(reach_stop hstop).mp hnext]
  exact hno

theorem selected_next_match {a pos : Nat} (hgo : rom.GoesOn q a) (hmatch : rom.Matches q a)
    (backup : Option Nat) : rom.Selected q a backup pos ↔
      rom.Selected q (rom.imageEnd a) (some a) pos := by
  unfold Rom.Selected
  rw [lastMatch_next hgo, or_iff_left fun h => h.2 a .refl hmatch, Option.some_inj, eq_comm,
    and_iff_right hmatch]

theorem selected_next {a pos : Nat} (hgo : rom.GoesOn q a) (hno : ¬ rom.Matches q a)
    (backup : Option Nat) : rom.Selected q a backup pos ↔
      rom.Selected q (rom.imageEnd a) backup pos := by
  unfold Rom.Selected
  have hlast : rom.LastMatch q a pos ↔ rom.LastMatch q (rom.imageEnd a) pos := by
    rw [lastMatch_next hgo, or_iff_left fun h => hno h.2.1]
  apply or_congr hlast
  apply and_congr_right'
  constructor
  · intro h next hnext
    exact h next (.head ⟨hgo, rfl⟩ hnext)
  · intro h next hnext
    rcases reach_iff.mp hnext with rfl | ⟨-, hrest⟩
    · exact hno
    · exact h next hrest

/-- The round that ends the walk. -/
theorem selected_exit {w w' : Walk} (hbest : w.bestImage = none)
    (hlist : rom.Accepted w.pos → rom.Scanned q w.pos → rom.ListEnds q w.pos)
    (hround : Round rom q w (.exit (.left w'))) (pos : Nat) :
    w'.bestImage.or w'.backupImage = some pos ↔ rom.Selected q w.pos w.backupImage pos := by
  have hcand := fun hacc => matched_candidate (hlist hacc)
  cases hround with
  | rejected hacc =>
    rw [selected_stop (fun hgo => hacc hgo.1) (fun hmatch => hacc hmatch.1), hbest,
      Option.none_or]
  | best hacc hmatch hperfect =>
    have hyes : rom.Candidate q w.pos := by simpa [hmatch] using hcand hacc
    have hstop : ¬ rom.GoesOn q w.pos := by
      rintro ⟨-, -, matching, hmatch', hgo⟩
      rw [hmatch] at hmatch'
      cases hmatch'
      rw [hperfect] at hgo
      cases hgo
    rw [selected_stop_match hstop ⟨hacc, hyes⟩, Option.some_or]
  | last hacc matching hmatch _ hlast =>
    have hstop : ¬ rom.GoesOn q w.pos := fun hgo => hgo.2.1 hlast
    rw [hcand hacc] at hmatch
    cases hmatch
    by_cases hyes : rom.Candidate q w.pos
    · rw [selected_stop_match hstop ⟨hacc, hyes⟩]
      simp [hyes, Walk.note, hbest]
    · rw [selected_stop hstop (fun hmatch => hyes hmatch.2)]
      simp [hyes, Walk.note, hbest]

/-- A round after which the walk goes on. -/
theorem selected_note {w : Walk} (hgo : rom.GoesOn q w.pos) {matching : Bool}
    (hlist : rom.Scanned q w.pos → rom.ListEnds q w.pos)
    (hmatch : rom.matched q w.pos = some matching) (pos : Nat) :
    rom.Selected q (rom.imageEnd w.pos) (w.note matching).backupImage pos ↔
      rom.Selected q w.pos w.backupImage pos := by
  rw [matched_candidate hlist] at hmatch
  cases hmatch
  by_cases hyes : rom.Candidate q w.pos
  · rw [selected_next_match hgo ⟨hgo.1, hyes⟩, decide_eq_true hyes]
    rfl
  · rw [selected_next hgo (fun hmatch => hyes hmatch.2), decide_eq_false hyes]
    rfl

theorem note_bestImage (w : Walk) (matching : Bool) :
    (w.note matching).bestImage = w.bestImage := by
  cases matching <;> rfl

theorem selected_walk {w w' : Walk} {fuel : Nat} (hbest : w.bestImage = none)
    (hlists : ∀ pos, Relation.ReflTransGen (rom.Advances q) w.pos pos → rom.Accepted pos →
      rom.Scanned q pos → rom.ListEnds q pos)
    (h : (walk rom q fuel w).value = some (.left w')) (pos : Nat) :
    w'.bestImage.or w'.backupImage = some pos ↔ rom.Selected q w.pos w.backupImage pos := by
  induction fuel generalizing w with
  | zero => cases h
  | succ fuel ih =>
    have hround := walkStep_round rom q w
    cases hstep : (walkStep rom q w).value with
    | exit e =>
      rw [hstep] at hround
      rw [walk_exit hstep] at h
      cases h
      exact selected_exit hbest (hlists w.pos .refl) hround pos
    | next w₁ =>
      rw [walk_next hstep] at h
      rw [hstep] at hround
      cases hround with
      | next hacc matching hmatch hperfect hlast =>
        have hgo : rom.GoesOn q w.pos := ⟨hacc, hlast, matching, hmatch, hperfect⟩
        rw [← selected_note hgo (hlists w.pos .refl hacc) hmatch]
        exact ih (w := { w.note matching with pos := rom.imageEnd w.pos })
          ((note_bestImage w matching).trans hbest)
          (fun pos hpath => hlists pos (.head ⟨hgo, rfl⟩ hpath)) h

theorem lastMatch_walk {w : Walk} {fuel : Nat}
    (hlists : ∀ pos, rom.Visited q pos → rom.Accepted pos → rom.Scanned q pos →
      rom.ListEnds q pos)
    (h : (walk rom q fuel start).value = some (.left w)) (pos : Nat) :
    w.bestImage.or w.backupImage = some pos ↔ rom.LastMatch q 0 pos := by
  rw [selected_walk (w := start) rfl hlists h pos]
  exact or_iff_left fun hnone => nomatch hnone.1

theorem pcirOffset_ge {pos : Nat} (hacc : rom.Accepted pos) : 4 ≤ (rom.pcirOffset pos).toNat := by
  obtain ⟨-, hne, haligned, -⟩ := hacc
  have hlow := congrArg UInt16.toNat haligned
  have hmask : (3 : UInt16).toNat = 2 ^ 2 - 1 := rfl
  rw [UInt16.toNat_and, hmask, Nat.and_two_pow_sub_one_eq_mod] at hlow
  have hpos : (rom.pcirOffset pos).toNat ≠ 0 := fun h => hne (UInt16.toNat_inj.mp h)
  have hzero : (0 : UInt16).toNat = 0 := rfl
  omega

theorem within_requested {α : Type} (wanted : Bool) (output : Traced α) (n : Nat) :
    (requested wanted output).Within n ↔ (wanted = true → output.Within n) := by
  unfold requested
  cases wanted <;> simp

/-- Of the optional values, only the last needs more than the structure of PCI 2.x. -/
theorem outputs_within {pcir : Nat} (pos : Nat)
    (hpcir : pcir + sizeofPciDataStructure ≤ rom.imageSize) :
    (outputMaxRuntimeImageLength rom pcir).Within rom.imageSize ∧
      (outputOpRomRevision rom pcir).Within rom.imageSize ∧
      ((outputConfigUtilityCodeHeader rom pos pcir).Within rom.imageSize ↔
        (3 ≤ rom.mem (pcir + 0x0c) → pcir + 0x1a ≤ rom.imageSize)) := by
  unfold sizeofPciDataStructure at hpcir
  have hfield : ∀ k n, k + n ≤ 24 → pcir + k + n ≤ rom.imageSize := by omega
  refine ⟨?_, ?_, ?_⟩
  · unfold outputMaxRuntimeImageLength
    simp [hfield]
  · unfold outputOpRomRevision
    rw [Traced.within_fetch16, Traced.within_ite]
    refine ⟨hfield _ _ (by decide), ?_⟩
    split
    · exact Traced.within_pure _ _
    · exact List.forall_mem_singleton.mpr (hfield 0x0c 1 (by decide))
  · unfold outputConfigUtilityCodeHeader
    by_cases hrev : rom.mem (pcir + 0x0c) < 3
    · simp [hrev, hfield, UInt8.not_le.mpr hrev]
    · simp [hrev, hfield, UInt8.not_lt.mp hrev]

theorem finish_within {w : Walk}
    (hkept : ∀ pos, w.bestImage.or w.backupImage = some pos → rom.Accepted pos) :
    (finish rom q w).Within rom.imageSize ↔
      (q.configUtilityCodeHeader = true → ∀ pos, w.bestImage.or w.backupImage = some pos →
        3 ≤ rom.revision pos → rom.pcir pos + 0x1a ≤ rom.imageSize) := by
  unfold finish
  cases hsel : w.bestImage.or w.backupImage with
  | none => simp
  | some pos =>
    have hacc := hkept pos hsel
    have hfirst := pcirOffset_ge hacc
    have hpcir := hacc.2.2.2.1
    obtain ⟨hmax, hrev, hconfig⟩ := outputs_within pos hpcir
    have hheader : pos + 0x18 + 2 ≤ rom.imageSize ∧ rom.pcir pos + 0x10 + 2 ≤ rom.imageSize := by
      unfold Rom.pcir sizeofPciDataStructure at *
      omega
    dsimp only
    rw [Traced.within_fetch16, Traced.within_fetch16, Traced.within_bind, Traced.within_bind,
      Traced.within_bind, within_requested, within_requested, within_requested, hconfig]
    constructor
    · rintro ⟨-, -, -, -, h, -⟩ hwanted _ hpos
      cases hpos
      exact h hwanted
    · intro h
      exact ⟨hheader.1, hheader.2, fun _ => hmax, fun _ => hrev, fun hwanted => h hwanted pos rfl,
        Traced.within_pure _ _⟩

theorem getPciLegacyRom_within (hsize : sizeofRomHeader rom.arch ≤ rom.imageSize) (fuel : Nat) :
    (getPciLegacyRom rom q fuel).Within rom.imageSize ↔
      (walk rom q fuel start).Within rom.imageSize ∧
        ∀ w, (walk rom q fuel start).value = some (.left w) →
          (finish rom q w).Within rom.imageSize := by
  unfold getPciLegacyRom
  rw [if_neg (Nat.not_lt.mpr hsize), Traced.within_bind]
  apply and_congr_right'
  cases (walk rom q fuel start).value with
  | none => exact iff_of_true (Traced.within_pure _ _) fun w h => by cases h
  | some e =>
    cases e with
    | runaway => exact iff_of_true (Traced.within_pure _ _) fun w h => by cases h
    | left w =>
      dsimp only
      rw [Traced.within_map]
      constructor
      · intro h w' hw
        cases hw
        exact h
      · exact fun h => h w rfl

end

/-- **When the walk stays inside the ROM.** -/
theorem reads_inside_iff (rom : Rom) (q : Query) :
    (∀ fuel, (getPciLegacyRom rom q fuel).Within rom.imageSize) ↔
      (sizeofRomHeader rom.arch ≤ rom.imageSize → rom.ReadsInside q) := by
  by_cases hsize : sizeofRomHeader rom.arch ≤ rom.imageSize
  · simp only [getPciLegacyRom_within hsize, hsize, true_imp_iff, forall_and]
    rw [walk_within]
    constructor
    · rintro ⟨hsteps, hfinish⟩
      have hlists := fun pos hv => (hsteps pos hv).2.2
      refine ⟨fun pos hv => (hsteps pos hv).1, fun pos hv => (hsteps pos hv).2.1, hlists, ?_⟩
      intro hwanted hmoves pos hlast
      have hstops : ∀ pos, rom.Visited q pos → rom.Accepted pos → rom.matched q pos ≠ none := by
        intro pos hv hacc
        rw [matched_candidate (hlists pos hv hacc)]
        exact nofun
      obtain ⟨w, hwalk⟩ := walk_left (w := start) hstops (walk_start_ends hmoves)
      have hsel := lastMatch_walk hlists hwalk
      have hinside := hfinish _ w hwalk
      rw [finish_within fun pos hpos => ((hsel pos).mp hpos).2.1.1] at hinside
      exact hinside hwanted pos ((hsel pos).mpr hlast)
    · intro h
      refine ⟨fun pos hv => ⟨h.signature pos hv, h.header pos hv, h.deviceList pos hv⟩, ?_⟩
      intro fuel w hwalk
      have hsel := lastMatch_walk h.deviceList hwalk
      rw [finish_within fun pos hpos => ((hsel pos).mp hpos).2.1.1]
      intro hwanted pos hpos
      have hmoves : rom.Moves q 0 := moves_of_walk (by rw [hwalk]; rfl)
      exact h.configUtility hwanted hmoves pos ((hsel pos).mp hpos)
  · refine iff_of_true (fun fuel => ?_) fun h => absurd h hsize
    rw [getPciLegacyRom_small hsize]
    exact Traced.within_pure _ _

/-- A ROM of one image for 8086:46a6 that fills it and is not marked as the last. -/
def unmarkedImage : Rom where
  arch := .x86_64
  mem a := [0x55, 0xaa, 1, 0, 0, 0, 0, 0, 0, 0, 0, 0, 0, 0, 0, 0, 0, 0, 0, 0, 0, 0, 0, 0, 0x1c, 0,
    0, 0, 0x50, 0x43, 0x49, 0x52, 0x86, 0x80, 0xa6, 0x46, 0, 0, 0x18, 0, 0, 0, 0, 0, 1, 0, 0, 0, 0,
    0].getD a 0
  imageSize := 512
  lt := by decide

/-- The signature of a next image is read behind the ROM. -/
theorem reads_inside_unmarked :
    ¬ ∀ fuel, (getPciLegacyRom unmarkedImage (oprom 0x8086 0x46a6) fuel).Within
      unmarkedImage.imageSize := by
  intro h
  have hgo : unmarkedImage.GoesOn (oprom 0x8086 0x46a6) 0 := by
    refine ⟨by decide, by decide, true, ?_, by decide⟩
    rw [matched_eq]
    decide
  have hwalk := fun fuel => ((getPciLegacyRom_within (by decide) fuel).mp (h fuel)).1
  have hread := (walk_within.mp hwalk 512 (.single ⟨hgo, by decide⟩)).1
  revert hread
  decide

namespace Rom
variable (rom : Rom) (q : Query)

/-- An image of a well-formed ROM. -/
structure WellFormed (pos : Nat) : Prop where
  accepted : rom.Accepted pos
  length : rom.imageLength pos ≠ 0
  deviceList : 3 ≤ rom.revision pos → rom.deviceListOffset pos ≠ 0 →
    0 ∈ rom.words (rom.deviceList pos)

/-- The images from `pos` on: each begins where the one before it ends, and after the
last, unless it is marked, there is something else than an image. -/
def Chain : Nat → List Nat → Prop
  | pos, [] => pos + 2 ≤ rom.imageSize ∧ rom.signature pos ≠ expansionRomSignature
  | pos, image :: images =>
    image = pos ∧ rom.WellFormed pos ∧
      if rom.Last pos then images = [] else Chain (rom.imageEnd pos) images

/-- The first image of the generation of the CSM, or else the last of the other. -/
def select (images : List Nat) : Option Nat :=
  let candidates := images.filter fun pos => rom.Candidate q pos
  (candidates.find? fun pos => perfect q.csm16Revision (rom.revision pos)).or candidates.getLast?

/-- What is returned is the selected image, or nothing when there is none to select. -/
structure Picks (images : List Nat) (out : Outputs) : Prop where
  status : out.status = .success ↔ ∃ pos ∈ images, rom.Candidate q pos
  image : out.status = .success → rom.select q images = some out.rom ∧
    out.imageSize = 512 * (rom.imageLength out.rom).toNat ∧
    out.rom + out.imageSize ≤ rom.imageSize
  unchanged : out.status = .notFound → out.rom = 0 ∧ out.imageSize = rom.imageSize

end Rom

section
variable {rom : Rom} {q : Query}

theorem Rom.WellFormed.listEnds {pos : Nat} (h : rom.WellFormed pos)
    (hscan : rom.Scanned q pos) : rom.ListEnds q pos :=
  ⟨0, h.deviceList hscan.2.2.2.1 hscan.2.2.2.2, .inl rfl⟩

theorem select_skip {pos : Nat} (images : List Nat) (h : ¬ rom.Candidate q pos) :
    rom.select q (pos :: images) = rom.select q images := by
  unfold Rom.select
  rw [List.filter_cons_of_neg (by simpa using h)]

theorem select_perfect {pos : Nat} (images : List Nat) (h : rom.Candidate q pos)
    (hperfect : perfect q.csm16Revision (rom.revision pos) = true) :
    rom.select q (pos :: images) = some pos := by
  unfold Rom.select
  rw [List.filter_cons_of_pos (by simpa using h)]
  dsimp only
  rw [List.find?_cons_of_pos (by exact hperfect)]
  rfl

theorem select_backup {pos : Nat} (images : List Nat) (h : rom.Candidate q pos)
    (hperfect : perfect q.csm16Revision (rom.revision pos) = false) :
    rom.select q (pos :: images) = (rom.select q images).or (some pos) := by
  unfold Rom.select
  rw [List.filter_cons_of_pos (by simpa using h)]
  dsimp only
  rw [List.find?_cons_of_neg (by simp [hperfect]), Option.or_assoc, List.getLast?_cons]
  congr 1
  cases (images.filter fun pos => rom.Candidate q pos).getLast? <;> rfl

/-- Keeping an image that is not perfect accounts for it. -/
theorem select_note {w : Walk} (images : List Nat)
    (hperfect : (decide (rom.Candidate q w.pos) && perfect q.csm16Revision (rom.revision w.pos)) =
      false) :
    (rom.select q images).or (w.note (decide (rom.Candidate q w.pos))).backupImage =
      (rom.select q (w.pos :: images)).or w.backupImage := by
  by_cases hcand : rom.Candidate q w.pos
  · rw [decide_eq_true hcand, Bool.true_and] at hperfect
    rw [decide_eq_true hcand, select_backup images hcand hperfect, Option.or_assoc]
    rfl
  · rw [decide_eq_false hcand, select_skip images hcand]
    rfl

theorem walk_exit_at {w : Walk} {e : Exit} (h : (walkStep rom q w).value = .exit e) {n : Nat} :
    ∀ fuel, n < fuel → (walk rom q fuel w).value = some e := by
  intro fuel hfuel
  obtain ⟨fuel, rfl⟩ : ∃ k, fuel = k + 1 := ⟨fuel - 1, by omega⟩
  exact walk_exit h fuel

/-- What the loop leaves behind for a well-formed rest of the ROM. -/
theorem walk_chain {images : List Nat} {w : Walk} (hchain : rom.Chain w.pos images)
    (hbest : w.bestImage = none) :
    ∃ w', (∀ fuel, images.length < fuel → (walk rom q fuel w).value = some (.left w')) ∧
      w'.bestImage.or w'.backupImage = (rom.select q images).or w.backupImage := by
  induction images generalizing w with
  | nil =>
    have hstep : (walkStep rom q w).value = .exit (.left w) := by
      rw [walkStep_value, if_neg fun h => hchain.2 h.1]
    refine ⟨w, walk_exit_at hstep, ?_⟩
    rw [hbest]
    rfl
  | cons image images ih =>
    obtain ⟨rfl, hwf, hrest⟩ := hchain
    have hmatched := matched_candidate (q := q) hwf.listEnds
    have hround := walkStep_round rom q w
    generalize hstep : (walkStep rom q w).value = step at hround
    cases hround with
    | rejected hrej => exact absurd hwf.accepted hrej
    | runaway _ hnone =>
      rw [hmatched] at hnone
      cases hnone
    | best _ hyes hperfect =>
      rw [hmatched] at hyes
      have hcand : rom.Candidate q w.pos := by simpa using hyes
      refine ⟨_, walk_exit_at hstep, ?_⟩
      rw [select_perfect images hcand hperfect]
    | last _ matching hmatch hperfect hlast =>
      rw [if_pos hlast] at hrest
      rw [hmatched] at hmatch
      cases hmatch
      subst hrest
      refine ⟨_, walk_exit_at hstep, ?_⟩
      rw [note_bestImage, hbest, ← select_note [] hperfect]
      rfl
    | next _ matching hmatch hperfect hlast =>
      rw [if_neg hlast] at hrest
      rw [hmatched] at hmatch
      cases hmatch
      obtain ⟨w', hwalk, hsel⟩ := ih
        (w := { w.note (decide (rom.Candidate q w.pos)) with pos := rom.imageEnd w.pos }) hrest
        ((note_bestImage w _).trans hbest)
      refine ⟨w', ?_, by rw [hsel, ← select_note images hperfect]⟩
      intro fuel hfuel
      rw [List.length_cons] at hfuel
      obtain ⟨fuel, rfl⟩ : ∃ k, fuel = k + 1 := ⟨fuel - 1, by omega⟩
      exact (walk_next hstep fuel).trans (hwalk fuel (by omega))

theorem select_mem {images : List Nat} {pos : Nat} (h : rom.select q images = some pos) :
    pos ∈ images ∧ rom.Candidate q pos := by
  have hmem : pos ∈ images.filter fun pos => rom.Candidate q pos := by
    rcases Option.or_eq_some_iff.mp h with hfind | ⟨-, hlast⟩
    · exact List.mem_of_find?_eq_some hfind
    · exact List.mem_of_getLast? hlast
  simpa using hmem

theorem select_isSome (images : List Nat) :
    (rom.select q images).isSome ↔ ∃ pos ∈ images, rom.Candidate q pos := by
  constructor
  · intro h
    obtain ⟨pos, hpos⟩ := Option.isSome_iff_exists.mp h
    exact ⟨pos, select_mem hpos⟩
  · rintro ⟨pos, hmem, hcand⟩
    have hfilter : pos ∈ images.filter fun pos => rom.Candidate q pos := by simp [hmem, hcand]
    unfold Rom.select
    rw [Option.isSome_or, Bool.or_eq_true]
    exact .inr (List.getLast?_isSome.mpr (List.ne_nil_of_mem hfilter))

theorem Rom.Chain.wellFormed {images : List Nat} {start : Nat} (h : rom.Chain start images) :
    ∀ pos ∈ images, rom.WellFormed pos := by
  induction images generalizing start with
  | nil =>
    intro pos hpos
    cases hpos
  | cons image images ih =>
    obtain ⟨rfl, hwf, hrest⟩ := h
    intro pos hpos
    cases hpos with
    | head => exact hwf
    | tail _ hpos =>
      split at hrest
      · rw [hrest] at hpos
        cases hpos
      · exact ih hrest pos hpos

/-- What is returned for the image that the loop has picked. -/
theorem finish_value (rom : Rom) (q : Query) (w : Walk) :
    match w.bestImage.or w.backupImage with
    | none => (finish rom q w).value = ⟨.notFound, 0, rom.imageSize, none, none, none⟩
    | some pos => (finish rom q w).value.status = .success ∧ (finish rom q w).value.rom = pos ∧
        (finish rom q w).value.imageSize = 512 * (rom.imageLength pos).toNat := by
  unfold finish
  cases w.bestImage.or w.backupImage with
  | none => rfl
  | some pos => exact ⟨rfl, rfl, Nat.mul_comm _ _⟩

theorem getPciLegacyRom_left {fuel : Nat} {w : Walk}
    (hsize : sizeofRomHeader rom.arch ≤ rom.imageSize)
    (h : (walk rom q fuel start).value = some (.left w)) :
    (getPciLegacyRom rom q fuel).value = some (.returned (finish rom q w).value) := by
  unfold getPciLegacyRom
  rw [if_neg (Nat.not_lt.mpr hsize), Traced.value_bind, h]
  rfl

theorem picks_nothing {images : List Nat} (h : ¬ ∃ pos ∈ images, rom.Candidate q pos) :
    rom.Picks q images ⟨.notFound, 0, rom.imageSize, none, none, none⟩ where
  status := iff_of_false (fun h => by cases h) h
  image h := by cases h
  unchanged _ := ⟨rfl, rfl⟩

theorem picks_finish {images : List Nat} {w : Walk}
    (hwf : ∀ pos ∈ images, rom.WellFormed pos)
    (hsel : w.bestImage.or w.backupImage = rom.select q images) :
    rom.Picks q images (finish rom q w).value := by
  have hout := finish_value rom q w
  rw [hsel] at hout
  cases hselect : rom.select q images with
  | none =>
    rw [hselect] at hout
    dsimp only at hout
    rw [hout]
    apply picks_nothing
    rw [← select_isSome, hselect]
    exact Bool.false_ne_true
  | some pos =>
    rw [hselect] at hout
    obtain ⟨hstatus, hrom, hlength⟩ := hout
    obtain ⟨hmem, hcand⟩ := select_mem hselect
    constructor
    · exact iff_of_true hstatus ⟨pos, hmem, hcand⟩
    · intro _
      rw [hrom, hlength]
      exact ⟨hselect, rfl, (hwf pos hmem).accepted.2.2.2.2.2⟩
    · intro hfailed
      rw [hstatus] at hfailed
      cases hfailed

end

/-- **Which image is picked** from a well-formed ROM. -/
theorem select_image {rom : Rom} {images : List Nat} (hchain : rom.Chain 0 images) (q : Query) :
    ∃ out, (∀ fuel, images.length < fuel →
        (getPciLegacyRom rom q fuel).value = some (.returned out)) ∧ rom.Picks q images out := by
  by_cases hsize : sizeofRomHeader rom.arch ≤ rom.imageSize
  · obtain ⟨w, hwalk, hsel⟩ := walk_chain (q := q) (w := start) hchain rfl
    rw [show start.backupImage = none from rfl, Option.or_none] at hsel
    refine ⟨(finish rom q w).value, fun fuel hfuel => ?_, picks_finish hchain.wellFormed hsel⟩
    exact getPciLegacyRom_left hsize (hwalk fuel hfuel)
  · refine ⟨⟨.notFound, 0, rom.imageSize, none, none, none⟩, ?_, picks_nothing ?_⟩
    · intro fuel _
      rw [getPciLegacyRom_small hsize]
      rfl
    · rintro ⟨pos, hmem, -⟩
      have hpcir := (hchain.wellFormed pos hmem).accepted.2.2.2.1
      have hheader := sizeofRomHeader_le rom.arch
      unfold sizeofPciDataStructure at hpcir
      omega

/-- Two images for 8086:46a6: one of PCI 2.x and, marked as the last, one of PCI 3.0
that has the id in its list only. -/
def twoImages : Rom where
  arch := .x86_64
  mem a :=
    if a < 512 then
      [0x55, 0xaa, 1, 0, 0, 0, 0, 0, 0, 0, 0, 0, 0, 0, 0, 0, 0, 0, 0, 0, 0, 0, 0, 0, 0x1c, 0, 0, 0,
        0x50, 0x43, 0x49, 0x52, 0x86, 0x80, 0xa6, 0x46, 0, 0, 0x18, 0, 0, 0, 0, 0, 1, 0, 0, 0, 0,
        0].getD a 0
    else
      [0x55, 0xaa, 1, 0, 0, 0, 0, 0, 0, 0, 0, 0, 0, 0, 0, 0, 0, 0, 0, 0, 0, 0, 0, 0, 0x1c, 0, 0, 0,
        0x50, 0x43, 0x49, 0x52, 0x86, 0x80, 0xa0, 0x46, 0x1c, 0, 0x1c, 0, 3, 0, 0, 0, 1, 0, 0, 0, 0,
        0x80, 1, 0, 0, 0, 0, 0, 0xa6, 0x46, 0, 0].getD (a - 512) 0
  imageSize := 1024
  lt := by decide

theorem select_image_two :
    twoImages.Chain 0 [0, 512] ∧
      ∃ out, (∀ fuel, 2 < fuel →
          (getPciLegacyRom twoImages (oprom 0x8086 0x46a6) fuel).value = some (.returned out)) ∧
        out.status = .success ∧ out.rom = 512 ∧ out.imageSize = 512 := by
  have hlast : ¬ twoImages.Last 0 ∧ twoImages.Last 512 := by decide
  have hsecond : twoImages.Chain 512 [512] := by
    refine ⟨rfl, ⟨by decide, by decide, by decide⟩, ?_⟩
    rw [if_pos hlast.2]
  have hchain : twoImages.Chain 0 [0, 512] := by
    refine ⟨rfl, ⟨by decide, by decide, by decide⟩, ?_⟩
    rw [if_neg hlast.1]
    exact hsecond
  have hselect : twoImages.select (oprom 0x8086 0x46a6) [0, 512] = some 512 := by decide
  obtain ⟨out, hreturns, hpicks⟩ := select_image hchain (oprom 0x8086 0x46a6)
  have hstatus := hpicks.status.mpr ⟨512, select_mem hselect⟩
  obtain ⟨hrom, hlength, -⟩ := hpicks.image hstatus
  rw [hselect] at hrom
  rw [← Option.some.inj hrom] at hlength
  exact ⟨hchain, out, hreturns, hstatus, (Option.some.inj hrom).symm, hlength⟩

end CsmWrap.Video
