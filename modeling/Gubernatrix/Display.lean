import Gubernatrix.Edid
import Gubernatrix.Lib.Trace
import Gubernatrix.Types

/-!
# Hot plugging of displays

`igfx_display_checkhotplugs` polls the ports. For a display that has been plugged in it reads the
EDID over GMBUS, and with the first of its detailed modes sets up the port and the pipe. What the
EDID of an earlier display has left in `displays[i].edid` stays there as far as `parse_edid` does
not write over it.
-/

namespace Igfx

open Trace
open Edid (EdidInfo DetailedMode Raw parseEdid decodedModes descriptorOffsets isDisplayDescriptor
  Accepted)

/-- `uint32_t`. -/
abbrev U32 := BitVec 32

/-- `IGFX_CHERRYTRAIL`. -/
def cherrytrail : BitVec 8 := 1

/-- `IGFX_CHV_PORT_HOTPLUG_STAT_BIT_HDMI_D`. -/
def hotplugStatBitHdmiD : U32 := 1 <<< 27

/-- `igfx_display_info_t`. -/
structure DisplayInfo where
  hotplug : Bool
  connected : Bool
  edid : EdidInfo
  standardMode : U32
  customModeIdx : ℤ

/-- The fields of `igfx_driver_t` that do not change: `architecture` and `display_mmio_base`. -/
structure Driver where
  architecture : BitVec 8
  displayMmioBase : U32

/-- What the registers read as during a poll: the hot plug status, the control register of the
DIP, and for each display the words that `IGFX_GMBUS3` reads as, one after the other. -/
structure Poll where
  hotplugStat : U32
  videoDipCtlC : U32
  gmbus3 : ℕ → ℕ → U32

/-- A register and the value that is written to it. -/
abbrev Write := U32 × U32

/-- The bytes that `igfx_gmbus_read` leaves in the buffer. -/
def gmbusRead (words : ℕ → U32) : Raw := fun k => (words (k / 4) >>> (8 * (k % 4))).setWidth 8

/-- `igfx_display_isconnected`. -/
def isConnected (driver : Driver) (poll : Poll) (displayCount idx : ℕ) : Bool :=
  if driver.architecture = cherrytrail ∧ displayCount > idx then
    if idx = 0 then poll.hotplugStat &&& hotplugStatBitHdmiD ≠ 0 else false
  else false

/-- `edid.detailed_modes[custom_mode_idx]` of a display. -/
def DisplayInfo.mode (info : DisplayInfo) : DetailedMode :=
  info.edid.detailedModes info.customModeIdx.toNat

/-- A polarity as a `bool`. -/
def toBool (x : BitVec 8) : U32 := if x ≠ 0 then 1 else 0

/-- What `igfx_display_enable_port` writes for a mode. -/
def enablePort (driver : Driver) (idx : ℕ) (mode : DetailedMode) : List Write :=
  if driver.architecture = cherrytrail ∧ idx = 0 then
    [(driver.displayMmioBase + 0x6116C,
      1 <<< 31 ||| 1 <<< 6 ||| 1 <<< 9 ||| 2 <<< 10 ||| toBool mode.vPolarity <<< 4
        ||| toBool mode.hPolarity <<< 3)]
  else []

/-- `((end - 1) & 0x1FFF) << 16 | ((start - 1) & mask)`. -/
def bounds (last first mask : U32) : U32 :=
  ((last - 1) &&& 0x1FFF) <<< 16 ||| ((first - 1) &&& mask)

/-- What `igfx_display_pipe_setup` writes for a mode. -/
def pipeSetup (driver : Driver) (poll : Poll) (idx : ℕ) (mode : DetailedMode) : List Write :=
  if driver.architecture = cherrytrail ∧ idx = 0 then
    let hborder := mode.hborder.setWidth 32
    let vborder := mode.vborder.setWidth 32
    let htotal := mode.hactive + mode.hblank + hborder
    let hblankEnd := hborder + mode.hactive + mode.hblank
    let hblankStart := hborder + mode.hactive
    let hsyncEnd := mode.hactive + hborder + mode.hsyncPorch + mode.hsyncPulse
    let hsyncStart := mode.hactive + hborder + mode.hsyncPorch
    let vtotal := mode.vactive + mode.vblank + vborder
    let vblankEnd := vborder + mode.vactive + mode.vblank
    let vblankStart := vborder + mode.vactive
    let vsyncEnd := mode.vactive + vborder + mode.vsyncPorch + mode.vsyncPulse
    let vsyncStart := mode.vactive + vborder + mode.vsyncPorch
    let base := driver.displayMmioBase
    [(base + 0x611F0, poll.videoDipCtlC ||| 1 <<< 31 ||| 3 <<< 29),
      (base + 0x63000, bounds htotal mode.hactive 0xFFF),
      (base + 0x63004, bounds hblankEnd hblankStart 0x1FFF),
      (base + 0x63008, bounds hsyncEnd hsyncStart 0x1FFF),
      (base + 0x6300C, bounds vtotal mode.vactive 0xFFF),
      (base + 0x63010, bounds vblankEnd vblankStart 0x1FFF),
      (base + 0x63014, bounds vsyncEnd vsyncStart 0x1FFF),
      (base + 0x6301C, ((mode.hactive - 1) &&& 0xFFF) <<< 16 ||| ((mode.vactive - 1) &&& 0xFFF)),
      (base + 0x74008, 1 <<< 31)]
  else []

/-- The body of the loop of `igfx_display_checkhotplugs` for a display: the display after it, and
what is written to set it up. -/
def checkDisplay (driver : Driver) (poll : Poll) (displayCount i : ℕ) (info : DisplayInfo) :
    DisplayInfo × List Write :=
  let dispConnected := isConnected driver poll displayCount i
  if dispConnected ∧ ¬ info.connected then
    match parseEdid (gmbusRead (poll.gmbus3 i)) info.edid with
    | (false, edid) => ({ info with edid := edid }, [])
    | (true, edid) =>
      let info :=
        { info with edid := edid, customModeIdx := 0, standardMode := 0, connected := true }
      (info, enablePort driver i info.mode ++ pipeSetup driver poll i info.mode)
  else if ¬ dispConnected ∧ info.connected then ({ info with connected := false }, [])
  else (info, [])

/-- `igfx_display_checkhotplugs`: the displays after it, each with what was written for it. -/
def checkHotplugs (driver : Driver) (displays : List DisplayInfo) (poll : Poll) :
    List (DisplayInfo × List Write) :=
  displays.mapIdx fun i info => checkDisplay driver poll displays.length i info

/-- The displays after a poll. -/
def poll (driver : Driver) (displays : List DisplayInfo) (p : Poll) : List DisplayInfo :=
  (checkHotplugs driver displays p).map Prod.fst

/-- The display as `igfx_display_init` leaves it, in memory that `malloc` does not clear. -/
def initDisplay (junk : DisplayInfo) : DisplayInfo :=
  { junk with hotplug := true, connected := false }

/-! ### The mode that is used -/

/-- The display becomes connected. -/
def Connects (info info' : DisplayInfo) : Prop := info.connected = false ∧ info'.connected = true

/-- Each display that becomes connected is set up with a mode of the block that was just read for
it, the one that `custom_mode_idx` says. -/
def OwnModes (driver : Driver) (displays : List DisplayInfo) (p : Poll) : Prop :=
  ∀ i info info' writes, displays[i]? = some info →
    (checkHotplugs driver displays p)[i]? = some (info', writes) → Connects info info' →
    info'.customModeIdx < info'.edid.detailedModeCount ∧
      info'.mode ∈ decodedModes (gmbusRead (p.gmbus3 i)) descriptorOffsets ∧
      writes = enablePort driver i info'.mode ++ pipeSetup driver p i info'.mode

/-- Each block that is read and accepted has a timing descriptor. -/
def Timed (driver : Driver) (displays : List DisplayInfo) (p : Poll) : Prop :=
  ∀ i info, displays[i]? = some info → info.connected = false →
    isConnected driver p displays.length i = true → Accepted (gmbusRead (p.gmbus3 i)) = true →
    ∃ offset ∈ descriptorOffsets,
      isDisplayDescriptor (gmbusRead (p.gmbus3 i)) offset = false

section Poll

variable {driver : Driver} {p : Poll} {displayCount i : ℕ} {info info' : DisplayInfo}
  {writes : List Write}

/-- How a display becomes connected. -/
theorem checkDisplay_connects
    (hcheck : checkDisplay driver p displayCount i info = (info', writes))
    (hconnects : Connects info info') :
  isConnected driver p displayCount i = true ∧
    parseEdid (gmbusRead (p.gmbus3 i)) info.edid = (true, info'.edid) ∧
    info'.customModeIdx = 0 ∧
    writes = enablePort driver i info'.mode ++ pipeSetup driver p i info'.mode
  := by
  obtain ⟨hbefore, hafter⟩ := hconnects
  unfold checkDisplay at hcheck
  dsimp only at hcheck
  split at hcheck
  next hplugged =>
    split at hcheck
    next edid hparse =>
      obtain ⟨rfl, rfl⟩ := Prod.mk.inj hcheck
      rw [hbefore] at hafter
      cases hafter
    next edid hparse =>
      obtain ⟨rfl, rfl⟩ := Prod.mk.inj hcheck
      use hplugged.1, hparse, rfl
  next hnot =>
    split at hcheck
    next hunplugged =>
      obtain ⟨rfl, rfl⟩ := Prod.mk.inj hcheck
      cases hafter
    next hsame =>
      obtain ⟨rfl, rfl⟩ := Prod.mk.inj hcheck
      rw [hbefore] at hafter
      cases hafter

/-- A display that is plugged in and whose block is accepted becomes connected. -/
theorem checkDisplay_accepted (hbefore : info.connected = false)
    (hplugged : isConnected driver p displayCount i = true)
    (haccepted : Accepted (gmbusRead (p.gmbus3 i)) = true) :
  ∃ info' writes, checkDisplay driver p displayCount i info = (info', writes) ∧
    Connects info info'
  := by
  have hfst := Edid.parseEdid_fst (gmbusRead (p.gmbus3 i)) info.edid
  rw [haccepted] at hfst
  have hparse : parseEdid (gmbusRead (p.gmbus3 i)) info.edid
      = (true, (parseEdid (gmbusRead (p.gmbus3 i)) info.edid).2) := Prod.ext hfst rfl
  unfold checkDisplay
  dsimp only
  rw [if_pos (by rw [hplugged, hbefore]; decide), hparse]
  exact ⟨_, _, rfl, hbefore, rfl⟩

theorem getElem?_checkHotplugs (displays : List DisplayInfo) (i : ℕ) :
  (checkHotplugs driver displays p)[i]?
    = displays[i]?.map (checkDisplay driver p displays.length i)
  := List.getElem?_mapIdx

/-- A block has modes when it has a timing descriptor. -/
theorem decodedModes_pos (raw : Raw) (offsets : List ℕ) :
  0 < (decodedModes raw offsets).length ↔
    ∃ offset ∈ offsets, isDisplayDescriptor raw offset = false
  := by
  rw [decodedModes, List.length_map, List.length_filter_pos_iff]
  simp

/-- In a poll, the displays that become connected are set up with modes of their own exactly when
each block that is accepted has a timing descriptor. -/
theorem ownModes_iff (driver : Driver) (displays : List DisplayInfo) (p : Poll) :
  OwnModes driver displays p ↔ Timed driver displays p
  := by
  constructor
  · intro h i info hinfo hbefore hplugged haccepted
    obtain ⟨info', writes, hcheck, hconnects⟩ :=
      checkDisplay_accepted hbefore hplugged haccepted
    have hafter : (checkHotplugs driver displays p)[i]? = some (info', writes) := by
      rw [getElem?_checkHotplugs, hinfo, Option.map_some, hcheck]
    obtain ⟨-, hmem, -⟩ := h i info info' writes hinfo hafter hconnects
    rw [← decodedModes_pos]
    apply List.length_pos_of_mem hmem
  · intro h i info info' writes hinfo hafter hconnects
    rw [getElem?_checkHotplugs, hinfo, Option.map_some] at hafter
    obtain ⟨hplugged, hparse, hidx, hwrites⟩ :=
      checkDisplay_connects (Option.some.inj hafter) hconnects
    have haccepted : Accepted (gmbusRead (p.gmbus3 i)) = true := by
      rw [← Edid.parseEdid_fst _ info.edid, hparse]
    have hpos := (decodedModes_pos _ _).mpr
      (h i info hinfo hconnects.1 hplugged haccepted)
    obtain ⟨hcount, hmodes⟩ := Edid.parseEdid_true hparse
    refine ⟨?_, ?_, hwrites⟩
    · rw [hidx, hcount]
      exact_mod_cast hpos
    · rw [DisplayInfo.mode, hidx, Int.toNat_zero, hmodes 0 hpos]
      apply List.getElem_mem

end Poll

/-! ### Sequences of polls -/

/-- For every sequence of polls, whatever is plugged in and out between them: all displays are set
up with modes of their own exactly when each block that is accepted for a display that was plugged
in has a timing descriptor. -/
theorem each_ownModes_iff (driver : Driver) (displays : List DisplayInfo) (polls : List Poll) :
  Each (poll driver) (OwnModes driver) displays polls ↔
    Each (poll driver) (Timed driver) displays polls
  := each_congr (ownModes_iff driver) displays polls

/-- What GMBUS reads for a block, the same for all displays. -/
def wordsOf (raw : Raw) : ℕ → ℕ → U32 := fun _ k =>
  raw (4 * k + 3) ++ raw (4 * k + 2) ++ raw (4 * k + 1) ++ raw (4 * k)

/-- A poll that finds HDMI D plugged in, with a display that has this block. -/
def plugged (raw : Raw) : Poll where
  hotplugStat := hotplugStatBitHdmiD
  videoDipCtlC := 0
  gmbus3 := wordsOf raw

/-- A poll that finds nothing plugged in. -/
def unplugged : Poll where
  hotplugStat := 0
  videoDipCtlC := 0
  gmbus3 _ _ := 0

/-- A block without modes. -/
def noModes : Raw := fun k => if 1 ≤ k ∧ k < 7 then 0xff else 0

/-- The driver of a Cherry Trail. -/
def chv : Driver where
  architecture := cherrytrail
  displayMmioBase := 0x180000

/-- A display in memory that was cleared. -/
def clear : DisplayInfo where
  hotplug := false
  connected := false
  edid := Edid.blank
  standardMode := 0
  customModeIdx := 0

/-- A display that is not plugged in is not connected after the poll. -/
theorem checkDisplay_unplugged {driver : Driver} {p : Poll} {displayCount i : ℕ}
    (h : isConnected driver p displayCount i = false) (info : DisplayInfo) :
  (checkDisplay driver p displayCount i info).1.connected = false
  := by
  unfold checkDisplay
  dsimp only
  rw [h, if_neg (by simp)]
  split
  next hconnected => rfl
  next hnot => simpa using hnot

/-- A display with a mode is followed by one that has none, which is set up with what the first has
left. -/
theorem not_each_ownModes :
  ¬ Each (poll chv) (OwnModes chv) [initDisplay clear]
    [plugged (Edid.blockOf (Edid.vga 10 2)), unplugged, plugged noModes]
  := by
  rintro ⟨-, -, hown, -⟩
  rw [ownModes_iff] at hown
  obtain ⟨offset, hoffset, hdisplay⟩ := hown 0 _ rfl (checkDisplay_unplugged (by decide) _)
    (by decide) (by decide +kernel)
  revert hdisplay
  revert offset
  decide +kernel

end Igfx
