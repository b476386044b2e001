import Gubernatrix.Display
import Gubernatrix.Lib.Gmbus

/-!
# Reading over GMBUS

`igfx_gmbus_read` on the controller of the bus, and `igfx_display_checkhotplugs` with it. Whatever
the controller was doing and however slow it is, each poll ends, reads the block of the display that
is plugged in, and does with it what was said about polls. `print_hexdump` and the message about an
EDID that is not accepted are left out.
-/

namespace Igfx

open Edid (Raw parseEdid)
open Gmbus (Slaves Controller Transfer)

/-- `IGFX_GMBUS0`. -/
def igfxGmbus0 : U32 := 0x5100

/-- `IGFX_GMBUS1`. -/
def igfxGmbus1 : U32 := 0x5104

/-- `IGFX_GMBUS2`. -/
def igfxGmbus2 : U32 := 0x5108

/-- `IGFX_GMBUS3`. -/
def igfxGmbus3 : U32 := 0x510C

/-! ### The controller -/

section Controller

variable (driver : Driver) (slaves : Slaves) (pace : ℕ → ℕ)

/-- `igfx_read32`, of a register of the controller. -/
def igfxRead32 (c : Controller) (offset : U32) : U32 × Controller :=
  c.read pace (offset - (driver.displayMmioBase + igfxGmbus0)).toNat

/-- `igfx_write32`, to a register of the controller. -/
def igfxWrite32 (c : Controller) (offset value : U32) : Controller :=
  c.write slaves pace (offset - (driver.displayMmioBase + igfxGmbus0)).toNat value

/-- `igfx_gmbus_disable_writeprot`. -/
def igfxGmbusDisableWriteprot (c : Controller) : Controller :=
  let val := igfxRead32 driver pace c (driver.displayMmioBase + igfxGmbus1)
  igfxWrite32 driver slaves pace val.2 (driver.displayMmioBase + igfxGmbus1)
    (val.1 &&& ~~~(1#32 <<< 31))

/-- `igfx_gmbus_enable_writeprot`. -/
def igfxGmbusEnableWriteprot (c : Controller) : Controller :=
  let val := igfxRead32 driver pace c (driver.displayMmioBase + igfxGmbus1)
  igfxWrite32 driver slaves pace val.2 (driver.displayMmioBase + igfxGmbus1) (val.1 ||| 1#32 <<< 31)

/-- `igfx_gmbus_reset`. -/
def igfxGmbusReset (c : Controller) : Controller :=
  let c := igfxWrite32 driver slaves pace c (driver.displayMmioBase + igfxGmbus1) 0
  let c := igfxGmbusEnableWriteprot driver slaves pace c
  igfxGmbusDisableWriteprot driver slaves pace c

/-- `igfx_gmbus_wait`, for at most the given number of turns. -/
def igfxGmbusWait : (turns : ℕ) → Controller → Option Controller
  | 0, _ => none
  | turns + 1, c =>
      let val := igfxRead32 driver pace c (driver.displayMmioBase + igfxGmbus2)
      if val.1 &&& 1#32 <<< 11 = 0 then igfxGmbusWait turns val.2 else some val.2

/-- `igfx_gmbus_stoptransaction`. -/
def igfxGmbusStoptransaction (c : Controller) : Controller :=
  igfxWrite32 driver slaves pace c (driver.displayMmioBase + igfxGmbus1)
    (1#32 <<< 30 ||| 1#32 <<< 27)

/-- What the body of the loop of `igfx_gmbus_read` writes to the buffer. -/
def storeBytes (sz i : ℕ) (bytes : U32) (buf : Raw) : Raw :=
  let buf := Function.update buf i ((bytes &&& 0xff).setWidth 8)
  let buf :=
    if sz > i + 1 then Function.update buf (i + 1) ((bytes >>> 8 &&& 0xff).setWidth 8) else buf
  let buf :=
    if sz > i + 2 then Function.update buf (i + 2) ((bytes >>> 16 &&& 0xff).setWidth 8) else buf
  if sz > i + 3 then Function.update buf (i + 3) ((bytes >>> 24 &&& 0xff).setWidth 8) else buf

/-- The loop of `igfx_gmbus_read`, for at most `left` words. -/
def readLoop (turns sz : ℕ) : (left i : ℕ) → (buf : Raw) → Controller → Option (Raw × Controller)
  | 0, _, buf, c => some (buf, c)
  | left + 1, i, buf, c =>
      if i < sz then do
        let c ← igfxGmbusWait driver pace turns c
        let bytes := igfxRead32 driver pace c (driver.displayMmioBase + igfxGmbus3)
        readLoop turns sz left (i + 4) (storeBytes sz i bytes.1 buf) bytes.2
      else some (buf, c)

/-- `gmbus0_val`. -/
def gmbus0Val (dispIdx : ℕ) : U32 :=
  if driver.architecture = cherrytrail then if dispIdx = 0 then 3 else 0 else 0

/-- `gmbus1_val`. -/
def gmbus1Val (offset : BitVec 8) (sz : BitVec 16) : U32 :=
  1#32 <<< 30 ||| 1#32 <<< 25 ||| 1#32 <<< 26 ||| (sz.setWidth 32 &&& 511) <<< 16
    ||| (offset.setWidth 32 &&& 127) <<< 1 ||| 1

/-- `igfx_gmbus_read`, for at most the given number of turns of each wait. -/
def igfxGmbusRead (turns dispIdx : ℕ) (offset : BitVec 8) (sz : BitVec 16) (buf : Raw)
    (c : Controller) : Option (Raw × Controller) := do
  let c := igfxGmbusReset driver slaves pace c
  let c := igfxWrite32 driver slaves pace c (driver.displayMmioBase + igfxGmbus0)
    (gmbus0Val driver dispIdx)
  let c := igfxWrite32 driver slaves pace c (driver.displayMmioBase + igfxGmbus1)
    (gmbus1Val offset sz)
  let (buf, c) ← readLoop driver pace turns sz.toNat sz.toNat 0 buf c
  return (buf, igfxGmbusStoptransaction driver slaves pace c)

end Controller

/-! ### Polls -/

/-- What the hardware is like during a poll: the registers that are read, the slaves on the bus, and
what the buffer on the stack has in it before it is written. -/
structure Port where
  hotplugStat : U32
  videoDipCtlC : U32
  slaves : Slaves
  edidRaw : Raw

/-- The registers that are read, but for those of the bus. -/
def Port.registers (port : Port) : Poll where
  hotplugStat := port.hotplugStat
  videoDipCtlC := port.videoDipCtlC
  gmbus3 _ _ := 0

section Polls

variable (driver : Driver) (pace : ℕ → ℕ) (turns : ℕ)

/-- The body of the loop of `igfx_display_checkhotplugs`. -/
def checkDisplayOn (port : Port) (displayCount i : ℕ) (info : DisplayInfo) (c : Controller) :
    Option ((DisplayInfo × List Write) × Controller) :=
  let dispConnected := isConnected driver port.registers displayCount i
  if dispConnected ∧ ¬ info.connected then do
    let (edidRaw, c) ← igfxGmbusRead driver port.slaves pace turns i 0x50 0x80 port.edidRaw c
    match parseEdid edidRaw info.edid with
    | (false, edid) => return (({ info with edid := edid }, []), c)
    | (true, edid) =>
      let info :=
        { info with edid := edid, customModeIdx := 0, standardMode := 0, connected := true }
      let writes := enablePort driver i info.mode ++ pipeSetup driver port.registers i info.mode
      return ((info, writes), c)
  else if ¬ dispConnected ∧ info.connected then some (({ info with connected := false }, []), c)
  else some ((info, []), c)

/-- The loop of `igfx_display_checkhotplugs`, from the display `i` on. -/
def hotplugLoop (port : Port) (displayCount : ℕ) : (i : ℕ) → List DisplayInfo → Controller →
    Option (List (DisplayInfo × List Write) × Controller)
  | _, [], c => some ([], c)
  | i, info :: displays, c => do
      let (x, c) ← checkDisplayOn driver pace turns port displayCount i info c
      let (xs, c) ← hotplugLoop port displayCount (i + 1) displays c
      return (x :: xs, c)

/-- `igfx_display_checkhotplugs`, once for each of these states of the hardware: what each call
leaves behind and has written. -/
def pollAll : List Port → List DisplayInfo → Controller →
    Option (List (List (DisplayInfo × List Write)) × Controller)
  | [], _, c => some ([], c)
  | port :: ports, displays, c => do
      let (checked, c) ← hotplugLoop driver pace turns port displays.length 0 displays c
      let (rest, c) ← pollAll ports (checked.map Prod.fst) c
      return (checked :: rest, c)

end Polls

/-- The buffer with these bytes at the places from `i` to `j`. -/
def filled (bytes : ℕ → BitVec 8) (i j : ℕ) (buf : Raw) : Raw :=
  fun k => if i ≤ k ∧ k < j then bytes k else buf k

/-- The buffer with the block of the display that is plugged in. -/
def Port.block (port : Port) : Raw :=
  match port.slaves 3 0x50 with
  | some bytes => filled bytes 0 0x80 port.edidRaw
  | none => port.edidRaw

/-- The poll that reads the block of the display that is plugged in. -/
def Port.poll (port : Port) : Poll where
  hotplugStat := port.hotplugStat
  videoDipCtlC := port.videoDipCtlC
  gmbus3 _ k := Gmbus.word port.block (4 * k)

/-- A display that is plugged in answers. -/
def Port.Answers (port : Port) : Prop :=
  port.hotplugStat &&& hotplugStatBitHdmiD ≠ 0 → (port.slaves 3 0x50).isSome

/-- What `igfx_display_checkhotplugs` does in one poll after the other. -/
def checkAll (driver : Driver) : List DisplayInfo → List Poll →
    List (List (DisplayInfo × List Write))
  | _, [] => []
  | displays, p :: polls =>
      checkHotplugs driver displays p :: checkAll driver (poll driver displays p) polls

/-! ### The handshake -/

section Handshake

variable {driver : Driver} {slaves : Slaves} {pace : ℕ → ℕ} {c : Controller}

theorem reg_offset (base x y : U32) :
  base + x - (base + y) = x - y
  := add_sub_add_left_eq_sub x y base

theorem read_command (c : Controller) :
  igfxRead32 driver pace c (driver.displayMmioBase + igfxGmbus1) = (c.command, c)
  := by
  rw [igfxRead32, reg_offset]
  rfl

theorem read_status (c : Controller) :
  igfxRead32 driver pace c (driver.displayMmioBase + igfxGmbus2) = c.status
  := by
  rw [igfxRead32, reg_offset]
  rfl

theorem read_data (c : Controller) :
  igfxRead32 driver pace c (driver.displayMmioBase + igfxGmbus3) = c.readData pace
  := by
  rw [igfxRead32, reg_offset]
  rfl

theorem write_select (c : Controller) (v : U32) :
  igfxWrite32 driver slaves pace c (driver.displayMmioBase + igfxGmbus0) v = c.writeSelect v
  := by
  rw [igfxWrite32, reg_offset]
  rfl

theorem write_command (c : Controller) (v : U32) :
  igfxWrite32 driver slaves pace c (driver.displayMmioBase + igfxGmbus1) v
    = c.writeCommand slaves pace v
  := by
  rw [igfxWrite32, reg_offset]
  rfl

/-- Whatever the controller was doing, its registers can be written after the reset. -/
theorem isProtected_reset (driver : Driver) (slaves : Slaves) (pace : ℕ → ℕ) (c : Controller) :
  (igfxGmbusReset driver slaves pace c).isProtected = false
  := by
  have hmask : ∀ v : U32, (v &&& 0x7fffffff).getLsbD 31 = false := by
    intro v
    rw [BitVec.getLsbD_and]
    exact Bool.and_false _
  have hclear : ∀ v : U32, (v &&& ~~~(1#32 <<< 31)).getLsbD 31 = false := by
    intro v
    rw [BitVec.getLsbD_and]
    exact Bool.and_false _
  have hset : ∀ v : U32, (v ||| 1#32 <<< 31).getLsbD 31 = true := by
    intro v
    rw [BitVec.getLsbD_or]
    exact Bool.or_true _
  have hzero : ∀ i, (0 : U32).getLsbD i = false := fun _ => BitVec.getLsbD_zero
  have hfirst : (c.writeCommand slaves pace 0).isProtected = false := by
    cases hprot : c.isProtected with
    | true =>
        rw [Controller.writeCommand, if_pos hprot]
        exact hmask c.command
    | false =>
        simp only [Controller.writeCommand, hprot, hzero]
        exact hzero 31
  rw [igfxGmbusReset, igfxGmbusEnableWriteprot, igfxGmbusDisableWriteprot]
  simp only [read_command, write_command]
  generalize c.writeCommand slaves pace 0 = c₁ at hfirst
  have hsecond : c₁.writeCommand slaves pace (c₁.command ||| 1#32 <<< 31)
      = { c₁ with command := c₁.command ||| 1#32 <<< 31, transfer := none, ready := true } := by
    rw [Controller.writeCommand, hfirst, if_neg Bool.false_ne_true, if_pos (hset _)]
  rw [hsecond]
  generalize hc₂ : { c₁ with
    command := c₁.command ||| 1#32 <<< 31, transfer := none, ready := true } = c₂
  have hprot : c₂.isProtected = true := by
    rw [← hc₂]
    exact hset _
  rw [Controller.writeCommand, if_pos hprot, hclear, if_neg Bool.false_ne_true]
  exact hmask _

/-- The parts of the command, as the controller takes them. -/
theorem gmbus1Val_bits (offset : BitVec 8) (sz : BitVec 16) :
  (gmbus1Val offset sz).getLsbD 31 = false ∧ (gmbus1Val offset sz).getLsbD 30 = true
    ∧ (gmbus1Val offset sz).getLsbD 25 = true ∧ (gmbus1Val offset sz).getLsbD 0 = true
    ∧ (gmbus1Val offset sz).extractLsb' 1 7 = offset.setWidth 7
    ∧ (gmbus1Val offset sz).extractLsb' 8 8 = 0
    ∧ (gmbus1Val offset sz).extractLsb' 16 9 = sz.setWidth 9
  := by
  refine ⟨?_, ?_, ?_, ?_, ?_, ?_, ?_⟩
  · simp [gmbus1Val]
  · simp [gmbus1Val]
  · simp [gmbus1Val]
  · simp [gmbus1Val]
  all_goals
    apply BitVec.eq_of_getLsbD_eq
    intro i hi
    simp only [BitVec.getLsbD_extractLsb']
    interval_cases i <;> simp [gmbus1Val]

/-- The command of `igfx_gmbus_read` begins a read of the slave from its first byte on. -/
theorem fetching_begin (pace : ℕ → ℕ) (hprot : c.isProtected = false) (hselect : c.select = 3)
    (offset : BitVec 8) {sz : BitVec 16} (hsz : sz.toNat < 0x200) {bytes : ℕ → BitVec 8}
    (hslave : slaves 3 (offset.setWidth 7) = some bytes) :
  (c.writeCommand slaves pace (gmbus1Val offset sz)).Fetching ⟨bytes, 0, sz.toNat⟩
  := by
  obtain ⟨h31, h30, h25, h0, haddr, hindex, hcount⟩ := gmbus1Val_bits offset sz
  apply Controller.writeCommand_of_read pace hprot h31 h30 ⟨h25, h0⟩
  have hpins : c.select.extractLsb' 0 3 = 3 := by
    rw [hselect]
    decide
  rw [Controller.transferOf, hpins, haddr, hslave, Option.map_some, hindex, hcount,
    BitVec.toNat_setWidth, Nat.mod_eq_of_lt hsz]
  simp

/-- The wait ends when the data register is full. -/
theorem wait_of_fetching (driver : Driver) (pace : ℕ → ℕ) {t : Transfer} (h : c.Fetching t)
    (hcount : t.count ≠ 0) :
  ∃ c', c'.Full t ∧ ∀ turns > c.left, igfxGmbusWait driver pace turns c = some c'
  := by
  obtain ⟨n, hn⟩ : ∃ n, n = c.left := ⟨_, rfl⟩
  induction n generalizing c with
  | zero =>
      rcases Controller.status_of_fetching h hcount with ⟨hleft, -⟩ | ⟨-, hbit, hfull⟩
      · exact absurd hn.symm hleft
      · refine ⟨_, hfull, fun turns hturns => ?_⟩
        obtain ⟨turns, rfl⟩ := Nat.exists_eq_succ_of_ne_zero (Nat.ne_zero_of_lt hturns)
        rw [igfxGmbusWait, read_status]
        rw [hbit, if_neg (by decide)]
  | succ n ih =>
      rcases Controller.status_of_fetching h hcount with ⟨-, hstatus⟩ | ⟨hleft, -⟩
      · obtain ⟨c', hfull, hwait⟩ := ih (c := { c with left := c.left - 1 })
          ⟨h.ready, h.transfer⟩ (by dsimp only; omega)
        refine ⟨c', hfull, fun turns hturns => ?_⟩
        obtain ⟨turns, rfl⟩ := Nat.exists_eq_succ_of_ne_zero (Nat.ne_zero_of_lt hturns)
        rw [igfxGmbusWait, read_status, hstatus]
        dsimp only
        rw [if_pos (by decide)]
        apply hwait
        dsimp only
        omega
      · rw [hleft] at hn
        cases hn

/-- A byte is stored after the ones before it, when it is one of those to be read. -/
theorem filled_succ {bytes : ℕ → BitVec 8} {sz i j : ℕ} (hij : i ≤ j) {b : BitVec 8}
    (hb : sz > j → b = bytes j) (buf : Raw) :
  (if sz > j then Function.update (filled bytes i (min sz j) buf) j b
    else filled bytes i (min sz j) buf) = filled bytes i (min sz (j + 1)) buf
  := by
  funext k
  split
  next hlt =>
    rw [hb hlt]
    by_cases hk : k = j
    · rw [hk, Function.update_self, filled, if_pos (by omega)]
    · rw [Function.update_of_ne hk, filled, filled]
      congr 1
      apply propext
      omega
  next hge =>
    rw [filled, filled]
    congr 1
    apply propext
    omega

theorem filled_nil {bytes : ℕ → BitVec 8} {i j : ℕ} (h : j ≤ i) (buf : Raw) :
  filled bytes i j buf = buf
  := by
  funext k
  rw [filled, if_neg (by omega)]

theorem filled_filled {bytes : ℕ → BitVec 8} {i j k : ℕ} (hij : i ≤ j) (hjk : j ≤ k) (buf : Raw) :
  filled bytes j k (filled bytes i j buf) = filled bytes i k buf
  := by
  funext x
  rw [filled, filled, filled]
  by_cases hx : x < j
  · rw [if_neg (by omega)]
    congr 1
    apply propext
    omega
  · rw [if_neg (show ¬ (i ≤ x ∧ x < j) by omega)]
    congr 1
    apply propext
    omega

theorem and_low (x : U32) :
  (x &&& 0xff).setWidth 8 = x.setWidth 8
  := by
  apply BitVec.eq_of_getLsbD_eq
  intro i hi
  simp only [BitVec.getLsbD_setWidth, BitVec.getLsbD_and]
  interval_cases i <;> simp

/-- A turn of the loop stores the bytes of a word, but for those after the last one. -/
theorem storeBytes_eq {t : Transfer} {sz : ℕ} (hsz : t.pos < sz) (hcount : t.count = sz - t.pos)
    (buf : Raw) :
  storeBytes sz t.pos t.word buf = filled t.bytes t.pos (min sz (t.pos + 4)) buf
  := by
  have hbyte : ∀ j < 4, sz > t.pos + j →
      (t.word >>> (8 * j) &&& 0xff).setWidth 8 = t.bytes (t.pos + j) := by
    intro j hj hlt
    rw [and_low, t.word_byte hj (by omega)]
  have h0 : sz > t.pos → (t.word &&& 0xff).setWidth 8 = t.bytes t.pos := hbyte 0 (by decide)
  have hfirst : Function.update buf t.pos ((t.word &&& 0xff).setWidth 8)
      = filled t.bytes t.pos (min sz (t.pos + 1)) buf := by
    rw [← filled_succ le_rfl h0, if_pos hsz, filled_nil (by omega)]
  rw [storeBytes, hfirst]
  rw [filled_succ (by omega) (hbyte 1 (by decide)), filled_succ (by omega) (hbyte 2 (by decide)),
    filled_succ (by omega) (hbyte 3 (by decide))]

/-- The loop ends when the bytes that are left have been read. -/
theorem readLoop_eq (driver : Driver) (pace : ℕ → ℕ) {bytes : ℕ → BitVec 8} {sz left i : ℕ}
    (hleft : sz ≤ i + left) (h : i < sz → c.Fetching ⟨bytes, i, sz - i⟩) (buf : Raw) :
  ∃ n c', ∀ turns ≥ n, readLoop driver pace turns sz left i buf c
    = some (filled bytes i sz buf, c')
  := by
  induction left generalizing i buf c with
  | zero =>
      refine ⟨0, c, fun turns _ => ?_⟩
      rw [readLoop, filled_nil (by omega)]
  | succ left ih =>
      by_cases hlt : i < sz
      · have hfetching := h hlt
        obtain ⟨c₁, hfull, hwait⟩ := wait_of_fetching driver pace hfetching
          (show sz - i ≠ 0 by omega)
        obtain ⟨hdata, hnext⟩ := Controller.readData_of_full pace hfull
        obtain ⟨n, c', hrest⟩ := ih (i := i + 4) (by omega)
          (fun _ => by rwa [Transfer.next, Nat.sub_sub] at hnext)
          (filled bytes i (min sz (i + 4)) buf)
        refine ⟨max (c.left + 1) n, c', fun turns hturns => ?_⟩
        rw [readLoop, if_pos hlt, hwait turns (by omega), Option.bind_eq_bind, Option.bind_some,
          read_data]
        dsimp only
        rw [hdata, storeBytes_eq (t := ⟨bytes, i, sz - i⟩) hlt rfl, hrest turns (by omega)]
        rcases Nat.le_total sz (i + 4) with hle | hge
        · rw [Nat.min_eq_left hle, filled_nil hle]
        · rw [Nat.min_eq_right hge, filled_filled (by omega) hge]
      · refine ⟨0, c, fun turns _ => ?_⟩
        rw [readLoop, if_neg hlt, filled_nil (by omega)]

/-- Whatever the controller was doing and however slow it is, `igfx_gmbus_read` comes to its end,
and has read the bytes of the slave into the buffer and written to no other place of it. -/
theorem igfxGmbusRead_eq (pace : ℕ → ℕ) (harch : driver.architecture = cherrytrail)
    {offset : BitVec 8} {sz : BitVec 16} (hsz : sz.toNat < 0x200) {bytes : ℕ → BitVec 8}
    (hslave : slaves 3 (offset.setWidth 7) = some bytes) (buf : Raw) (c : Controller) :
  ∃ n c', ∀ turns ≥ n, igfxGmbusRead driver slaves pace turns 0 offset sz buf c
    = some (filled bytes 0 sz.toNat buf, c')
  := by
  have hprot := isProtected_reset driver slaves pace c
  have hgmbus0 : gmbus0Val driver 0 = 3 := by rw [gmbus0Val, if_pos harch, if_pos rfl]
  obtain ⟨c₁, hc₁⟩ : ∃ c₁, c₁ = igfxGmbusReset driver slaves pace c := ⟨_, rfl⟩
  rw [← hc₁] at hprot
  have hselect : c₁.writeSelect 3 = { c₁ with select := 3 } := by
    rw [Controller.writeSelect, hprot, if_neg Bool.false_ne_true]
  have hfetching := fetching_begin (c := { c₁ with select := 3 }) pace hprot rfl offset hsz hslave
  have hleft : sz.toNat ≤ 0 + sz.toNat := Nat.le_of_eq (Nat.zero_add _).symm
  obtain ⟨n, c', hloop⟩ := readLoop_eq driver pace hleft (fun _ => hfetching) buf
  refine ⟨n, igfxGmbusStoptransaction driver slaves pace c', fun turns hturns => ?_⟩
  rw [igfxGmbusRead, ← hc₁, hgmbus0, write_select, hselect, write_command]
  dsimp only
  rw [hloop turns hturns]
  rfl

end Handshake

/-! ### Runs of polls -/

section Runs

variable {driver : Driver} {port : Port} {displayCount i : ℕ}

/-- Only the first display of a Cherry Trail can be plugged in. -/
theorem of_isConnected {p : Poll} (h : isConnected driver p displayCount i = true) :
  driver.architecture = cherrytrail ∧ i = 0 ∧ p.hotplugStat &&& hotplugStatBitHdmiD ≠ 0
  := by
  rw [isConnected] at h
  split at h
  next hdriver =>
    split at h
    next hi => exact ⟨hdriver.1, hi, of_decide_eq_true h⟩
    next => cases h
  next => cases h

/-- The words of a block, taken apart again. -/
theorem gmbusRead_poll (port : Port) (i : ℕ) :
  gmbusRead (port.poll.gmbus3 i) = port.block
  := by
  funext k
  rw [gmbusRead, Port.poll, Gmbus.word_byte _ _ (Nat.mod_lt k (by decide)), Nat.div_add_mod]

/-- The block of a display that is plugged in is read. -/
theorem igfxGmbusRead_block (pace : ℕ → ℕ) (hanswers : port.Answers)
    (h : isConnected driver port.registers displayCount i = true) (c : Controller) :
  ∃ n c', ∀ turns ≥ n, igfxGmbusRead driver port.slaves pace turns i 0x50 0x80 port.edidRaw c
    = some (port.block, c')
  := by
  obtain ⟨harch, rfl, hplugged⟩ := of_isConnected h
  obtain ⟨bytes, hbytes⟩ := Option.isSome_iff_exists.mp (hanswers hplugged)
  rw [Port.block, hbytes]
  exact igfxGmbusRead_eq pace harch (by decide) hbytes port.edidRaw c

/-- A display is checked as in a poll that reads the block of the display that is plugged in. -/
theorem checkDisplayOn_eq (driver : Driver) (pace : ℕ → ℕ) (hanswers : port.Answers)
    (info : DisplayInfo) (c : Controller) :
  ∃ n c', ∀ turns ≥ n, checkDisplayOn driver pace turns port displayCount i info c
    = some (checkDisplay driver port.poll displayCount i info, c')
  := by
  have hplugged : isConnected driver port.poll displayCount i
      = isConnected driver port.registers displayCount i := rfl
  have hpipe : ∀ mode, pipeSetup driver port.poll i mode = pipeSetup driver port.registers i mode :=
    fun _ => rfl
  by_cases hnew : isConnected driver port.registers displayCount i = true ∧ ¬ info.connected = true
  · obtain ⟨n, c', hread⟩ := igfxGmbusRead_block pace hanswers hnew.1 c
    refine ⟨n, c', fun turns hturns => ?_⟩
    rw [checkDisplayOn, checkDisplay, hplugged, gmbusRead_poll]
    dsimp only
    rw [if_pos hnew, if_pos hnew, hread turns hturns, Option.bind_eq_bind, Option.bind_some]
    dsimp only
    cases parseEdid port.block info.edid with
    | mk accepted edid =>
        cases accepted with
        | false => rfl
        | true =>
            dsimp only
            rw [hpipe]
            rfl
  · refine ⟨0, c, fun turns _ => ?_⟩
    rw [checkDisplayOn, checkDisplay, hplugged]
    dsimp only
    rw [if_neg hnew, if_neg hnew]
    split <;> rfl

/-- A poll ends, and does what was said about polls. -/
theorem hotplugLoop_eq (driver : Driver) (pace : ℕ → ℕ) (hanswers : port.Answers)
    (displayCount : ℕ) (displays : List DisplayInfo) (c : Controller) :
  ∃ n c', ∀ turns ≥ n, hotplugLoop driver pace turns port displayCount i displays c
    = some (displays.mapIdx fun k info => checkDisplay driver port.poll displayCount (i + k) info,
      c')
  := by
  induction displays generalizing i c with
  | nil => exact ⟨0, c, fun _ _ => rfl⟩
  | cons info displays ih =>
      obtain ⟨n, c₁, hcheck⟩ := checkDisplayOn_eq driver pace hanswers info c
      obtain ⟨m, c₂, hrest⟩ := ih (i := i + 1) c₁
      refine ⟨max n m, c₂, fun turns hturns => ?_⟩
      rw [hotplugLoop, hcheck turns (by omega), Option.bind_eq_bind, Option.bind_some]
      dsimp only
      rw [hrest turns (by omega), List.mapIdx_cons]
      simp only [Nat.add_assoc, Nat.add_comm 1]
      rfl

/-- Whatever the controller was doing, however slow it is, and whatever is plugged in and out in
between: each poll ends, reads the block of the display that is plugged in, and does with it what
was said about polls. -/
theorem polls_refine (driver : Driver) (pace : ℕ → ℕ) {ports : List Port}
    (hanswers : ∀ port ∈ ports, port.Answers) (displays : List DisplayInfo) (c : Controller) :
  ∃ n c', ∀ turns ≥ n, pollAll driver pace turns ports displays c
    = some (checkAll driver displays (ports.map Port.poll), c')
  := by
  induction ports generalizing displays c with
  | nil => exact ⟨0, c, fun _ _ => rfl⟩
  | cons port ports ih =>
      obtain ⟨n, c₁, hpoll⟩ := hotplugLoop_eq (i := 0) driver pace
        (hanswers port List.mem_cons_self) displays.length displays c
      have hmap : (displays.mapIdx fun k info =>
          checkDisplay driver port.poll displays.length (0 + k) info)
          = checkHotplugs driver displays port.poll := by
        simp only [Nat.zero_add]
        rfl
      rw [hmap] at hpoll
      obtain ⟨m, c₂, hrest⟩ := ih (fun q hq => hanswers q (List.mem_cons_of_mem _ hq))
        (poll driver displays port.poll) c₁
      refine ⟨max n m, c₂, fun turns hturns => ?_⟩
      rw [pollAll, hpoll turns (by omega), Option.bind_eq_bind, Option.bind_some]
      dsimp only
      rw [show (checkHotplugs driver displays port.poll).map Prod.fst
        = poll driver displays port.poll from rfl, hrest turns (by omega)]
      rfl

end Runs

/-- A controller in the middle of another read, and a display that is plugged in, out, and in
again. -/
theorem polls_refine_replugged :
  let port : Port := {
    hotplugStat := hotplugStatBitHdmiD, videoDipCtlC := 0
    slaves := fun _ addr => if addr = 0x50 then some (Edid.blockOf (Edid.vga 10 2)) else none
    edidRaw := fun _ => 0xa5 }
  let ports : List Port := [port, { port with hotplugStat := 0, slaves := fun _ _ => none }, port]
  let c : Controller := {
    select := 5, command := 0xc2800101, data := 7, ready := false
    transfer := some ⟨fun _ => 1, 3, 9⟩, left := 2, filled := 4 }
  ∃ n c', ∀ turns ≥ n, pollAll chv (fun k => k) turns ports [initDisplay clear] c
    = some (checkAll chv [initDisplay clear] (ports.map Port.poll), c')
  := by
  intro port ports c
  apply polls_refine
  intro q hq hplugged
  obtain rfl | rfl | rfl : q = port ∨ q = { port with hotplugStat := 0, slaves := fun _ _ => none }
      ∨ q = port := by simpa [ports] using hq
  · rfl
  · exact absurd (by decide) hplugged
  · rfl

end Igfx
