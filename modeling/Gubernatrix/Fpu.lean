import Gubernatrix.Cpuid
import Gubernatrix.Lib.ExtendedState
import Gubernatrix.Strings.Memory

/-!
# The state of the FPU

`fpu.c`: `fp_platform_init` enables the x87, the SSE and all further state that the processor has,
and the state is put into buffers and taken back with `xsave` or, if there is none, with `fxsave`.

To the code that takes turns on a core the state is a variable, and so is each buffer: `fp_runs`
says so for any run, from the first `fp_platform_getdefaultstate` of a buffer on. The default state
is not the same in both cases: `xrstor` goes by the header, which is zero, and initialises the x87
state whatever the control word in the buffer.
-/

namespace Fpu

open Cpuid XState

/-! ### `fpu.c` -/

/-- The static variables of `fpu.c`. -/
structure Vars where
  xsave : Bool
  xsaveBits : U64
  xsaveSz : U64

/-- What `fp_platform_init` sets them to. -/
def vars (info : Cpuinfo) : Vars where
  xsave := info.xsave
  xsaveBits := info.xsaveBits
  xsaveSz := info.xsaveSz.setWidth 64

/-- The value of `cr0` with the FPU enabled, and its errors reported. -/
def enabledCr0 (cr0 : U64) : U64 :=
  let cr0 := cr0 &&& ~~~((1 : U64) <<< 2)
  let cr0 := cr0 ||| (1 : U64) <<< 1
  cr0 ||| (1 : U64) <<< 5

/-- The value of `cr4` with the instructions enabled that move the state. -/
def enabledCr4 (xsave : Bool) (cr4 : U64) : U64 :=
  let cr4 := cr4 ||| (1 : U64) <<< 9
  let cr4 := cr4 ||| (1 : U64) <<< 10
  if xsave = true then cr4 ||| (1 : U64) <<< 18 else cr4

/-- `fp_platform_init`, with the core after it. -/
def fpPlatformInit (v : Vars) (hw : Hardware) (c : Core) : Option Core := do
  let c := { c with cr0 := enabledCr0 c.cr0 }
  let c ← movCr4 hw c (enabledCr4 v.xsave c.cr4)
  let c ← fninit c
  if v.xsave = true then xsetbv hw c v.xsaveBits else some c

/-- `fp_platform_getstatesize`, an `int`. -/
def fpPlatformGetstatesize (v : Vars) : ℤ :=
  if v.xsave = true then toInt32 (v.xsaveSz + 64).toNat else 512

/-- `fp_platform_getalign`. -/
def fpPlatformGetalign (v : Vars) : ℤ := if v.xsave = true then 64 else 16

/-- `fp_platform_getstate`. -/
def fpPlatformGetstate (v : Vars) (hw : Hardware) (c : Core) (m : Mem) (buf : U64) : Option Mem :=
  if v.xsave = true then xsave hw (BitVec.allOnes 64) c m buf else fxsave hw c m buf

/-- `fp_platform_setstate`. -/
def fpPlatformSetstate (v : Vars) (hw : Hardware) (c : Core) (m : Mem) (buf : U64) : Option Core :=
  if v.xsave = true then xrstor hw (BitVec.allOnes 64) c m buf else fxrstor hw c m buf

/-- `*a = x` for a `uint16_t`. -/
def store16 (m : Mem) (a : U64) (x : BitVec 16) : Mem :=
  Function.update (Function.update m a (x.extractLsb' 0 8)) (a + 1) (x.extractLsb' 8 8)

/-- `fp_platform_getdefaultstate`; a turn of `memset` for each byte is enough. -/
def fpPlatformGetdefaultstate (v : Vars) (m : Mem) (buf : U64) : Option Mem := do
  let n := BitVec.ofInt 64 (fpPlatformGetstatesize v)
  let m ← Strings.memset (n.toNat + 1) m buf 0 n
  let m := store16 m buf 0x33f
  some (store16 m (buf + 24) 0x1f80)

/-! ### Runs -/

/-- The components that are moved. -/
def Vars.bits (v : Vars) : ℕ → Bool :=
  if v.xsave = true then v.xsaveBits.getLsbD else legacy true

/-- The bytes of a buffer. -/
def Vars.size (v : Vars) : ℕ := (fpPlatformGetstatesize v).toNat

/-- What happens on a core: some code changes the state, or calls one of the functions. -/
inductive Event (β : Type) where
  | code (image : Image)
  | getState (b : β)
  | setState (b : β)
  | getDefaultState (b : β)

variable {β : Type}

/-- The core and the memory after an event. -/
def Event.exec (v : Vars) (hw : Hardware) (addr : β → U64) (c : Core) (m : Mem) :
    Event β → Option (Core × Mem)
  | .code image => some ({ c with image := image }, m)
  | .getState b => (fpPlatformGetstate v hw c m (addr b)).map fun m' => (c, m')
  | .setState b => (fpPlatformSetstate v hw c m (addr b)).map fun c' => (c', m)
  | .getDefaultState b => (fpPlatformGetdefaultstate v m (addr b)).map fun m' => (c, m')

/-- The core and the memory after a run. -/
def runs (v : Vars) (hw : Hardware) (addr : β → U64) :
    List (Event β) → Core → Mem → Option (Core × Mem)
  | [], c, m => some (c, m)
  | e :: es, c, m => (e.exec v hw addr c m).bind fun x => runs v hw addr es x.1 x.2

/-- The state that a core has with the default state: the initial one, but for the control word of
the x87 without a header. -/
def defaultImage (xsave : Bool) : Image := fun p =>
  if xsave = false ∧ p = 0 then 0x3f else initial p

/-- The state and the buffers after an event, as variables; nothing is known of a buffer before it
gets the default state, and it may not be used. -/
def Event.assign [DecidableEq β] (v : Vars) (hw : Hardware) (state : Image)
    (bufs : β → Option Image) : Event β → Option (Image × (β → Option Image))
  | .code image => some (hw.view v.bits image, bufs)
  | .getState b => (bufs b).map fun _ => (state, Function.update bufs b (some state))
  | .setState b => (bufs b).map fun state => (state, bufs)
  | .getDefaultState b =>
      some (state, Function.update bufs b (some (hw.view v.bits (defaultImage v.xsave))))

/-- The state and the buffers after a run, as variables. -/
def assigns [DecidableEq β] (v : Vars) (hw : Hardware) :
    List (Event β) → Image → (β → Option Image) → Option (Image × (β → Option Image))
  | [], state, bufs => some (state, bufs)
  | e :: es, state, bufs => (e.assign v hw state bufs).bind fun x => assigns v hw es x.1 x.2

/-- The processor is as `cpuid` describes it: all components that it names may be enabled, and fit
in the area with the header. -/
structure Vars.Describes (v : Vars) (hw : Hardware) : Prop where
  xsave : hw.xsave = v.xsave
  sound : hw.Sound
  mxcsr : hw.ValidMxcsr initial
  enables : v.xsave = true → hw.Enables v.xsaveBits
  header : v.xsave = true → 576 ≤ v.xsaveSz.toNat
  fits : v.xsave = true → ∀ i, 2 ≤ i → i < 64 → v.xsaveBits.getLsbD i = true →
    hw.offset i + hw.size i ≤ v.xsaveSz.toNat
  int : v.xsaveSz.toNat + 64 < 2 ^ 31

/-- The buffers are as large and aligned as the functions say, and have no byte in common. -/
structure Placed (v : Vars) (addr : β → U64) : Prop where
  aligned : ∀ b, ((addr b).toNat : ℤ) % fpPlatformGetalign v = 0
  apart : ∀ b b', b ≠ b' → ∀ p < v.size, ∀ q < v.size,
    addr b + BitVec.ofNat 64 p ≠ addr b' + BitVec.ofNat 64 q

/-! ### The area of a buffer -/

section Areas

variable {v : Vars} {hw : Hardware} {c : Core} {m m' : Mem} {buf : U64} {state : Image}

theorem getstatesize_eq (hd : v.Describes hw) :
  fpPlatformGetstatesize v = v.size
  := by
  have hint := hd.int
  have h : 0 ≤ fpPlatformGetstatesize v := by
    rw [fpPlatformGetstatesize]
    split
    · rw [toInt32_of_lt]
      · exact Int.natCast_nonneg _
      · bv_omega
    · decide
  exact (Int.toNat_of_nonneg h).symm

/-- The size of a buffer: the area with all components, or the legacy one. -/
theorem size_eq (hd : v.Describes hw) :
  v.size = if v.xsave = true then v.xsaveSz.toNat + 64 else 512
  := by
  have hint := hd.int
  rw [Vars.size, fpPlatformGetstatesize]
  split
  · have hadd : (v.xsaveSz + 64).toNat = v.xsaveSz.toNat + 64 := by bv_omega
    rw [hadd, toInt32_of_lt hint]
    rfl
  · rfl

theorem size_lt (hd : v.Describes hw) :
  512 ≤ v.size ∧ v.size < 2 ^ 31
  := by
  have hint := hd.int
  rw [size_eq hd]
  split
  next hx =>
    have := hd.header hx
    omega
  next => exact ⟨le_rfl, by decide⟩

theorem known_bits (hd : v.Describes hw) :
  hw.Known v.bits
  := by
  rw [Vars.bits]
  split
  next hx =>
    intro i _ _ hbit
    by_contra hnot
    have hzero := congrArg (fun x : U64 => x.getLsbD i) (hd.enables hx).1
    simp only [BitVec.getLsbD_and, BitVec.getLsbD_not, hbit] at hzero
    simp_all
  next => exact known_legacy true

/-- The state that is moved fits in the buffer. -/
theorem lt_size (hd : v.Describes hw) {p : ℕ} (h : hw.Managed v.bits p) :
  p < v.size
  := by
  have hsize := (size_lt hd).1
  rcases h with ⟨i, hi, hbit, h⟩ | h
  · match i, h with
    | 0, h =>
        rcases h with h | h
        · omega
        · omega
    | 1, h =>
        have := h.2
        omega
    | i + 2, h =>
        rw [Vars.bits] at hbit
        split at hbit
        next hx =>
          have hfits := hd.fits hx (i + 2) (by omega) hi hbit
          have hlt := h.2
          rw [size_eq hd, if_pos hx]
          omega
        next => cases hbit
  · omega

/-- A buffer holds a state: that is the state after it is taken from the buffer, which does not
fault. -/
def Holds (v : Vars) (hw : Hardware) (m : Mem) (buf : U64) (state : Image) : Prop :=
  if v.xsave = true then
    hw.Accepts v.xsaveBits v.xsaveBits m buf
      ∧ hw.view v.bits (hw.take v.bits (xstateBv m buf) m buf fun _ => 0) = state
  else hw.ValidMxcsr (area m buf) ∧ hw.view v.bits (area m buf) = state

/-- What a buffer holds depends on its bytes only. -/
theorem Holds.congr (hd : v.Describes hw) (harea : ∀ p < v.size, area m' buf p = area m buf p)
    (h : Holds v hw m buf state) :
  Holds v hw m' buf state
  := by
  have hsize := size_eq hd
  rw [Holds] at h ⊢
  split at h
  next hx =>
    have hheader := hd.header hx
    rw [if_pos hx] at hsize ⊢
    refine ⟨h.1.congr fun p hp => harea p (by omega), ?_⟩
    rw [← h.2]
    apply view_take_congr
    · intro i hi
      rw [xstateBv, harea _ (by omega), xstateBv]
    · exact fun p hp => harea p (lt_size hd hp)
  next hx =>
    rw [if_neg hx] at hsize ⊢
    refine ⟨(validMxcsr_congr fun p _ hlt => harea p (by omega)).mpr h.1, ?_⟩
    rw [← h.2]
    funext p
    rw [Hardware.view, Hardware.view]
    split
    next hp => exact harea p (lt_size hd hp)
    next => rfl

end Areas

/-! ### The functions -/

section Functions

variable {v : Vars} {hw : Hardware} {c : Core} {m : Mem} {buf : U64} {state : Image}

/-- What `fp_platform_init` leaves, and everything else keeps. -/
structure Ready (v : Vars) (hw : Hardware) (c : Core) : Prop where
  em : c.em = false
  ts : c.ts = false
  osfxsr : c.osfxsr = true
  osxsave : v.xsave = true → c.osxsave = true
  xcr0 : v.xsave = true → c.xcr0 = v.xsaveBits
  mxcsr : hw.ValidMxcsr c.image

theorem enabledCr0_bits (cr0 : U64) :
  (enabledCr0 cr0).getLsbD 2 = false ∧ (enabledCr0 cr0).getLsbD 3 = cr0.getLsbD 3
  := by
  constructor
  · simp [enabledCr0]
  · simp [enabledCr0]

theorem enabledCr4_bits (xsave : Bool) (cr4 : U64) :
  (enabledCr4 xsave cr4).getLsbD 9 = true
    ∧ (enabledCr4 xsave cr4).getLsbD 18 = (xsave || cr4.getLsbD 18)
  := by
  cases xsave with
  | false => constructor <;> simp [enabledCr4]
  | true => constructor <;> simp [enabledCr4]

/-- After `fp_platform_init` the state can be moved; the control words of the x87 are initialised,
and its registers, like the rest of the state, are left. -/
theorem fpPlatformInit_eq (hd : v.Describes hw) (hc : hw.Possible c) (hts : c.ts = false) :
  ∃ c', fpPlatformInit v hw c = some c' ∧ Ready v hw c'
    ∧ c'.image = fun p => if p < 24 then initial p else c.image p
  := by
  have himage : hw.ValidMxcsr fun p => if p < 24 then initial p else c.image p := by
    refine (validMxcsr_congr fun p hle _ => ?_).mpr hc.mxcsr
    exact if_neg (by omega)
  obtain ⟨hem, hts'⟩ := enabledCr0_bits c.cr0
  obtain ⟨h9, h18⟩ := enabledCr4_bits v.xsave c.cr4
  rw [← Core.ts, hts] at hts'
  rw [← Core.osxsave] at h18
  have hcr4 : (enabledCr4 v.xsave c.cr4).getLsbD 18 = true → hw.xsave = true := by
    rw [h18, hd.xsave, Bool.or_eq_true]
    rintro (h | h)
    · exact h
    · rw [← hd.xsave]
      exact hc.osxsave h
  rw [fpPlatformInit, movCr4, if_pos hcr4, Option.bind_eq_bind, Option.bind_some, fninit,
    if_pos ⟨hem, hts'⟩, Option.bind_some]
  cases hx : v.xsave with
  | false =>
      rw [hx] at h9
      refine ⟨_, rfl, ⟨hem, hts', h9, ?_, ?_, himage⟩, rfl⟩
      · rw [hx]
        exact nofun
      · rw [hx]
        exact nofun
  | true =>
      rw [hx, Bool.true_or] at h18
      rw [hx] at h9
      rw [if_pos rfl, xsetbv, if_pos ⟨h18, hd.enables hx⟩]
      exact ⟨_, rfl, ⟨hem, hts', h9, fun _ => h18, fun _ => rfl, himage⟩, rfl⟩

/-- The buffers are aligned as the instructions want it. -/
theorem aligned_iff (a k : U64) :
  a % k = 0 ↔ (a.toNat : ℤ) % k.toNat = 0
  := by
  rw [← BitVec.toNat_inj, BitVec.toNat_umod]
  change a.toNat % k.toNat = 0 ↔ _
  omega

/-- `fp_platform_getstate` puts the state into a buffer that already holds one, and writes nothing
else. -/
theorem fpPlatformGetstate_eq (hd : v.Describes hw) (hc : Ready v hw c)
    (haligned : (buf.toNat : ℤ) % fpPlatformGetalign v = 0) (h : Holds v hw m buf state) :
  ∃ m', fpPlatformGetstate v hw c m buf = some m' ∧ Holds v hw m' buf (hw.view v.bits c.image)
    ∧ ∀ a, v.size ≤ (a - buf).toNat → m' a = m a
  := by
  have hknown := known_bits hd
  have hsize := size_lt hd
  have hlt : ∀ p, hw.Managed v.bits p → p < 2 ^ 64 := fun p hp => by
    have := lt_size hd hp
    omega
  rw [fpPlatformGetstate]
  rw [fpPlatformGetalign] at haligned
  rw [Holds] at h
  simp only [Holds]
  split
  next hx =>
    rw [if_pos hx] at h haligned
    have hbits : v.bits = v.xsaveBits.getLsbD := if_pos hx
    have h64 : buf % 64 = 0 := (aligned_iff buf 64).mpr haligned
    rw [xsave, BitVec.and_allOnes, hc.xcr0 hx, if_pos ⟨hc.osxsave hx, hc.ts, h64⟩]
    rw [hbits] at hknown hlt ⊢
    refine ⟨_, rfl, ⟨accepts_put hd.sound hknown h.1 hc.mxcsr, ?_⟩, fun a ha => ?_⟩
    · apply view_take_put hd.sound _ hlt
      intro i hi hbit
      rw [xstateBv_put hd.sound hknown hi, xstateBv_putHeader hi, if_pos hbit]
    · rw [put_outside (fun p hp => lt_size hd (hbits ▸ hp)) (by omega) ha, putHeader_outside]
      have hheader := hd.header hx
      rw [size_eq hd, if_pos hx] at ha
      omega
  next hx =>
    rw [if_neg hx] at h haligned
    have hbits : v.bits = legacy true := if_neg hx
    have h16 : buf % 16 = 0 := (aligned_iff buf 16).mpr haligned
    rw [fxsave, hc.osfxsr, if_pos ⟨hc.em, hc.ts, h16⟩]
    rw [hbits] at hlt ⊢
    refine ⟨_, rfl, ⟨validMxcsr_put (.inl rfl) hc.mxcsr, view_area_put hlt⟩, fun a ha => ?_⟩
    exact put_outside (fun p hp => lt_size hd (hbits ▸ hp)) (by omega) ha

/-- `fp_platform_setstate` takes the state that the buffer holds. -/
theorem fpPlatformSetstate_eq (hd : v.Describes hw) (hc : Ready v hw c)
    (haligned : (buf.toNat : ℤ) % fpPlatformGetalign v = 0) (h : Holds v hw m buf state) :
  ∃ c', fpPlatformSetstate v hw c m buf = some c' ∧ Ready v hw c' ∧ hw.view v.bits c'.image = state
  := by
  have hknown := known_bits hd
  rw [fpPlatformSetstate]
  rw [fpPlatformGetalign] at haligned
  rw [Holds] at h
  split
  next hx =>
    rw [if_pos hx] at h haligned
    have hbits : v.bits = v.xsaveBits.getLsbD := if_pos hx
    have h64 : buf % 64 = 0 := (aligned_iff buf 64).mpr haligned
    rw [xrstor, BitVec.and_allOnes, hc.xcr0 hx, if_pos ⟨⟨hc.osxsave hx, hc.ts, h64⟩, h.1⟩]
    rw [hbits] at hknown h ⊢
    refine ⟨_, rfl, ⟨hc.em, hc.ts, hc.osfxsr, hc.osxsave, fun _ => rfl, ?_⟩, ?_⟩
    · exact validMxcsr_take hd.sound hknown h.1.mxcsr hc.mxcsr
    · exact (view_take _ _ _).trans h.2
  next hx =>
    rw [if_neg hx] at h haligned
    have hbits : v.bits = legacy true := if_neg hx
    have h16 : buf % 16 = 0 := (aligned_iff buf 16).mpr haligned
    rw [fxrstor, hc.osfxsr, if_pos ⟨⟨hc.em, hc.ts, h16⟩, fun _ => h.1⟩]
    rw [hbits] at hknown h ⊢
    refine ⟨_, rfl, ⟨hc.em, hc.ts, hc.osfxsr, hc.osxsave, hc.xcr0, ?_⟩, ?_⟩
    · exact validMxcsr_take hd.sound hknown (fun _ => h.1) hc.mxcsr
    · exact (view_take_true _).trans h.2

end Functions

/-! ### The default state -/

section Default

variable {v : Vars} {hw : Hardware} {m m' : Mem} {buf : U64}

theorem place_inj {p q : ℕ} (hp : p < 2 ^ 64) (hq : q < 2 ^ 64) :
  buf + BitVec.ofNat 64 p = buf + BitVec.ofNat 64 q ↔ p = q
  := by
  constructor
  · intro h
    have hback : ∀ r < 2 ^ 64, (buf + BitVec.ofNat 64 r - buf).toNat = r := fun _ hr => sub_place hr
    rw [← hback p hp, h, hback q hq]
  · rintro rfl
    rfl

/-- What an area holds after a `uint16_t` is stored in it. -/
theorem area_store16 {b : U64} {k p : ℕ} (hb : b = buf + BitVec.ofNat 64 k)
    (hk : k + 1 < 2 ^ 64) (hp : p < 2 ^ 64) (x : BitVec 16) :
  area (store16 m b x) buf p
    = if p = k + 1 then x.extractLsb' 8 8
      else if p = k then x.extractLsb' 0 8 else area m buf p
  := by
  subst hb
  have hnext : buf + BitVec.ofNat 64 k + 1 = buf + BitVec.ofNat 64 (k + 1) := by
    rw [BitVec.add_assoc, BitVec.ofNat_add]
    rfl
  rw [area, store16, hnext, Function.update_apply, Function.update_apply]
  simp only [place_inj hp hk, place_inj hp (Nat.lt_of_succ_lt hk)]
  rfl

theorem store16_outside {a b : U64} (ha : a ≠ b) (ha' : a ≠ b + 1) (x : BitVec 16) :
  store16 m b x a = m a
  := by
  rw [store16, Function.update_of_ne ha', Function.update_of_ne ha]

/-- Besides the control words, the default state is zero. -/
theorem initial_eq_zero {p : ℕ} (hp : 1 < p ∧ p < 24 ∨ 26 ≤ p) :
  initial p = 0
  := by
  unfold initial
  split
  · omega
  · omega
  · omega
  · omega
  · rfl

/-- The bytes of a buffer with the default state. -/
theorem fpPlatformGetdefaultstate_area (hd : v.Describes hw) (m : Mem) (buf : U64) :
  ∃ m', fpPlatformGetdefaultstate v m buf = some m'
    ∧ (∀ p < v.size, area m' buf p = defaultImage false p)
    ∧ ∀ a, v.size ≤ (a - buf).toNat → m' a = m a
  := by
  obtain ⟨hle, hlt⟩ := size_lt hd
  have hn : BitVec.ofInt 64 (fpPlatformGetstatesize v) = BitVec.ofNat 64 v.size := by
    rw [getstatesize_eq hd, BitVec.ofInt_natCast]
  have hnat : (BitVec.ofNat 64 v.size).toNat = v.size := by
    rw [BitVec.toNat_ofNat]
    exact Nat.mod_eq_of_lt (by omega)
  obtain ⟨m₁, hmemset, hwritten⟩ := Strings.memset_written m buf 0 (BitVec.ofNat 64 v.size)
  rw [Strings.written_iff] at hwritten
  have hbuf : buf = buf + BitVec.ofNat 64 0 := (BitVec.add_zero buf).symm
  have hmxcsr : buf + 24 = buf + BitVec.ofNat 64 24 := rfl
  refine ⟨store16 (store16 m₁ buf 0x33f) (buf + 24) 0x1f80, ?_, fun p hp => ?_, fun a ha => ?_⟩
  · rw [fpPlatformGetdefaultstate]
    dsimp only
    rw [hn, hmemset]
    rfl
  · have hzero : area m₁ buf p = 0 := by
      rw [area, hwritten, if_pos]
      · rfl
      · rw [BitVec.lt_def, sub_place (by omega), hnat]
        exact hp
    have hp' : p < 2 ^ 64 := by omega
    rw [area_store16 hmxcsr (by decide) hp', area_store16 hbuf (by decide) hp', hzero,
      defaultImage]
    obtain rfl | rfl | rfl | rfl | hrest : p = 0 ∨ p = 1 ∨ p = 24 ∨ p = 25
        ∨ (1 < p ∧ p < 24 ∨ 26 ≤ p) := by omega
    · rfl
    · rfl
    · rfl
    · rfl
    · rw [if_neg (by omega), if_neg (by omega), if_neg (by omega), if_neg (by omega),
        if_neg (by omega), initial_eq_zero hrest]
  · have hnot : ∀ k < v.size, a ≠ buf + BitVec.ofNat 64 k := by
      rintro k hk rfl
      rw [sub_place (by omega)] at ha
      omega
    have h0 := hnot 0 (by omega)
    rw [← hbuf] at h0
    have h1 : a ≠ buf + 1 := hnot 1 (by omega)
    have h24 : a ≠ buf + 24 := hnot 24 (by omega)
    have h25 : a ≠ buf + 24 + 1 := by
      rw [BitVec.add_assoc]
      exact hnot 25 (by omega)
    rw [store16_outside h24 h25, store16_outside h0 h1, hwritten, if_neg]
    rw [BitVec.lt_def, hnat]
    omega

/-- A buffer with the default state holds it. -/
theorem fpPlatformGetdefaultstate_eq (hd : v.Describes hw) (m : Mem) (buf : U64) :
  ∃ m', fpPlatformGetdefaultstate v m buf = some m'
    ∧ Holds v hw m' buf (hw.view v.bits (defaultImage v.xsave))
    ∧ ∀ a, v.size ≤ (a - buf).toNat → m' a = m a
  := by
  obtain ⟨hle, -⟩ := size_lt hd
  have hsize := size_eq hd
  obtain ⟨m', hget, harea, houtside⟩ := fpPlatformGetdefaultstate_area hd m buf
  have hinitial : ∀ p, 0 < p → p < v.size → area m' buf p = initial p := by
    intro p hpos hp
    rw [harea p hp, defaultImage, if_neg (by omega)]
  have hmxcsr : hw.ValidMxcsr (area m' buf) :=
    (validMxcsr_congr fun p hlo _ => hinitial p (by omega) (by omega)).mpr hd.mxcsr
  refine ⟨m', hget, ?_, houtside⟩
  rw [Holds]
  split
  next hx =>
    have hheader := hd.header hx
    rw [if_pos hx] at hsize
    have hunused : ∀ i < 64, xstateBv m' buf i = false := by
      intro i hi
      rw [xstateBv, hinitial _ (by omega) (by omega), initial_eq_zero (by omega)]
      exact BitVec.getLsbD_zero
    refine ⟨⟨fun p hp => ?_, fun i hi hbit => ?_, fun _ => hmxcsr⟩, ?_⟩
    · rw [hinitial _ (by omega) (by omega), initial_eq_zero (by omega)]
    · rw [hunused i hi] at hbit
      cases hbit
    · funext p
      rw [Hardware.view, Hardware.view]
      split
      next hp =>
        have hnot : ¬ hw.Covered (fun i => v.bits i && xstateBv m' buf i) p := by
          rintro ⟨i, hi, hbit, -⟩
          rw [Bool.and_eq_true, hunused i hi] at hbit
          exact Bool.false_ne_true hbit.2
        have hdefault : defaultImage v.xsave p = initial p := by
          rw [defaultImage, hx, if_neg fun h => Bool.false_ne_true h.1.symm]
        rw [Hardware.take, if_neg hnot, hdefault]
        split
        · rfl
        next hcovered =>
          have hin := hp.resolve_left hcovered
          rw [if_pos hin]
          exact hinitial p (by omega) (by omega)
      next => rfl
  next hx =>
    refine ⟨hmxcsr, ?_⟩
    funext p
    rw [Hardware.view, Hardware.view]
    split
    next hp =>
      rw [Bool.not_eq_true] at hx
      rw [harea p (lt_size hd hp), hx]
    next => rfl

end Default

/-! ### Any run -/

section Runs

variable {v : Vars} {hw : Hardware} {addr : β → U64} {c : Core} {m m' : Mem} {state : Image}
  {bufs : β → Option Image}

/-- The core and the memory are as the variables say. -/
structure Inv (v : Vars) (hw : Hardware) (addr : β → U64) (c : Core) (m : Mem) (state : Image)
    (bufs : β → Option Image) : Prop where
  ready : Ready v hw c
  state : hw.view v.bits c.image = state
  holds : ∀ b s, bufs b = some s → Holds v hw m (addr b) s

/-- What is written to a buffer leaves the others as they are. -/
theorem Placed.holds (hplaced : Placed v addr) (hd : v.Describes hw) {b b' : β} (hne : b ≠ b')
    (houtside : ∀ a, v.size ≤ (a - addr b).toNat → m' a = m a) {s : Image}
    (h : Holds v hw m (addr b') s) :
  Holds v hw m' (addr b') s
  := by
  apply h.congr hd
  intro p hp
  apply houtside
  by_contra hlt
  rw [Nat.not_le] at hlt
  apply hplaced.apart b b' hne _ hlt p hp
  rw [BitVec.ofNat_toNat, BitVec.setWidth_eq, BitVec.add_comm, BitVec.sub_add_cancel]

/-- One event. -/
theorem Inv.event [DecidableEq β] (hd : v.Describes hw) (hplaced : Placed v addr)
    (h : Inv v hw addr c m state bufs) {e : Event β}
    (hcode : ∀ image, e = .code image → hw.ValidMxcsr image) {x : Image × (β → Option Image)}
    (he : e.assign v hw state bufs = some x) :
  ∃ c' m', e.exec v hw addr c m = some (c', m') ∧ Inv v hw addr c' m' x.1 x.2
    ∧ ∀ a, (∀ b, v.size ≤ (a - addr b).toNat) → m' a = m a
  := by
  -- a buffer that is written holds the new state, and the others what they held
  have hwrite : ∀ {b m' s}, Holds v hw m' (addr b) s →
      (∀ a, v.size ≤ (a - addr b).toNat → m' a = m a) →
      ∀ b' s', Function.update bufs b (some s) b' = some s' → Holds v hw m' (addr b') s' := by
    intro b m' s hnew houtside b' s' hbufs
    by_cases heq : b' = b
    · subst heq
      rw [Function.update_self] at hbufs
      rwa [← Option.some.inj hbufs]
    · rw [Function.update_of_ne heq] at hbufs
      exact hplaced.holds hd (Ne.symm heq) houtside (h.holds b' s' hbufs)
  cases e with
  | code image =>
      obtain rfl := Option.some.inj he
      have hready := h.ready
      refine ⟨_, _, rfl, ⟨⟨hready.em, hready.ts, hready.osfxsr, hready.osxsave, hready.xcr0,
        hcode image rfl⟩, rfl, h.holds⟩, fun _ _ => rfl⟩
  | getState b =>
      obtain ⟨s, hs, rfl⟩ := Option.map_eq_some_iff.mp he
      obtain ⟨m', hget, hholds, houtside⟩ :=
        fpPlatformGetstate_eq hd h.ready (hplaced.aligned b) (h.holds b s hs)
      rw [h.state] at hholds
      refine ⟨c, m', ?_, ⟨h.ready, h.state, hwrite hholds houtside⟩, fun a ha => houtside a (ha b)⟩
      rw [Event.exec, hget]
      rfl
  | setState b =>
      obtain ⟨s, hs, rfl⟩ := Option.map_eq_some_iff.mp he
      obtain ⟨c', hset, hready, hview⟩ :=
        fpPlatformSetstate_eq hd h.ready (hplaced.aligned b) (h.holds b s hs)
      refine ⟨c', m, ?_, ⟨hready, hview, h.holds⟩, fun _ _ => rfl⟩
      rw [Event.exec, hset]
      rfl
  | getDefaultState b =>
      obtain rfl := Option.some.inj he
      obtain ⟨m', hget, hholds, houtside⟩ := fpPlatformGetdefaultstate_eq hd m (addr b)
      refine ⟨c, m', ?_, ⟨h.ready, h.state, hwrite hholds houtside⟩, fun a ha => houtside a (ha b)⟩
      rw [Event.exec, hget]
      rfl

/-- Any events. -/
theorem Inv.run [DecidableEq β] (hd : v.Describes hw) (hplaced : Placed v addr)
    (h : Inv v hw addr c m state bufs) {es : List (Event β)}
    (hcode : ∀ image, .code image ∈ es → hw.ValidMxcsr image) {x : Image × (β → Option Image)}
    (hes : assigns v hw es state bufs = some x) :
  ∃ c' m', runs v hw addr es c m = some (c', m') ∧ Inv v hw addr c' m' x.1 x.2
    ∧ ∀ a, (∀ b, v.size ≤ (a - addr b).toNat) → m' a = m a
  := by
  induction es generalizing c m state bufs with
  | nil =>
      obtain rfl := Option.some.inj hes
      exact ⟨c, m, rfl, h, fun _ _ => rfl⟩
  | cons e es ih =>
      obtain ⟨y, he, hrest⟩ := Option.bind_eq_some_iff.mp hes
      obtain ⟨c₁, m₁, hexec, hinv, houtside⟩ := h.event hd hplaced
        (fun image heq => hcode image (heq ▸ List.mem_cons_self)) he
      obtain ⟨c', m', hruns, hinv', houtside'⟩ := ih hinv
        (fun image hmem => hcode image (List.mem_cons_of_mem e hmem)) hrest
      refine ⟨c', m', ?_, hinv', fun a ha => (houtside' a ha).trans (houtside a ha)⟩
      rw [runs, hexec]
      exact hruns

/-- On a processor that is as `cpuid` describes it, with and without `xsave`, and with `CR0.TS`
clear at the start: after `fp_platform_init`, no call of any run faults as long as the buffers get
the default state first; the state is what it is when it is a variable that is put into the buffers
and taken back, the buffers hold what was put there, and nothing else in memory is written. -/
theorem fp_runs [DecidableEq β] (p : Processor) (hd : (vars (cpuidInit p)).Describes hw)
    (hc : hw.Possible c) (hts : c.ts = false) (hplaced : Placed (vars (cpuidInit p)) addr) (m : Mem)
    {es : List (Event β)} (hcode : ∀ image, .code image ∈ es → hw.ValidMxcsr image)
    {x : Image × (β → Option Image)}
    (hes : assigns (vars (cpuidInit p)) hw es (hw.view (vars (cpuidInit p)).bits
      fun p => if p < 24 then initial p else c.image p) (fun _ => none) = some x) :
  let v := vars (cpuidInit p)
  ∃ c₀ c' m', fpPlatformInit v hw c = some c₀ ∧ runs v hw addr es c₀ m = some (c', m')
    ∧ hw.view v.bits c'.image = x.1 ∧ (∀ b s, x.2 b = some s → Holds v hw m' (addr b) s)
    ∧ ∀ a, (∀ b, v.size ≤ (a - addr b).toNat) → m' a = m a
  := by
  obtain ⟨c₀, hinit, hready, himage⟩ := fpPlatformInit_eq hd hc hts
  have hinv : Inv (vars (cpuidInit p)) hw addr c₀ m
      (hw.view (vars (cpuidInit p)).bits fun p => if p < 24 then initial p else c.image p)
      (fun _ => none) :=
    ⟨hready, by rw [himage], fun _ _ h => nomatch h⟩
  obtain ⟨c', m', hruns, hend, houtside⟩ := hinv.run hd hplaced hcode hes
  exact ⟨c₀, c', m', hinit, hruns, hend.state, hend.holds, houtside⟩

end Runs

/-- A processor with the x87, the SSE and the AVX state. -/
def avxProcessor : Processor where
  cpuid leaf _ := ⟨7, 0, if leaf = 1 then 1 <<< 26 else 832, 0⟩
  rdmsr _ := 0

/-- The components of that processor, which are always in use. -/
def avxHardware : Hardware where
  xsave := true
  supported := 7
  offset _ := 576
  size _ := 256
  mxcsrMask := 0xffff
  inUse _ := BitVec.allOnes 64

theorem describes_avx :
  (vars (cpuidInit avxProcessor)).Describes avxHardware
  := by
  refine ⟨rfl, ⟨fun _ _ _ _ => le_rfl, ?_⟩, by decide, fun _ => by decide, fun _ => by decide,
    fun _ i _ _ _ => le_refl 832, by decide⟩
  intro image i p hi hbit
  have hone : (avxHardware.inUse image).getLsbD i = true :=
    (BitVec.getLsbD_allOnes).trans (decide_eq_true hi)
  rw [hone] at hbit
  cases hbit

/-- The buffers of two threads. -/
def twoBuffers : Bool → U64
  | false => 0x1000
  | true => 0x2000

theorem placed_twoBuffers :
  Placed (vars (cpuidInit avxProcessor)) twoBuffers
  := by
  have hsize : (vars (cpuidInit avxProcessor)).size = 896 := by decide
  refine ⟨fun b => ?_, fun b b' hne p hp q hq heq => ?_⟩
  · cases b <;> decide
  · rw [hsize] at hp hq
    cases b <;> cases b'
    · exact hne rfl
    · rw [twoBuffers, twoBuffers] at heq
      bv_omega
    · rw [twoBuffers, twoBuffers] at heq
      bv_omega
    · exact hne rfl

/-- Two threads take turns on a core with AVX: the second one begins with the default state, and the
first one goes on with its own. -/
theorem fp_runs_twoThreads :
  let v := vars (cpuidInit avxProcessor)
  let first : Image := fun p => if p = 160 then 5 else initial p
  ∃ c₀ c' m', fpPlatformInit v avxHardware ⟨0, 0, 0, initial⟩ = some c₀
    ∧ runs v avxHardware twoBuffers [.getDefaultState false, .getDefaultState true, .code first,
      .getState false, .setState true, .getState true, .setState false] c₀ (fun _ => 0)
      = some (c', m')
    ∧ c'.image 160 = 5
  := by
  intro v first
  have hpossible : avxHardware.Possible ⟨0, 0, 0, initial⟩ := ⟨fun _ => rfl, by decide⟩
  have hcode : ∀ image, .code image ∈ [Event.getDefaultState false, .getDefaultState true,
      .code first, .getState false, .setState true, .getState true, .setState false] →
      avxHardware.ValidMxcsr image := by
    intro image hmem
    obtain rfl : image = first := by simpa using hmem
    decide
  have hassigns : ∀ start : Image, ∃ bufs, assigns v avxHardware [.getDefaultState false,
      .getDefaultState true, .code first, .getState false, .setState true, .getState true,
      .setState false] start (fun _ => none) = some (avxHardware.view v.bits first, bufs) := by
    intro start
    simp [assigns, Event.assign]
  obtain ⟨bufs, hes⟩ := hassigns _
  obtain ⟨c₀, c', m', hinit, hruns, hview, -⟩ := fp_runs avxProcessor describes_avx hpossible rfl
    placed_twoBuffers (fun _ => 0) hcode hes
  refine ⟨c₀, c', m', hinit, hruns, ?_⟩
  have hcomponent : avxHardware.InComponent 1 160 := by
    rw [Hardware.InComponent]
    omega
  have hmanaged : avxHardware.Managed v.bits 160 := .inl ⟨1, by decide, by decide, hcomponent⟩
  have h160 : avxHardware.view v.bits c'.image 160 = avxHardware.view v.bits first 160 :=
    congrFun hview 160
  rw [Hardware.view, Hardware.view, if_pos hmanaged, if_pos hmanaged] at h160
  exact h160

end Fpu
