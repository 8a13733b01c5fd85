import Advos.Schemes.Fields

/-! The drive's geometry and `lba2chs` of the boot code, in the same words in `mbr.S` and `bootmon.S`.

    The BIOS reports the last head in `%dh` and the last cylinder and the sectors of a track in `%cx`:

        %cx    15        8  7 6  5       0
               cylinder[7:0] [9:8]  sectors

    The boot code keeps the numbers of heads and of sectors in a byte each. `lba2chs` divides the sector
    number twice and packs what comes out the same way. 256 heads do not fit the byte: `incb` turns the
    last head 255 into no heads, and the second division is a division by 0. -/

namespace Advos.Boot
open Fields

/-! ### Registers -/

/-- The low byte of a register, `%al` of `%ax`. -/
def lo (x : ℕ) : ℕ := x % 2 ^ 8

/-- The high byte of a register, `%ah` of `%ax`. -/
def hi (x : ℕ) : ℕ := x / 2 ^ 8 % 2 ^ 8

/-- A register with another low byte. -/
def withLo (x b : ℕ) : ℕ := 2 ^ 8 * hi x + b

/-- A register with another high byte. -/
def withHi (x b : ℕ) : ℕ := 2 ^ 8 * b + lo x

/-- The variables `heads` (a byte), `cylinders` (a word) and `sectors` (a byte). -/
structure DriveInfo where
  heads : ℕ
  cylinders : ℕ
  sectors : ℕ
  deriving DecidableEq, Repr

/-- The registers, the stack and the variables. -/
structure Cpu where
  ax : ℕ
  bx : ℕ
  cx : ℕ
  dx : ℕ
  stack : List ℕ
  info : DriveInfo
  deriving DecidableEq, Repr

/-- `pushw`. -/
def Cpu.pushw (c : Cpu) (v : ℕ) : Cpu := { c with stack := v :: c.stack }

/-- `popw %ax`. -/
def Cpu.popAx (c : Cpu) : Cpu := { c with ax := c.stack.headD 0, stack := c.stack.tail }

/-- `popw %bx`. -/
def Cpu.popBx (c : Cpu) : Cpu := { c with bx := c.stack.headD 0, stack := c.stack.tail }

/-- `popw %dx`. -/
def Cpu.popDx (c : Cpu) : Cpu := { c with dx := c.stack.headD 0, stack := c.stack.tail }

/-- `divw`: `%dx:%ax` by a register, and a divide error for 0 or a quotient wider than `%ax`. -/
def Cpu.divw (c : Cpu) (d : ℕ) : Option Cpu :=
  let n := 2 ^ 16 * c.dx + c.ax
  if d = 0 ∨ 2 ^ 16 ≤ n / d then none else some { c with ax := n / d, dx := n % d }

/-! ### The code -/

/-- The code that follows the drive parameters call of the BIOS. -/
def saveGeometry (c : Cpu) : Cpu :=
  let c := { c with dx := withHi c.dx ((hi c.dx + 1) % 2 ^ 8) }          -- incb %dh
  let c := { c with info := { c.info with heads := hi c.dx } }
  let c := { c with ax := withLo c.ax (lo c.cx) }
  let c := { c with ax := withLo c.ax (lo c.ax &&& 0x3f) }
  let c := { c with info := { c.info with sectors := lo c.ax } }
  let c := { c with ax := withLo c.ax (hi c.cx) }
  let c := { c with ax := withHi c.ax (lo c.cx) }
  let c := { c with ax := withHi c.ax (hi c.ax >>> 6) }
  let c := { c with ax := (c.ax + 1) % 2 ^ 16 }
  { c with info := { c.info with cylinders := c.ax } }

/-- `lba2chs`, none on a divide error. -/
def lba2chs (c : Cpu) : Option Cpu := do
  let c := c.pushw c.ax
  let c := c.pushw c.bx
  let c := c.pushw c.dx
  -- sector number
  let c := { c with bx := c.bx ^^^ c.bx }
  let c := { c with dx := c.bx }
  let c := { c with cx := c.bx }
  let c := { c with bx := withLo c.bx c.info.sectors }
  let c ← c.divw c.bx
  let c := { c with dx := (c.dx + 1) % 2 ^ 16 }
  let c := { c with cx := withLo c.cx (lo c.dx) }
  -- head and track (cylinder) numbers
  let c := { c with bx := c.bx ^^^ c.bx }
  let c := { c with dx := c.bx }
  let c := { c with bx := withLo c.bx c.info.heads }
  let c ← c.divw c.bx
  let c := { c with cx := withHi c.cx (lo c.ax) }
  let c := { c with ax := withHi c.ax (hi c.ax <<< 6 % 2 ^ 8) }
  let c := { c with cx := withLo c.cx (lo c.cx ||| hi c.ax) }
  let c := { c with bx := c.dx }
  let c := c.popDx
  let c := { c with dx := withHi c.dx (lo c.bx) }
  let c := c.popBx
  return c.popAx

/-! ### What the BIOS reports and what the conversion is for -/

/-- A drive geometry. -/
structure Drive where
  lastHead : ℕ
  sectors : ℕ
  lastCylinder : ℕ
  head_lt : lastHead < 256
  sectors_pos : 1 ≤ sectors
  sectors_lt : sectors < 64
  cylinder_lt : lastCylinder < 1024

/-- The number of heads. -/
def Drive.heads (d : Drive) : ℕ := d.lastHead + 1

/-- The number of cylinders. -/
def Drive.cylinders (d : Drive) : ℕ := d.lastCylinder + 1

/-- The registers after the BIOS has reported the drive. -/
def Drive.Reported (d : Drive) (c : Cpu) : Prop :=
  hi c.dx = d.lastHead ∧ hi c.cx = d.lastCylinder % 2 ^ 8 ∧ lo c.cx = 2 ^ 6 * (d.lastCylinder / 2 ^ 8) + d.sectors

/-- The cylinder packed in `%cx`. -/
def cylinderOf (cx : ℕ) : ℕ := hi cx + 2 ^ 8 * (lo cx / 2 ^ 6)

/-- The sector packed in `%cx`. -/
def sectorOf (cx : ℕ) : ℕ := lo cx % 2 ^ 6

/-- `lba2chs` raises no divide error and packs the place of the sector in `%ax`. -/
def Drive.Converts (d : Drive) (c : Cpu) : Prop :=
  ∃ r, lba2chs c = some r
    ∧ (cylinderOf r.cx * d.heads + hi r.dx) * d.sectors + (sectorOf r.cx - 1) = c.ax
    ∧ 1 ≤ sectorOf r.cx ∧ sectorOf r.cx ≤ d.sectors ∧ hi r.dx < d.heads
    ∧ r.ax = c.ax ∧ r.bx = c.bx ∧ lo r.dx = lo c.dx

/-! ### Bytes of registers -/

theorem lo_of_lt {x : ℕ} (h : x < 2 ^ 8) : lo x = x := Nat.mod_eq_of_lt h

theorem lo_withLo {b : ℕ} (hb : b < 2 ^ 8) (x : ℕ) : lo (withLo x b) = b := by
  simp only [lo, withLo]
  omega

theorem hi_withLo {b : ℕ} (hb : b < 2 ^ 8) (x : ℕ) : hi (withLo x b) = hi x := by
  simp only [hi, withLo]
  omega

theorem lo_withHi (x b : ℕ) : lo (withHi x b) = lo x := by
  simp only [lo, withHi]
  omega

theorem hi_withHi {b : ℕ} (hb : b < 2 ^ 8) (x : ℕ) : hi (withHi x b) = b := by
  simp only [hi, lo, withHi]
  omega

theorem lo_lt (x : ℕ) : lo x < 2 ^ 8 := Nat.mod_lt _ (Nat.two_pow_pos 8)

/-! ### The code, step by step -/

theorem saveGeometry_info {d : Drive} {c : Cpu} (h : d.Reported c) :
    (saveGeometry c).info = ⟨d.heads % 2 ^ 8, d.cylinders, d.sectors⟩ := by
  obtain ⟨hdh, hch, hcl⟩ := h
  have hs := d.sectors_lt
  have hcyl := d.cylinder_lt
  have hinc : (d.lastHead + 1) % 2 ^ 8 < 2 ^ 8 := Nat.mod_lt _ (Nat.two_pow_pos 8)
  have hmask : (2 ^ 6 * (d.lastCylinder / 2 ^ 8) + d.sectors) &&& 0x3f = d.sectors := by
    rw [show (0x3f : ℕ) = 2 ^ 6 - 1 from rfl, Nat.and_two_pow_sub_one_eq_mod]
    omega
  have htop : (2 ^ 6 * (d.lastCylinder / 2 ^ 8) + d.sectors) >>> 6 = d.lastCylinder / 2 ^ 8 := by
    rw [Nat.shiftRight_eq_div_pow]
    omega
  simp only [saveGeometry, hdh, hch, hcl, hi_withHi hinc, DriveInfo.mk.injEq]
  simp (disch := omega) only [lo_withLo, hi_withHi, hmask, htop]
  refine ⟨rfl, ?_, trivial⟩
  rw [withHi, lo_withHi, lo_withLo (by omega), Drive.cylinders]
  omega

theorem divw_word {ax bx cx : ℕ} {stack : List ℕ} {info : DriveInfo} {d : ℕ} (hax : ax < 2 ^ 16) (hd : 0 < d) :
    Cpu.divw ⟨ax, bx, cx, 0, stack, info⟩ d = some ⟨ax / d, bx, cx, ax % d, stack, info⟩ := by
  have hq : ax / d < 2 ^ 16 := lt_of_le_of_lt (Nat.div_le_self _ _) hax
  simp only [Cpu.divw, Nat.mul_zero, Nat.zero_add]
  rw [if_neg (by omega)]

theorem divw_zero (c : Cpu) : c.divw 0 = none := by simp [Cpu.divw]

theorem withLo_zero (b : ℕ) : withLo 0 b = b := Nat.zero_add b

theorem lba2chs_no_heads {c : Cpu} (hax : c.ax < 2 ^ 16) (hs : 0 < c.info.sectors) (hh : c.info.heads = 0) :
    lba2chs c = none := by
  simp only [lba2chs, Cpu.pushw, Nat.xor_self, withLo_zero, divw_word hax hs, Option.bind_eq_bind, Option.bind_some,
    hh, divw_zero, Option.bind_none]

/-- What the code leaves in `%cx` for a cylinder and a sector. -/
def packChs (cylinder sector : ℕ) : ℕ :=
  withLo (withHi sector (lo cylinder)) (sector ||| hi cylinder <<< 6 % 2 ^ 8)

/-- The conversion with heads and sectors: two quotients and two remainders, packed. -/
theorem lba2chs_eq {c : Cpu} (hax : c.ax < 2 ^ 16) (hs : 0 < c.info.sectors) (hs' : c.info.sectors < 2 ^ 6)
    (hh : 0 < c.info.heads) :
    lba2chs c = some
      { c with
        cx := packChs (c.ax / c.info.sectors / c.info.heads) (c.ax % c.info.sectors + 1)
        dx := withHi c.dx (lo (c.ax / c.info.sectors % c.info.heads)) } := by
  have hq : c.ax / c.info.sectors < 2 ^ 16 := lt_of_le_of_lt (Nat.div_le_self _ _) hax
  have hr : c.ax % c.info.sectors < c.info.sectors := Nat.mod_lt _ hs
  have hsector : lo ((c.ax % c.info.sectors + 1) % 2 ^ 16) = c.ax % c.info.sectors + 1 := by
    rw [lo]
    omega
  have hsector' : lo (c.ax % c.info.sectors + 1) = c.ax % c.info.sectors + 1 := lo_of_lt (by omega)
  have hhigh (x : ℕ) : hi (withHi x (hi x <<< 6 % 2 ^ 8)) = hi x <<< 6 % 2 ^ 8 :=
    hi_withHi (Nat.mod_lt _ (Nat.two_pow_pos 8)) x
  simp only [lba2chs, Cpu.pushw, Nat.xor_self, withLo_zero, divw_word hax hs, Option.bind_eq_bind, Option.bind_some,
    divw_word hq hh, Cpu.popDx, Cpu.popBx, Cpu.popAx, List.headD_cons, List.tail_cons, Option.pure_def, hsector,
    lo_withHi, hsector', hhigh, packChs]

theorem packChs_fields {C S : ℕ} (hC : C < 2 ^ 10) (hS : S < 2 ^ 6) :
    cylinderOf (packChs C S) = C ∧ sectorOf (packChs C S) = S := by
  have htop : hi C = C / 2 ^ 8 := Nat.mod_eq_of_lt (by omega)
  have hbits : hi C <<< 6 % 2 ^ 8 = hi C <<< 6 := by
    rw [Nat.mod_eq_of_lt]
    rw [Nat.shiftLeft_eq]
    omega
  have hor : S ||| hi C <<< 6 = S + 2 ^ 6 * (C / 2 ^ 8) := by rw [lor_shiftLeft hS, htop]
  have hlow : S + 2 ^ 6 * (C / 2 ^ 8) < 2 ^ 8 := by omega
  rw [packChs, hbits, hor, cylinderOf, sectorOf, lo_withLo hlow, hi_withLo hlow, hi_withHi (lo_lt C), lo]
  omega

/-- CONVERTED: the sector numbers of the drive are converted just when the last head is not 255. -/
theorem lba2chs_exact_iff (d : Drive) (c₀ c : Cpu) (hrep : d.Reported c₀) (hinfo : c.info = (saveGeometry c₀).info)
    (hax : c.ax < 2 ^ 16) (hlba : c.ax < d.cylinders * d.heads * d.sectors) :
    d.Converts c ↔ d.lastHead ≠ 255 := by
  rw [saveGeometry_info hrep] at hinfo
  have hs : c.info.sectors = d.sectors := by rw [hinfo]
  have hpos := d.sectors_pos
  have hsl := d.sectors_lt
  constructor
  · rintro ⟨r, hr, -⟩ hlast
    have hzero : c.info.heads = 0 := by
      rw [hinfo, Drive.heads, hlast]
      rfl
    rw [lba2chs_no_heads hax (by omega) hzero] at hr
    cases hr
  · intro hlast
    have hlt := d.head_lt
    have hh : c.info.heads = d.heads := by
      rw [hinfo, Drive.heads]
      exact Nat.mod_eq_of_lt (by omega)
    have hheads : 0 < d.heads := Nat.succ_pos _
    have hcyl : c.ax / d.sectors / d.heads < 2 ^ 10 := by
      have hq : c.ax / d.sectors < d.cylinders * d.heads := Nat.div_lt_of_lt_mul (by rwa [Nat.mul_comm])
      have hC : c.ax / d.sectors / d.heads < d.cylinders := Nat.div_lt_of_lt_mul (by rwa [Nat.mul_comm])
      have hmax := d.cylinder_lt
      have hdef : d.cylinders = d.lastCylinder + 1 := rfl
      omega
    have hsec : c.ax % d.sectors < d.sectors := Nat.mod_lt _ hpos
    have hhead : c.ax / d.sectors % d.heads < d.heads := Nat.mod_lt _ hheads
    have hbyte : d.heads < 2 ^ 8 := by
      have hdef : d.heads = d.lastHead + 1 := rfl
      omega
    obtain ⟨hC, hS⟩ := packChs_fields (S := c.ax % d.sectors + 1) hcyl (by omega)
    refine ⟨_, lba2chs_eq hax (by omega) (by omega) (by omega), ?_⟩
    simp only [hs, hh, hC, hS, lo_of_lt (lt_trans hhead hbyte), hi_withHi (lt_trans hhead hbyte), lo_withHi,
      Nat.add_sub_cancel, Nat.div_add_mod', true_and, and_true]
    exact ⟨Nat.le_add_left 1 _, hsec, hhead⟩

/-- A drive of 63 sectors and 1024 cylinders. -/
def driveOf (lastHead : ℕ) (h : lastHead < 256) : Drive :=
  ⟨lastHead, 63, 1023, h, by decide, by decide, by decide⟩

/-- The registers when the BIOS has reported it: all bits of `%cx` set, one drive counted in `%dl`. -/
def reportOf (lastHead : ℕ) : Cpu := ⟨0, 0, 0xffff, 2 ^ 8 * lastHead + 1, [], ⟨0, 0, 0⟩⟩

/-- The registers when a sector of it is to be converted. -/
def callOf (lastHead lba : ℕ) : Cpu := ⟨lba, 0, 0, 0x80, [], (saveGeometry (reportOf lastHead)).info⟩

/-- With 16 heads every sector number of 16 bits is converted, the last one too. -/
theorem lba2chs_exact_sixteen_heads : (driveOf 15 (by decide)).Converts (callOf 15 65535) :=
  (lba2chs_exact_iff (driveOf 15 (by decide)) (reportOf 15) (callOf 15 65535) ⟨rfl, rfl, rfl⟩ rfl (by decide)
    (by decide)).mpr (by decide)

/-- With the last head 255 the drive is stored as one without heads, and its first sector is not converted. -/
theorem last_head_255_not_converted :
    (driveOf 255 (by decide)).Reported (reportOf 255) ∧ lba2chs (callOf 255 0) = none :=
  ⟨⟨rfl, rfl, rfl⟩, by decide⟩

end Advos.Boot
