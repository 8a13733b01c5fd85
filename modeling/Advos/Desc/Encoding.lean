import Advos.Schemes.Fields

/-! The descriptors of `desc.c` (`gdt_setup_desc`, `gdt_setup_desc_tss`, `idt_setup_gate_desc`).

    The processor reads a descriptor as one little-endian number and takes every field from its own
    bits. A code or data segment has 64 of them:

        63    56 55 54 53  52 51   48 47  46 45 44 43  40 39           16 15        0
        base[31:24] G DB L AVL limit[19:16] P  DPL   S  type   base[23:0]     limit[15:0]

    A task state segment and a gate have 128, with the upper half of the address in bits 64 to 95 and
    zeros above. Both functions that fill the upper half lose something: the task state segment's
    second word is shifted by 40 where it stands at bit 48 of the base, and the gate's upper word is
    cut to 16 bits before it is stored in a field of 32.

        base              63      48 47      32
        w4                           47 .. 32
        w5   (55 .. 40 of the base, not 63 .. 48) -/

namespace Advos.Desc
open Fields

/-! ### The code -/

/-- `struct gdt_desc`. -/
structure GdtDesc where
  w0 : ℕ
  w1 : ℕ
  w2 : ℕ
  w3 : ℕ
  deriving DecidableEq, Repr

/-- `struct gdt_desc_tss`. -/
structure GdtDescTss extends GdtDesc where
  w4 : ℕ
  w5 : ℕ
  w6 : ℕ
  w7 : ℕ
  deriving DecidableEq, Repr

/-- `struct idt_gate_desc`. -/
structure IdtGateDesc where
  targetLo : ℕ
  selector : ℕ
  reserved1 : ℕ
  flags : ℕ
  targetMid : ℕ
  targetHi : ℕ
  reserved2 : ℕ
  deriving DecidableEq, Repr

/-- `gdt_setup_desc`. -/
def gdtSetupDesc (base limit type dpl l db g : ℕ) : GdtDesc :=
  let limit := limit &&& 0xfffff
  let type := type &&& 0xf
  -- P=1, A=0, S=1
  { w0 := (limit &&& 0xffff) % 2 ^ 16
    w1 := (base &&& 0xffff) % 2 ^ 16
    w2 := ((base >>> 16 &&& 0xff) ||| type <<< 8 ||| 1 <<< 12 ||| dpl <<< 13 ||| 1 <<< 15) % 2 ^ 16
    w3 := ((limit >>> 16 &&& 0xf) ||| l <<< 5 ||| db <<< 6 ||| g <<< 7 ||| (base >>> 24 &&& 0xff) <<< 8) % 2 ^ 16 }

/-- `gdt_setup_desc_tss`. -/
def gdtSetupDescTss (base limit type dpl g : ℕ) : GdtDescTss :=
  let limit := limit &&& 0xfffff
  let type := type &&& 0xf
  { w0 := (limit &&& 0xffff) % 2 ^ 16
    w1 := (base &&& 0xffff) % 2 ^ 16
    w2 := ((base >>> 16 &&& 0xff) ||| type <<< 8 ||| dpl <<< 13 ||| 1 <<< 15) % 2 ^ 16
    w3 := ((limit >>> 16 &&& 0xf) ||| g <<< 7 ||| (base >>> 24 &&& 0xff) <<< 8) % 2 ^ 16
    w4 := (base >>> 32) % 2 ^ 16
    w5 := (base >>> 40) % 2 ^ 16
    w6 := 0
    w7 := 0 }

/-- `idt_setup_gate_desc`. -/
def idtSetupGateDesc (base selector flags : ℕ) : IdtGateDesc :=
  { targetLo := (base &&& 0xffff) % 2 ^ 16
    selector := selector
    reserved1 := 0
    flags := flags
    targetMid := ((base &&& 0xffff0000) >>> 16) % 2 ^ 16
    targetHi := ((base &&& 0xffffffff00000000) >>> 32) % 2 ^ 16
    reserved2 := 0 }

/-! ### The layout -/

/-- A descriptor as the number the processor reads. -/
def GdtDesc.toNat (d : GdtDesc) : ℕ := d.w0 + 2 ^ 16 * d.w1 + 2 ^ 32 * d.w2 + 2 ^ 48 * d.w3

@[inherit_doc GdtDesc.toNat]
def GdtDescTss.toNat (d : GdtDescTss) : ℕ :=
  d.toGdtDesc.toNat + 2 ^ 64 * d.w4 + 2 ^ 80 * d.w5 + 2 ^ 96 * d.w6 + 2 ^ 112 * d.w7

@[inherit_doc GdtDesc.toNat]
def IdtGateDesc.toNat (d : IdtGateDesc) : ℕ :=
  d.targetLo + 2 ^ 16 * d.selector + 2 ^ 32 * d.reserved1 + 2 ^ 40 * d.flags + 2 ^ 48 * d.targetMid
    + 2 ^ 64 * d.targetHi + 2 ^ 96 * d.reserved2

/-- The fields of a code or data segment descriptor. -/
structure Segment where
  base : ℕ
  limit : ℕ
  type : ℕ
  s : ℕ
  dpl : ℕ
  p : ℕ
  avl : ℕ
  l : ℕ
  db : ℕ
  g : ℕ
  deriving DecidableEq, Repr

/-- The x86-64 layout of a code or data segment descriptor. -/
def decodeSegment (d : ℕ) : Segment :=
  { base := bits d 16 24 + 2 ^ 24 * bits d 56 8
    limit := bits d 0 16 + 2 ^ 16 * bits d 48 4
    type := bits d 40 4
    s := bits d 44 1
    dpl := bits d 45 2
    p := bits d 47 1
    avl := bits d 52 1
    l := bits d 53 1
    db := bits d 54 1
    g := bits d 55 1 }

/-- The fields of a task state segment descriptor. -/
structure TaskState where
  base : ℕ
  limit : ℕ
  type : ℕ
  s : ℕ
  dpl : ℕ
  p : ℕ
  avl : ℕ
  reserved : ℕ
  g : ℕ
  upper : ℕ
  deriving DecidableEq, Repr

/-- The x86-64 layout of a task state segment descriptor. -/
def decodeTaskState (d : ℕ) : TaskState :=
  { base := bits d 16 24 + 2 ^ 24 * bits d 56 8 + 2 ^ 32 * bits d 64 32
    limit := bits d 0 16 + 2 ^ 16 * bits d 48 4
    type := bits d 40 4
    s := bits d 44 1
    dpl := bits d 45 2
    p := bits d 47 1
    avl := bits d 52 1
    reserved := bits d 53 2
    g := bits d 55 1
    upper := bits d 96 32 }

/-- The fields of an interrupt or trap gate. -/
structure Gate where
  target : ℕ
  selector : ℕ
  ist : ℕ
  flags : ℕ
  reserved : ℕ
  deriving DecidableEq, Repr

/-- The x86-64 layout of a gate. -/
def decodeGate (d : ℕ) : Gate :=
  { target := bits d 0 16 + 2 ^ 16 * bits d 48 16 + 2 ^ 32 * bits d 64 32
    selector := bits d 16 16
    ist := bits d 32 8
    flags := bits d 40 8
    reserved := bits d 96 32 }

/-! ### What the code is given -/

/-- Arguments of `gdt_setup_desc`, each as wide as its field. -/
structure SegmentArgs where
  base : Fin (2 ^ 32)
  limit : Fin (2 ^ 20)
  type : Fin (2 ^ 4)
  dpl : Fin (2 ^ 2)
  l : Fin 2
  db : Fin 2
  g : Fin 2

/-- Arguments of `gdt_setup_desc_tss`, each as wide as its field. -/
structure TaskStateArgs where
  base : Fin (2 ^ 64)
  limit : Fin (2 ^ 20)
  type : Fin (2 ^ 4)
  dpl : Fin (2 ^ 2)
  g : Fin 2

/-- Arguments of `idt_setup_gate_desc`, each as wide as its field. -/
structure GateArgs where
  base : Fin (2 ^ 64)
  selector : Fin (2 ^ 16)
  flags : Fin (2 ^ 8)

/-- The descriptor written for a segment. -/
def SegmentArgs.desc (a : SegmentArgs) : GdtDesc := gdtSetupDesc a.base a.limit a.type a.dpl a.l a.db a.g

/-- The descriptor written for a task state segment. -/
def TaskStateArgs.desc (a : TaskStateArgs) : GdtDescTss := gdtSetupDescTss a.base a.limit a.type a.dpl a.g

/-- The gate written for a handler. -/
def GateArgs.desc (a : GateArgs) : IdtGateDesc := idtSetupGateDesc a.base a.selector a.flags

/-- The segment is decoded as it was given: present, a code or data segment, the available bit clear. -/
def SegmentArgs.Exact (a : SegmentArgs) : Prop :=
  decodeSegment a.desc.toNat = ⟨a.base, a.limit, a.type, 1, a.dpl, 1, 0, a.l, a.db, a.g⟩

/-- The task state segment is decoded as it was given: present, a system segment, the rest clear. -/
def TaskStateArgs.Exact (a : TaskStateArgs) : Prop :=
  decodeTaskState a.desc.toNat = ⟨a.base, a.limit, a.type, 0, a.dpl, 1, 0, 0, a.g, 0⟩

/-- The gate is decoded as it was given, without an interrupt stack and with the upper word clear. -/
def GateArgs.Exact (a : GateArgs) : Prop := decodeGate a.desc.toNat = ⟨a.base, a.selector, 0, a.flags, 0⟩

/-! ### The words the code stores -/

/-- The masks of the code take remainders. -/
theorem land_f (x : ℕ) : x &&& 0xf = x % 2 ^ 4 := Nat.and_two_pow_sub_one_eq_mod x 4

@[inherit_doc land_f]
theorem land_ff (x : ℕ) : x &&& 0xff = x % 2 ^ 8 := Nat.and_two_pow_sub_one_eq_mod x 8

@[inherit_doc land_f]
theorem land_ffff (x : ℕ) : x &&& 0xffff = x % 2 ^ 16 := Nat.and_two_pow_sub_one_eq_mod x 16

@[inherit_doc land_f]
theorem land_fffff (x : ℕ) : x &&& 0xfffff = x % 2 ^ 20 := Nat.and_two_pow_sub_one_eq_mod x 20

@[inherit_doc land_f]
theorem land_ffffffff (x : ℕ) : x &&& 0xffffffff = x % 2 ^ 32 := Nat.and_two_pow_sub_one_eq_mod x 32

theorem gdtSetupDesc_words {base limit type dpl l db g : ℕ} (hb : base < 2 ^ 32) (hn : limit < 2 ^ 20)
    (ht : type < 2 ^ 4) (hd : dpl < 2 ^ 2) (hl : l < 2) (hdb : db < 2) (hg : g < 2) :
    gdtSetupDesc base limit type dpl l db g =
      { w0 := limit % 2 ^ 16
        w1 := base % 2 ^ 16
        w2 := base / 2 ^ 16 % 2 ^ 8 + 2 ^ 8 * type + 2 ^ 12 + 2 ^ 13 * dpl + 2 ^ 15
        w3 := limit / 2 ^ 16 + 2 ^ 5 * l + 2 ^ 6 * db + 2 ^ 7 * g + 2 ^ 8 * (base / 2 ^ 24) } := by
  simp only [gdtSetupDesc, land_f, land_ff, land_ffff, land_fffff, Nat.shiftRight_eq_div_pow, Nat.mod_eq_of_lt hn,
    Nat.mod_eq_of_lt ht]
  simp (disch := omega) only [lor_shiftLeft, GdtDesc.mk.injEq]
  refine ⟨?_, ?_, ?_, ?_⟩ <;> omega

theorem gdtSetupDescTss_words {base limit type dpl g : ℕ} (hn : limit < 2 ^ 20) (ht : type < 2 ^ 4)
    (hd : dpl < 2 ^ 2) (hg : g < 2) :
    gdtSetupDescTss base limit type dpl g =
      { w0 := limit % 2 ^ 16
        w1 := base % 2 ^ 16
        w2 := base / 2 ^ 16 % 2 ^ 8 + 2 ^ 8 * type + 2 ^ 13 * dpl + 2 ^ 15
        w3 := limit / 2 ^ 16 + 2 ^ 7 * g + 2 ^ 8 * (base / 2 ^ 24 % 2 ^ 8)
        w4 := base / 2 ^ 32 % 2 ^ 16
        w5 := base / 2 ^ 40 % 2 ^ 16
        w6 := 0
        w7 := 0 } := by
  simp only [gdtSetupDescTss, land_f, land_ff, land_ffff, land_fffff, Nat.shiftRight_eq_div_pow, Nat.mod_eq_of_lt hn,
    Nat.mod_eq_of_lt ht]
  simp (disch := omega) only [lor_shiftLeft, GdtDescTss.mk.injEq, GdtDesc.mk.injEq, and_true]
  refine ⟨?_, ?_, ?_, ?_⟩ <;> omega

theorem idtSetupGateDesc_words (base selector flags : ℕ) :
    idtSetupGateDesc base selector flags =
      { targetLo := base % 2 ^ 16
        selector := selector
        reserved1 := 0
        flags := flags
        targetMid := base / 2 ^ 16 % 2 ^ 16
        targetHi := base / 2 ^ 32 % 2 ^ 16
        reserved2 := 0 } := by
  have hmid : (base &&& 0xffff0000) >>> 16 = base >>> 16 &&& 0xffff := Nat.shiftRight_and_distrib
  have hhi : (base &&& 0xffffffff00000000) >>> 32 = base >>> 32 &&& 0xffffffff := Nat.shiftRight_and_distrib
  simp only [idtSetupGateDesc, hmid, hhi, land_ffff, land_ffffffff, Nat.shiftRight_eq_div_pow]
  congr 1 <;> omega

/-! ### Decoding -/

theorem SegmentArgs.toNat_eq_pack (a : SegmentArgs) :
    a.desc.toNat = pack [(16, a.limit % 2 ^ 16), (24, a.base % 2 ^ 24), (4, a.type), (1, 1), (2, a.dpl), (1, 1),
      (4, a.limit / 2 ^ 16), (1, 0), (1, a.l), (1, a.db), (1, a.g), (8, a.base / 2 ^ 24)] := by
  have hb := a.base.isLt
  rw [SegmentArgs.desc, gdtSetupDesc_words hb a.limit.isLt a.type.isLt a.dpl.isLt a.l.isLt a.db.isLt a.g.isLt]
  simp only [GdtDesc.toNat, pack]
  omega

theorem SegmentArgs.exact (a : SegmentArgs) : a.Exact := by
  have hlow : (a.limit : ℕ) % 2 ^ 16 < 2 ^ 16 := Nat.mod_lt _ (Nat.two_pow_pos _)
  have hbase : (a.base : ℕ) % 2 ^ 24 < 2 ^ 24 := Nat.mod_lt _ (Nat.two_pow_pos _)
  have hhigh : (a.limit : ℕ) / 2 ^ 16 < 2 ^ 4 := by omega
  have htop : (a.base : ℕ) / 2 ^ 24 < 2 ^ 8 := by omega
  have ht := a.type.isLt
  have hd := a.dpl.isLt
  have hl : (a.l : ℕ) < 2 ^ 1 := a.l.isLt
  have hdb : (a.db : ℕ) < 2 ^ 1 := a.db.isLt
  have hg : (a.g : ℕ) < 2 ^ 1 := a.g.isLt
  rw [SegmentArgs.Exact, a.toNat_eq_pack]
  simp (disch := omega) only [decodeSegment, bits_pack_tail, Nat.reduceSub, bits_pack_head, Nat.mod_add_div]

/-- A task state segment descriptor is its fields, stacked, with the upper half of the base as the code cuts it. -/
theorem TaskStateArgs.toNat_eq_pack (a : TaskStateArgs) :
    a.desc.toNat = pack [(16, a.limit % 2 ^ 16), (24, a.base % 2 ^ 24), (4, a.type), (1, 0), (2, a.dpl), (1, 1),
      (4, a.limit / 2 ^ 16), (1, 0), (2, 0), (1, a.g), (8, a.base / 2 ^ 24 % 2 ^ 8),
      (32, a.base / 2 ^ 32 % 2 ^ 16 + 2 ^ 16 * bits a.base 40 16), (32, 0)] := by
  rw [TaskStateArgs.desc, gdtSetupDescTss_words a.limit.isLt a.type.isLt a.dpl.isLt a.g.isLt]
  simp only [GdtDescTss.toNat, GdtDesc.toNat, pack, bits]
  omega

/-- The base of a task state segment is recovered when its bits from 40 and from 48 on agree. -/
theorem base_recovered_iff {base : ℕ} (hb : base < 2 ^ 64) :
    base % 2 ^ 24 + 2 ^ 24 * (base / 2 ^ 24 % 2 ^ 8) + 2 ^ 32 * (base / 2 ^ 32 % 2 ^ 16 + 2 ^ 16 * bits base 40 16) = base
      ↔ bits base 40 16 = bits base 48 16 := by
  have htop : bits base 48 16 = base / 2 ^ 48 := by
    rw [bits, Nat.mod_eq_of_lt (by omega)]
  rw [htop]
  omega

/-- A task state segment is decoded as it was given when the two runs of bits agree. -/
theorem TaskStateArgs.exact_iff (a : TaskStateArgs) : a.Exact ↔ bits a.base 40 16 = bits a.base 48 16 := by
  have hlow : (a.limit : ℕ) % 2 ^ 16 < 2 ^ 16 := Nat.mod_lt _ (Nat.two_pow_pos _)
  have hbase : (a.base : ℕ) % 2 ^ 24 < 2 ^ 24 := Nat.mod_lt _ (Nat.two_pow_pos _)
  have hmid : (a.base : ℕ) / 2 ^ 24 % 2 ^ 8 < 2 ^ 8 := Nat.mod_lt _ (Nat.two_pow_pos _)
  have hhigh : (a.limit : ℕ) / 2 ^ 16 < 2 ^ 4 := by omega
  have hw4 : (a.base : ℕ) / 2 ^ 32 % 2 ^ 16 < 2 ^ 16 := Nat.mod_lt _ (Nat.two_pow_pos _)
  have hw5 : bits a.base 40 16 < 2 ^ 16 := Nat.mod_lt _ (Nat.two_pow_pos _)
  have ht := a.type.isLt
  have hd := a.dpl.isLt
  have hg : (a.g : ℕ) < 2 ^ 1 := a.g.isLt
  rw [← base_recovered_iff a.base.isLt, TaskStateArgs.Exact, a.toNat_eq_pack]
  generalize bits a.base 40 16 = w5 at *
  simp (disch := omega) only [decodeTaskState, bits_pack_tail, Nat.reduceSub, bits_pack_head, Nat.mod_add_div]
  simp

/-- A gate is its fields, stacked, with the upper half of the target as the code cuts it. -/
theorem GateArgs.toNat_eq_pack (a : GateArgs) :
    a.desc.toNat = pack [(16, a.base % 2 ^ 16), (16, a.selector), (8, 0), (8, a.flags), (16, a.base / 2 ^ 16 % 2 ^ 16),
      (32, a.base / 2 ^ 32 % 2 ^ 16), (32, 0)] := by
  rw [GateArgs.desc, idtSetupGateDesc_words]
  simp only [IdtGateDesc.toNat, pack]
  omega

/-- A gate is decoded as it was given when its target has no bit above 47. -/
theorem GateArgs.exact_iff (a : GateArgs) : a.Exact ↔ (a.base : ℕ) < 2 ^ 48 := by
  have hlo : (a.base : ℕ) % 2 ^ 16 < 2 ^ 16 := Nat.mod_lt _ (Nat.two_pow_pos _)
  have hmid : (a.base : ℕ) / 2 ^ 16 % 2 ^ 16 < 2 ^ 16 := Nat.mod_lt _ (Nat.two_pow_pos _)
  have hhi : (a.base : ℕ) / 2 ^ 32 % 2 ^ 16 < 2 ^ 32 := by omega
  have hs := a.selector.isLt
  have hf := a.flags.isLt
  rw [GateArgs.Exact, a.toNat_eq_pack]
  simp (disch := omega) only [decodeGate, bits_pack_tail, Nat.reduceSub, bits_pack_head, Gate.mk.injEq, and_true]
  omega

/-- EXACT: decoding undoes encoding in all three formats just when the base of the task state segment repeats its
    bits 40 to 55 in bits 48 to 63, and the target of the gate has no bit above 47. -/
theorem descriptors_exact_iff (seg : SegmentArgs) (tss : TaskStateArgs) (gate : GateArgs) :
    seg.Exact ∧ tss.Exact ∧ gate.Exact ↔ bits tss.base 40 16 = bits tss.base 48 16 ∧ (gate.base : ℕ) < 2 ^ 48 := by
  rw [tss.exact_iff, gate.exact_iff]
  constructor
  · rintro ⟨-, htss, hgate⟩
    exact ⟨htss, hgate⟩
  · rintro ⟨htss, hgate⟩
    exact ⟨seg.exact, htss, hgate⟩

/-- An address of the upper half of the address space comes back as another one from both formats. -/
theorem upper_half_address_lost :
    (decodeTaskState (gdtSetupDescTss 0xffff800000000000 103 9 0 0).toNat).base = 0xff80800000000000
      ∧ (decodeGate (idtSetupGateDesc 0xffff800000000000 8 0x8e).toNat).target = 0x0000800000000000 := by
  decide

end Advos.Desc
