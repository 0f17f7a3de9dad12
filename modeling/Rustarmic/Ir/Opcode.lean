import Mathlib.Data.BitVec

/-!
# The opcodes of the intermediate representation

`Op` is the enumeration of IR operations.  The discriminants are not decoration: an operation that
exists at several widths stores the width in its two low bits, so `Op.base` names the family and
`Op.sizeBits` the width, and the predicates below classify whole families through `Op.base`.

* `Op.hasSideEffects` — the operation must stay in the block even when nobody uses its value.
* `Op.isTerminator` — the operation ends a block.
* `Op.isPure` — the operation is a function of its arguments alone.
-/

set_option autoImplicit false

namespace Rustarmic

/-- IR operations, in the order and with the grouping of the source. -/
inductive Op where
  | void | identity
  | constU32 | constU64 | constU128
  | getX | setX | getW | setW | getSp | setSp | getNzcv | setNzcv | getPc | getV | setV
  | add8 | add16 | add32 | add64 | sub8 | sub16 | sub32 | sub64 | adc8 | adc16 | adc32 | adc64
  | sbc8 | sbc16 | sbc32 | sbc64
  | addsFlags8 | addsFlags16 | addsFlags32 | addsFlags64 | subsFlags8 | subsFlags16 | subsFlags32
  | subsFlags64
  | and8 | and16 | and32 | and64 | or8 | or16 | or32 | or64 | eor8 | eor16 | eor32 | eor64 | bic8
  | bic16 | bic32 | bic64 | orn8 | orn16 | orn32 | orn64 | eon8 | eon16 | eon32 | eon64
  | not8 | not16 | not32 | not64 | neg8 | neg16 | neg32 | neg64 | logicFlags32 | logicFlags64
  | lsl8 | lsl16 | lsl32 | lsl64 | lsr8 | lsr16 | lsr32 | lsr64 | asr8 | asr16 | asr32 | asr64
  | ror8 | ror16 | ror32 | ror64
  | ubfm8 | ubfm16 | ubfm32 | ubfm64 | sbfm8 | sbfm16 | sbfm32 | sbfm64 | bfm8 | bfm16 | bfm32
  | bfm64 | extr8 | extr16 | extr32 | extr64
  | mul8 | mul16 | mul32 | mul64 | madd8 | madd16 | madd32 | madd64 | msub8 | msub16 | msub32
  | msub64
  | uMulH64 | sMulH64 | uMull32 | sMull32 | uMAddl | sMAddl | uMSubl | sMSubl
  | uDiv8 | uDiv16 | uDiv32 | uDiv64 | sDiv8 | sDiv16 | sDiv32 | sDiv64
  | zext | sext
  | clz8 | clz16 | clz32 | clz64 | cls8 | cls16 | cls32 | cls64 | rbit8 | rbit16 | rbit32
  | rbit64 | rev16 | rev32 | rev64
  | crc32Ieee8 | crc32Ieee16 | crc32Ieee32 | crc32Ieee64 | crc32Castagnoli8 | crc32Castagnoli16
  | crc32Castagnoli32 | crc32Castagnoli64
  | csel8 | csel16 | csel32 | csel64 | csinc8 | csinc16 | csinc32 | csinc64 | csinv8 | csinv16
  | csinv32 | csinv64 | csneg8 | csneg16 | csneg32 | csneg64
  | ccmpReg8 | ccmpReg16 | ccmpReg32 | ccmpReg64 | ccmpImm8 | ccmpImm16 | ccmpImm32 | ccmpImm64
  | ccmnReg8 | ccmnReg16 | ccmnReg32 | ccmnReg64 | ccmnImm8 | ccmnImm16 | ccmnImm32 | ccmnImm64
  | branch | branchLink | branchIndirect | branchIndirectLink | ret | branchCond | cbZ | cbNz
  | tbZ | tbNz
  | load8 | load16 | load32 | load64 | load128
  | loadS8 | loadS16 | loadS32
  | store8 | store16 | store32 | store64 | store128
  | loadAcq8 | loadAcq16 | loadAcq32 | loadAcq64 | storeRel8 | storeRel16 | storeRel32
  | storeRel64
  | loadEx8 | loadEx16 | loadEx32 | loadEx64 | storeEx8 | storeEx16 | storeEx32 | storeEx64
  | loadPair8 | loadPair16 | loadPair32 | loadPair64 | storePair8 | storePair16 | storePair32
  | storePair64
  | atomicRmw8 | atomicRmw16 | atomicRmw32 | atomicRmw64 | atomicCas8 | atomicCas16 | atomicCas32
  | atomicCas64 | loadEx128 | storeEx128 | atomicCas128
  | fmov32 | fmov64 | fadd32 | fadd64 | fsub32 | fsub64 | fmul32 | fmul64 | fdiv32 | fdiv64
  | fneg32 | fneg64 | fabs32 | fabs64 | fsqrt32 | fsqrt64 | fcmp32 | fcmp64 | fmax32 | fmax64
  | fmin32 | fmin64
  | fcvtZsSW | fcvtZsSX | fcvtZsDW | fcvtZsDX | scvtfWS | scvtfXS | scvtfWD | scvtfXD | fcvtSD
  | fcvtDS | fcvtZuSW | fcvtZuSX | fcvtZuDW | fcvtZuDX | fmadd32 | fmadd64 | frsqrtEstimate32
  | frsqrtEstimate64 | frsqrtStep32 | frsqrtStep64 | saturatingNarrow | frecipEstimate32
  | frecipEstimate64 | frecipStep32 | frecipStep64 | fabsDiff32 | fabsDiff64 | fpMinMaxReduce32
  | intMinMaxReduce32 | fpMinMaxNum32 | fpMinMaxNum64 | saturatingBinary | fpAbsoluteCompare32
  | fpAbsoluteCompare64 | adcs32 | adcs64 | sbcs32 | sbcs64 | ucvtfWS | ucvtfXS | ucvtfWD
  | ucvtfXD
  | vecAdd8 | vecAdd16 | vecAdd32 | vecAdd64 | vecSub8 | vecSub16 | vecSub32 | vecSub64
  | vecAnd | vecOrr | vecEor | vecBic | vecOrn
  | vecDupGpr8 | vecDupGpr16 | vecDupGpr32 | vecDupGpr64 | vecInsGpr8 | vecInsGpr16 | vecInsGpr32
  | vecInsGpr64
  | vecBuildQ | vecExtractLo64 | vecExtractHi64
  | vecExtract8 | vecExtract16 | vecExtract32
  | vecNeg8 | vecNeg16 | vecNeg32 | vecNeg64 | vecAbs8 | vecAbs16 | vecAbs32 | vecAbs64 | vecNot
  | vecMul8 | vecMul16 | vecMul32 | vecMul64
  | vecShlImm8 | vecShlImm16 | vecShlImm32 | vecShlImm64 | vecUshrImm8 | vecUshrImm16
  | vecUshrImm32 | vecUshrImm64 | vecSshrImm8 | vecSshrImm16 | vecSshrImm32 | vecSshrImm64
  | vecCmEq8 | vecCmEq16 | vecCmEq32 | vecCmEq64 | vecCmGt8 | vecCmGt16 | vecCmGt32 | vecCmGt64
  | vecCmGe8 | vecCmGe16 | vecCmGe32 | vecCmGe64 | vecCmHi8 | vecCmHi16 | vecCmHi32 | vecCmHi64
  | vecCmHs8 | vecCmHs16 | vecCmHs32 | vecCmHs64
  | vecBit | vecBif | vecBsl
  | vecExt
  | vecZip1_8 | vecZip1_16 | vecZip1_32 | vecZip1_64 | vecZip2_8 | vecZip2_16 | vecZip2_32
  | vecZip2_64
  | vecSmin8 | vecSmin16 | vecSmin32 | vecSmin64 | vecSmax8 | vecSmax16 | vecSmax32 | vecSmax64
  | vecUmin8 | vecUmin16 | vecUmin32 | vecUmin64 | vecUmax8 | vecUmax16 | vecUmax32 | vecUmax64
  | vecAddv32
  | vecFAdd_S | vecFAdd_D | vecFSub_S | vecFSub_D | vecFMul_S | vecFMul_D | vecFDiv_S | vecFDiv_D
  | vecFMax_S | vecFMax_D | vecFMin_S | vecFMin_D | vecFNeg_S | vecFNeg_D | vecFAbs_S | vecFAbs_D
  | vecFSqrt_S | vecFSqrt_D
  | vecSaddl | vecUaddl | vecSsubl | vecUsubl | vecSmull | vecUmull
  | vecXtn | vecXtn2
  | vecFCmEq_S | vecFCmEq_D | vecFCmGt_S | vecFCmGt_D | vecFCmGe_S | vecFCmGe_D
  | vecTbl
  | vecRev16 | vecRev32 | vecRev64
  | vecUzp1 | vecUzp2 | vecTrn1 | vecTrn2
  | vecFmla_S | vecFmla_D | vecFmls_S | vecFmls_D
  | vecTbl2 | vecTbl3
  | vecFRintN_S | vecFRintN_D | vecFRintM_S | vecFRintM_D | vecFRintP_S | vecFRintP_D
  | vecFRintZ_S | vecFRintZ_D | vecFRintA_S | vecFRintA_D | vecFRintX_S | vecFRintX_D | vecUshl8
  | vecUshl16 | vecUshl32 | vecUshl64 | vecSshl8 | vecSshl16 | vecSshl32 | vecSshl64
  | aesEncrypt | aesDecrypt | aesMixColumns | aesInverseMixColumns | sha256Hash | sha256Hash2
  | sha256Schedule0 | sha256Schedule1 | scalarFpPair32 | scalarFpPair64 | vecBitAffine | vecClz16
  | vecClz32 | sm4Encrypt | sm4KeySchedule
  | mrs | msr | hint | brk | svc | hvc | memoryBarrier | clrex
  | callHelper
  deriving DecidableEq, Repr

namespace Op

/-- The discriminant, a `u16`. -/
def raw : Op → Nat
  | .void => 0x000
  | .identity => 0x004
  | .constU32 => 0x012
  | .constU64 => 0x013
  | .constU128 => 0x014
  | .getX => 0x020
  | .setX => 0x024
  | .getW => 0x028
  | .setW => 0x02C
  | .getSp => 0x030
  | .setSp => 0x034
  | .getNzcv => 0x038
  | .setNzcv => 0x03C
  | .getPc => 0x040
  | .getV => 0x044
  | .setV => 0x048
  | .add8 => 0x100
  | .add16 => 0x101
  | .add32 => 0x102
  | .add64 => 0x103
  | .sub8 => 0x104
  | .sub16 => 0x105
  | .sub32 => 0x106
  | .sub64 => 0x107
  | .adc8 => 0x108
  | .adc16 => 0x109
  | .adc32 => 0x10A
  | .adc64 => 0x10B
  | .sbc8 => 0x10C
  | .sbc16 => 0x10D
  | .sbc32 => 0x10E
  | .sbc64 => 0x10F
  | .addsFlags8 => 0x110
  | .addsFlags16 => 0x111
  | .addsFlags32 => 0x112
  | .addsFlags64 => 0x113
  | .subsFlags8 => 0x114
  | .subsFlags16 => 0x115
  | .subsFlags32 => 0x116
  | .subsFlags64 => 0x117
  | .and8 => 0x118
  | .and16 => 0x119
  | .and32 => 0x11A
  | .and64 => 0x11B
  | .or8 => 0x11C
  | .or16 => 0x11D
  | .or32 => 0x11E
  | .or64 => 0x11F
  | .eor8 => 0x120
  | .eor16 => 0x121
  | .eor32 => 0x122
  | .eor64 => 0x123
  | .bic8 => 0x124
  | .bic16 => 0x125
  | .bic32 => 0x126
  | .bic64 => 0x127
  | .orn8 => 0x128
  | .orn16 => 0x129
  | .orn32 => 0x12A
  | .orn64 => 0x12B
  | .eon8 => 0x12C
  | .eon16 => 0x12D
  | .eon32 => 0x12E
  | .eon64 => 0x12F
  | .not8 => 0x130
  | .not16 => 0x131
  | .not32 => 0x132
  | .not64 => 0x133
  | .neg8 => 0x134
  | .neg16 => 0x135
  | .neg32 => 0x136
  | .neg64 => 0x137
  | .logicFlags32 => 0x13A
  | .logicFlags64 => 0x13B
  | .lsl8 => 0x140
  | .lsl16 => 0x141
  | .lsl32 => 0x142
  | .lsl64 => 0x143
  | .lsr8 => 0x144
  | .lsr16 => 0x145
  | .lsr32 => 0x146
  | .lsr64 => 0x147
  | .asr8 => 0x148
  | .asr16 => 0x149
  | .asr32 => 0x14A
  | .asr64 => 0x14B
  | .ror8 => 0x14C
  | .ror16 => 0x14D
  | .ror32 => 0x14E
  | .ror64 => 0x14F
  | .ubfm8 => 0x150
  | .ubfm16 => 0x151
  | .ubfm32 => 0x152
  | .ubfm64 => 0x153
  | .sbfm8 => 0x154
  | .sbfm16 => 0x155
  | .sbfm32 => 0x156
  | .sbfm64 => 0x157
  | .bfm8 => 0x158
  | .bfm16 => 0x159
  | .bfm32 => 0x15A
  | .bfm64 => 0x15B
  | .extr8 => 0x15C
  | .extr16 => 0x15D
  | .extr32 => 0x15E
  | .extr64 => 0x15F
  | .mul8 => 0x160
  | .mul16 => 0x161
  | .mul32 => 0x162
  | .mul64 => 0x163
  | .madd8 => 0x164
  | .madd16 => 0x165
  | .madd32 => 0x166
  | .madd64 => 0x167
  | .msub8 => 0x168
  | .msub16 => 0x169
  | .msub32 => 0x16A
  | .msub64 => 0x16B
  | .uMulH64 => 0x16F
  | .sMulH64 => 0x173
  | .uMull32 => 0x176
  | .sMull32 => 0x17A
  | .uMAddl => 0x17C
  | .sMAddl => 0x180
  | .uMSubl => 0x184
  | .sMSubl => 0x188
  | .uDiv8 => 0x190
  | .uDiv16 => 0x191
  | .uDiv32 => 0x192
  | .uDiv64 => 0x193
  | .sDiv8 => 0x194
  | .sDiv16 => 0x195
  | .sDiv32 => 0x196
  | .sDiv64 => 0x197
  | .zext => 0x1A0
  | .sext => 0x1A4
  | .clz8 => 0x1A8
  | .clz16 => 0x1A9
  | .clz32 => 0x1AA
  | .clz64 => 0x1AB
  | .cls8 => 0x1AC
  | .cls16 => 0x1AD
  | .cls32 => 0x1AE
  | .cls64 => 0x1AF
  | .rbit8 => 0x1B0
  | .rbit16 => 0x1B1
  | .rbit32 => 0x1B2
  | .rbit64 => 0x1B3
  | .rev16 => 0x1B5
  | .rev32 => 0x1B6
  | .rev64 => 0x1B7
  | .crc32Ieee8 => 0x1BC
  | .crc32Ieee16 => 0x1BD
  | .crc32Ieee32 => 0x1BE
  | .crc32Ieee64 => 0x1BF
  | .crc32Castagnoli8 => 0x1C0
  | .crc32Castagnoli16 => 0x1C1
  | .crc32Castagnoli32 => 0x1C2
  | .crc32Castagnoli64 => 0x1C3
  | .csel8 => 0x200
  | .csel16 => 0x201
  | .csel32 => 0x202
  | .csel64 => 0x203
  | .csinc8 => 0x204
  | .csinc16 => 0x205
  | .csinc32 => 0x206
  | .csinc64 => 0x207
  | .csinv8 => 0x208
  | .csinv16 => 0x209
  | .csinv32 => 0x20A
  | .csinv64 => 0x20B
  | .csneg8 => 0x20C
  | .csneg16 => 0x20D
  | .csneg32 => 0x20E
  | .csneg64 => 0x20F
  | .ccmpReg8 => 0x210
  | .ccmpReg16 => 0x211
  | .ccmpReg32 => 0x212
  | .ccmpReg64 => 0x213
  | .ccmpImm8 => 0x214
  | .ccmpImm16 => 0x215
  | .ccmpImm32 => 0x216
  | .ccmpImm64 => 0x217
  | .ccmnReg8 => 0x218
  | .ccmnReg16 => 0x219
  | .ccmnReg32 => 0x21A
  | .ccmnReg64 => 0x21B
  | .ccmnImm8 => 0x21C
  | .ccmnImm16 => 0x21D
  | .ccmnImm32 => 0x21E
  | .ccmnImm64 => 0x21F
  | .branch => 0x300
  | .branchLink => 0x304
  | .branchIndirect => 0x308
  | .branchIndirectLink => 0x30C
  | .ret => 0x310
  | .branchCond => 0x314
  | .cbZ => 0x318
  | .cbNz => 0x31C
  | .tbZ => 0x320
  | .tbNz => 0x324
  | .load8 => 0x400
  | .load16 => 0x401
  | .load32 => 0x402
  | .load64 => 0x403
  | .load128 => 0x404
  | .loadS8 => 0x408
  | .loadS16 => 0x409
  | .loadS32 => 0x40A
  | .store8 => 0x40C
  | .store16 => 0x40D
  | .store32 => 0x40E
  | .store64 => 0x40F
  | .store128 => 0x410
  | .loadAcq8 => 0x418
  | .loadAcq16 => 0x419
  | .loadAcq32 => 0x41A
  | .loadAcq64 => 0x41B
  | .storeRel8 => 0x41C
  | .storeRel16 => 0x41D
  | .storeRel32 => 0x41E
  | .storeRel64 => 0x41F
  | .loadEx8 => 0x420
  | .loadEx16 => 0x421
  | .loadEx32 => 0x422
  | .loadEx64 => 0x423
  | .storeEx8 => 0x424
  | .storeEx16 => 0x425
  | .storeEx32 => 0x426
  | .storeEx64 => 0x427
  | .loadPair8 => 0x428
  | .loadPair16 => 0x429
  | .loadPair32 => 0x42A
  | .loadPair64 => 0x42B
  | .storePair8 => 0x42C
  | .storePair16 => 0x42D
  | .storePair32 => 0x42E
  | .storePair64 => 0x42F
  | .atomicRmw8 => 0x430
  | .atomicRmw16 => 0x431
  | .atomicRmw32 => 0x432
  | .atomicRmw64 => 0x433
  | .atomicCas8 => 0x434
  | .atomicCas16 => 0x435
  | .atomicCas32 => 0x436
  | .atomicCas64 => 0x437
  | .loadEx128 => 0x438
  | .storeEx128 => 0x43C
  | .atomicCas128 => 0x440
  | .fmov32 => 0x502
  | .fmov64 => 0x503
  | .fadd32 => 0x506
  | .fadd64 => 0x507
  | .fsub32 => 0x50A
  | .fsub64 => 0x50B
  | .fmul32 => 0x50E
  | .fmul64 => 0x50F
  | .fdiv32 => 0x512
  | .fdiv64 => 0x513
  | .fneg32 => 0x516
  | .fneg64 => 0x517
  | .fabs32 => 0x51A
  | .fabs64 => 0x51B
  | .fsqrt32 => 0x51E
  | .fsqrt64 => 0x51F
  | .fcmp32 => 0x522
  | .fcmp64 => 0x523
  | .fmax32 => 0x526
  | .fmax64 => 0x527
  | .fmin32 => 0x52A
  | .fmin64 => 0x52B
  | .fcvtZsSW => 0x540
  | .fcvtZsSX => 0x541
  | .fcvtZsDW => 0x542
  | .fcvtZsDX => 0x543
  | .scvtfWS => 0x544
  | .scvtfXS => 0x545
  | .scvtfWD => 0x546
  | .scvtfXD => 0x547
  | .fcvtSD => 0x548
  | .fcvtDS => 0x549
  | .fcvtZuSW => 0x550
  | .fcvtZuSX => 0x551
  | .fcvtZuDW => 0x552
  | .fcvtZuDX => 0x553
  | .fmadd32 => 0x554
  | .fmadd64 => 0x555
  | .frsqrtEstimate32 => 0x55A
  | .frsqrtEstimate64 => 0x55B
  | .frsqrtStep32 => 0x55E
  | .frsqrtStep64 => 0x55F
  | .saturatingNarrow => 0x560
  | .frecipEstimate32 => 0x566
  | .frecipEstimate64 => 0x567
  | .frecipStep32 => 0x56A
  | .frecipStep64 => 0x56B
  | .fabsDiff32 => 0x56E
  | .fabsDiff64 => 0x56F
  | .fpMinMaxReduce32 => 0x570
  | .intMinMaxReduce32 => 0x571
  | .fpMinMaxNum32 => 0x574
  | .fpMinMaxNum64 => 0x575
  | .saturatingBinary => 0x578
  | .fpAbsoluteCompare32 => 0x57A
  | .fpAbsoluteCompare64 => 0x57B
  | .adcs32 => 0x57E
  | .adcs64 => 0x57F
  | .sbcs32 => 0x582
  | .sbcs64 => 0x583
  | .ucvtfWS => 0x54C
  | .ucvtfXS => 0x54D
  | .ucvtfWD => 0x54E
  | .ucvtfXD => 0x54F
  | .vecAdd8 => 0x600
  | .vecAdd16 => 0x601
  | .vecAdd32 => 0x602
  | .vecAdd64 => 0x603
  | .vecSub8 => 0x604
  | .vecSub16 => 0x605
  | .vecSub32 => 0x606
  | .vecSub64 => 0x607
  | .vecAnd => 0x608
  | .vecOrr => 0x60C
  | .vecEor => 0x610
  | .vecBic => 0x614
  | .vecOrn => 0x618
  | .vecDupGpr8 => 0x61C
  | .vecDupGpr16 => 0x61D
  | .vecDupGpr32 => 0x61E
  | .vecDupGpr64 => 0x61F
  | .vecInsGpr8 => 0x620
  | .vecInsGpr16 => 0x621
  | .vecInsGpr32 => 0x622
  | .vecInsGpr64 => 0x623
  | .vecBuildQ => 0x62C
  | .vecExtractLo64 => 0x630
  | .vecExtractHi64 => 0x634
  | .vecExtract8 => 0x638
  | .vecExtract16 => 0x639
  | .vecExtract32 => 0x63A
  | .vecNeg8 => 0x640
  | .vecNeg16 => 0x641
  | .vecNeg32 => 0x642
  | .vecNeg64 => 0x643
  | .vecAbs8 => 0x644
  | .vecAbs16 => 0x645
  | .vecAbs32 => 0x646
  | .vecAbs64 => 0x647
  | .vecNot => 0x648
  | .vecMul8 => 0x64C
  | .vecMul16 => 0x64D
  | .vecMul32 => 0x64E
  | .vecMul64 => 0x64F
  | .vecShlImm8 => 0x650
  | .vecShlImm16 => 0x651
  | .vecShlImm32 => 0x652
  | .vecShlImm64 => 0x653
  | .vecUshrImm8 => 0x654
  | .vecUshrImm16 => 0x655
  | .vecUshrImm32 => 0x656
  | .vecUshrImm64 => 0x657
  | .vecSshrImm8 => 0x658
  | .vecSshrImm16 => 0x659
  | .vecSshrImm32 => 0x65A
  | .vecSshrImm64 => 0x65B
  | .vecCmEq8 => 0x65C
  | .vecCmEq16 => 0x65D
  | .vecCmEq32 => 0x65E
  | .vecCmEq64 => 0x65F
  | .vecCmGt8 => 0x660
  | .vecCmGt16 => 0x661
  | .vecCmGt32 => 0x662
  | .vecCmGt64 => 0x663
  | .vecCmGe8 => 0x664
  | .vecCmGe16 => 0x665
  | .vecCmGe32 => 0x666
  | .vecCmGe64 => 0x667
  | .vecCmHi8 => 0x668
  | .vecCmHi16 => 0x669
  | .vecCmHi32 => 0x66A
  | .vecCmHi64 => 0x66B
  | .vecCmHs8 => 0x66C
  | .vecCmHs16 => 0x66D
  | .vecCmHs32 => 0x66E
  | .vecCmHs64 => 0x66F
  | .vecBit => 0x670
  | .vecBif => 0x674
  | .vecBsl => 0x678
  | .vecExt => 0x67C
  | .vecZip1_8 => 0x680
  | .vecZip1_16 => 0x681
  | .vecZip1_32 => 0x682
  | .vecZip1_64 => 0x683
  | .vecZip2_8 => 0x684
  | .vecZip2_16 => 0x685
  | .vecZip2_32 => 0x686
  | .vecZip2_64 => 0x687
  | .vecSmin8 => 0x688
  | .vecSmin16 => 0x689
  | .vecSmin32 => 0x68A
  | .vecSmin64 => 0x68B
  | .vecSmax8 => 0x68C
  | .vecSmax16 => 0x68D
  | .vecSmax32 => 0x68E
  | .vecSmax64 => 0x68F
  | .vecUmin8 => 0x690
  | .vecUmin16 => 0x691
  | .vecUmin32 => 0x692
  | .vecUmin64 => 0x693
  | .vecUmax8 => 0x694
  | .vecUmax16 => 0x695
  | .vecUmax32 => 0x696
  | .vecUmax64 => 0x697
  | .vecAddv32 => 0x698
  | .vecFAdd_S => 0x6A0
  | .vecFAdd_D => 0x6A1
  | .vecFSub_S => 0x6A2
  | .vecFSub_D => 0x6A3
  | .vecFMul_S => 0x6A4
  | .vecFMul_D => 0x6A5
  | .vecFDiv_S => 0x6A6
  | .vecFDiv_D => 0x6A7
  | .vecFMax_S => 0x6A8
  | .vecFMax_D => 0x6A9
  | .vecFMin_S => 0x6AA
  | .vecFMin_D => 0x6AB
  | .vecFNeg_S => 0x6AC
  | .vecFNeg_D => 0x6AD
  | .vecFAbs_S => 0x6AE
  | .vecFAbs_D => 0x6AF
  | .vecFSqrt_S => 0x6B0
  | .vecFSqrt_D => 0x6B1
  | .vecSaddl => 0x6B4
  | .vecUaddl => 0x6B8
  | .vecSsubl => 0x6E0
  | .vecUsubl => 0x6E4
  | .vecSmull => 0x6E8
  | .vecUmull => 0x6EC
  | .vecXtn => 0x6BC
  | .vecXtn2 => 0x6F0
  | .vecFCmEq_S => 0x6F4
  | .vecFCmEq_D => 0x6F5
  | .vecFCmGt_S => 0x6F8
  | .vecFCmGt_D => 0x6F9
  | .vecFCmGe_S => 0x6FC
  | .vecFCmGe_D => 0x6FD
  | .vecTbl => 0x6C0
  | .vecRev16 => 0x6C4
  | .vecRev32 => 0x6C8
  | .vecRev64 => 0x6CC
  | .vecUzp1 => 0x6D0
  | .vecUzp2 => 0x6D4
  | .vecTrn1 => 0x6D8
  | .vecTrn2 => 0x6DC
  | .vecFmla_S => 0x720
  | .vecFmla_D => 0x721
  | .vecFmls_S => 0x724
  | .vecFmls_D => 0x725
  | .vecTbl2 => 0x728
  | .vecTbl3 => 0x72C
  | .vecFRintN_S => 0x730
  | .vecFRintN_D => 0x731
  | .vecFRintM_S => 0x734
  | .vecFRintM_D => 0x735
  | .vecFRintP_S => 0x738
  | .vecFRintP_D => 0x739
  | .vecFRintZ_S => 0x73C
  | .vecFRintZ_D => 0x73D
  | .vecFRintA_S => 0x740
  | .vecFRintA_D => 0x741
  | .vecFRintX_S => 0x744
  | .vecFRintX_D => 0x745
  | .vecUshl8 => 0x748
  | .vecUshl16 => 0x749
  | .vecUshl32 => 0x74A
  | .vecUshl64 => 0x74B
  | .vecSshl8 => 0x74C
  | .vecSshl16 => 0x74D
  | .vecSshl32 => 0x74E
  | .vecSshl64 => 0x74F
  | .aesEncrypt => 0x750
  | .aesDecrypt => 0x754
  | .aesMixColumns => 0x758
  | .aesInverseMixColumns => 0x75C
  | .sha256Hash => 0x760
  | .sha256Hash2 => 0x764
  | .sha256Schedule0 => 0x768
  | .sha256Schedule1 => 0x76C
  | .scalarFpPair32 => 0x770
  | .scalarFpPair64 => 0x771
  | .vecBitAffine => 0x77C
  | .vecClz16 => 0x781
  | .vecClz32 => 0x785
  | .sm4Encrypt => 0x782
  | .sm4KeySchedule => 0x783
  | .mrs => 0x700
  | .msr => 0x704
  | .hint => 0x708
  | .brk => 0x70C
  | .svc => 0x710
  | .hvc => 0x714
  | .memoryBarrier => 0x718
  | .clrex => 0x71C
  | .callHelper => 0x800

/-- The family of a sized operation: the discriminant without its two size bits. -/
def base (o : Op) : Nat := o.raw / 4 * 4

def sizeLog2 (o : Op) : Nat := o.raw % 4

def sizeBytes (o : Op) : Nat := 1 <<< o.sizeLog2

def sizeBits (o : Op) : Nat := 8 <<< o.sizeLog2

/-- The operations `hasSideEffects` lists one by one, whatever their family. -/
def listedSideEffect : Op → Bool
  | .setX | .setW | .setSp | .setNzcv | .setV | .addsFlags32 | .addsFlags64 | .subsFlags32
  | .subsFlags64 | .logicFlags32 | .logicFlags64 | .atomicRmw8 | .atomicRmw16 | .atomicRmw32
  | .atomicRmw64 | .atomicCas8 | .atomicCas16 | .atomicCas32 | .atomicCas64 | .loadEx128
  | .storeEx128 | .atomicCas128 | .fcmp32 | .fcmp64 | .frsqrtEstimate32 | .frsqrtEstimate64
  | .frsqrtStep32 | .frsqrtStep64 | .saturatingNarrow | .frecipEstimate32 | .frecipEstimate64
  | .frecipStep32 | .frecipStep64 | .fabsDiff32 | .fabsDiff64 | .fpMinMaxReduce32
  | .fpMinMaxNum32 | .fpMinMaxNum64 | .scalarFpPair32 | .scalarFpPair64 | .saturatingBinary
  | .fpAbsoluteCompare32 | .fpAbsoluteCompare64 | .adcs32 | .adcs64 | .sbcs32 | .sbcs64 | .mrs
  | .msr | .brk | .svc | .hvc | .hint | .memoryBarrier | .clrex | .callHelper => true
  | _ => false

/-- The families whose members all have side effects.  Guest reads are among them: they remain
observable (callbacks, MMIO, faults) even when their result is never used. -/
def sideEffectBases : List Nat :=
  [load8.base, load128.raw, loadS8.base, loadAcq8.base, loadPair8.base, store8.base,
   store128.raw, storeRel8.base, storeEx8.base, loadEx8.base, storePair8.base, branch.base,
   branchLink.base, branchIndirect.base, branchIndirectLink.base, ret.base, branchCond.base,
   cbZ.base, cbNz.base, tbZ.base, tbNz.base]

/-- Whether the operation has to be kept even when its value is unused. -/
def hasSideEffects (o : Op) : Bool := o.listedSideEffect || sideEffectBases.contains o.base

/-- Whether the operation ends a block. -/
def isTerminator : Op → Bool
  | .branch | .branchLink | .branchIndirect | .branchIndirectLink | .ret | .branchCond | .cbZ
  | .cbNz | .tbZ | .tbNz | .brk | .svc | .hvc => true
  | _ => false

/-- Whether the operation reads a guest register through the context. -/
def readsContext : Op → Bool
  | .getX | .getW | .getSp | .getNzcv | .getV | .mrs => true
  | _ => false

/-- The load families; they are already excluded from `isPure` as side effects. -/
def loadBases : List Nat := [load8.base, load128.raw, loadS8.base, loadAcq8.base, loadPair8.base]

/-- Whether the operation depends on its arguments and immediate only. -/
def isPure (o : Op) : Bool := !o.hasSideEffects && !o.readsContext && !loadBases.contains o.base

end Op

end Rustarmic
