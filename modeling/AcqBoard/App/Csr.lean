import Mathlib.Logic.Function.Basic
import Mathlib.Data.Nat.Notation

/-! The control registers: `csr.c` over the `axi_csr` device.

    The device is fourteen 32-bit words addressed by the file position. A label packs the word's
    offset, the field's shift and its width; a field is written by read-modify-write through a mask
    that a loop builds bit by bit. -/

namespace AcqBoard.Csr

/-- The fourteen words behind the device (`AXI_CSR_PHY_SIZE`). -/
abbrev Regs := Fin 14 → UInt32

def regOffset (uiLabel : UInt32) : UInt32 := uiLabel >>> 24
def regShift (uiLabel : UInt32) : UInt32 := (uiLabel &&& 0x0000FF00) >>> 8
def regBitnum (uiLabel : UInt32) : UInt32 := uiLabel &&& 0x000000FF

def csrCToIoCmd : UInt32 := 0x00000010
def csrTransEn : UInt32 := 0x02000D01
def csrRecEn : UInt32 := 0x02000C01
def csrSyncMode : UInt32 := 0x02000B01
def csrFltSel : UInt32 := 0x02000802
def csrFllScaleSet : UInt32 := 0x02000206
def csrInputSel : UInt32 := 0x02000002
def csrCodeLength : UInt32 := 0x03000020
def csrCodeClkCycles : UInt32 := 0x05000020
def csrTStart : UInt32 := 0x06001F01
def csrTDelta : UInt32 := 0x0600100F
def csrTAcq : UInt32 := 0x06000010

/-- `axi_csr_lseek` to `off` and `axi_csr_read`: past the last word nothing is read and the
    caller's zeroed buffer stays as it is. -/
def axiCsrRead (r : Regs) (off : UInt32) : UInt32 :=
  if h : off.toNat < 14 then r ⟨off.toNat, h⟩ else 0

/-- `axi_csr_lseek` to `off` and `axi_csr_write`. -/
def axiCsrWrite (r : Regs) (off v : UInt32) : Regs :=
  if h : off.toNat < 14 then Function.update r ⟨off.toNat, h⟩ v else r

/-- The mask with `ucBitNum` ones from bit `ucShift` on. -/
def getRegMask (uiLabel : UInt32) : UInt32 :=
  (List.range (regBitnum uiLabel).toNat).foldl
    (fun uiMask i => uiMask ||| ((1 : UInt32) <<< (regShift uiLabel + UInt32.ofNat i))) 0

def regRead (r : Regs) (uiLabel : UInt32) : UInt32 :=
  (axiCsrRead r (regOffset uiLabel) &&& getRegMask uiLabel) >>> regShift uiLabel

def regWrite (r : Regs) (uiLabel uiValue : UInt32) : Regs :=
  let uiMask := getRegMask uiLabel
  let uiRead := axiCsrRead r (regOffset uiLabel)
  axiCsrWrite r (regOffset uiLabel)
    ((uiRead &&& ~~~uiMask) ||| ((uiValue <<< regShift uiLabel) &&& uiMask))

/-- The registers, and the calls of `RegWrite` so far. -/
structure RegLog where
  regs : Regs
  calls : List (UInt32 × UInt32)

/-- `RegWrite`, with a note of the call. -/
def RegLog.regWrite (r : RegLog) (uiLabel uiValue : UInt32) : RegLog :=
  ⟨Csr.regWrite r.regs uiLabel uiValue, r.calls ++ [(uiLabel, uiValue)]⟩

theorem axiCsrRead_write (r : Regs) {off : UInt32} (h : off.toNat < 14) (v : UInt32) :
    axiCsrRead (axiCsrWrite r off v) off = v := by
  rw [axiCsrWrite, dif_pos h, axiCsrRead, dif_pos h, Function.update_self]

/-- Clearing a field reads back as zero. -/
theorem regRead_regWrite_zero (r : Regs) {uiLabel : UInt32}
    (h : (regOffset uiLabel).toNat < 14) : regRead (regWrite r uiLabel 0) uiLabel = 0 := by
  have hz : ∀ w m : UInt32, (w &&& ~~~m ||| 0 &&& m) &&& m = 0 := by
    intro w m
    rw [UInt32.zero_and, UInt32.or_zero, UInt32.and_assoc, UInt32.not_and_self, UInt32.and_zero]
  rw [regRead, regWrite, axiCsrRead_write r h, UInt32.zero_shiftLeft, hz, UInt32.zero_shiftRight]

/-- The start bit (`csrTStart`), which gates the start interrupts of the hardware. -/
def tStart (r : Regs) : Bool := regRead r csrTStart = 1

theorem tStart_clear (r : Regs) : tStart (regWrite r csrTStart 0) = false := by
  rw [tStart, regRead_regWrite_zero r (by decide)]; rfl

end AcqBoard.Csr
