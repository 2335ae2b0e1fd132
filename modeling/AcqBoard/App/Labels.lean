import AcqBoard.App.Csr
import AcqBoard.Schemes.Word
import Mathlib.Algebra.Ring.Int.Defs
import Mathlib.Algebra.Ring.Nat
import Mathlib.Data.List.Induction
import Mathlib.Data.List.Pairwise
import Mathlib.Data.Set.Pairwise.Basic
import Mathlib.Tactic.Common

/-! Fields of the control registers.

    A label is a field of one word: `width` bits from bit `shift` on. Everything here is read off bit
    by bit: what `RegWrite` leaves at a bit depends on whether the label covers it, and from that
    follows what any sequence of writes to disjoint fields leaves. -/

namespace AcqBoard.Csr
open Schemes

/-! ### Labels -/

def offset (l : UInt32) : ℕ := (regOffset l).toNat
def shift (l : UInt32) : ℕ := (regShift l).toNat
def width (l : UInt32) : ℕ := (regBitnum l).toNat

/-- A label of a field inside one of the fourteen words. -/
structure Label (l : UInt32) : Prop where
  word : offset l < 14
  pos : 1 ≤ width l
  fits : shift l + width l ≤ 32

instance (l : UInt32) : Decidable (Label l) :=
  decidable_of_iff (offset l < 14 ∧ 1 ≤ width l ∧ shift l + width l ≤ 32)
    ⟨fun ⟨h₁, h₂, h₃⟩ => ⟨h₁, h₂, h₃⟩, fun ⟨h₁, h₂, h₃⟩ => ⟨h₁, h₂, h₃⟩⟩

/-- Bit `i` of word `k` belongs to the field. -/
def Covers (l : UInt32) (k i : ℕ) : Prop := offset l = k ∧ shift l ≤ i ∧ i < shift l + width l

instance (l : UInt32) (k i : ℕ) : Decidable (Covers l k i) := inferInstanceAs (Decidable (_ ∧ _))

/-- Two fields share no bit. -/
def Apart (l m : UInt32) : Prop := ∀ k i, Covers l k i → ¬ Covers m k i

/-- Fields of one word that follow each other, in some order. -/
def Ordered (l m : UInt32) : Prop :=
  offset l = offset m → shift l + width l ≤ shift m ∨ shift m + width m ≤ shift l

instance (l m : UInt32) : Decidable (Ordered l m) := inferInstanceAs (Decidable (_ → _))

instance : Std.Symm Ordered := ⟨fun _ _ h hoff => (h hoff.symm).symm⟩

theorem apart_iff {l m : UInt32} (hl : Label l) (hm : Label m) :
    Apart l m ↔ Ordered l m := by
  constructor
  · intro h hoff
    by_contra hn
    push Not at hn
    have := hl.pos
    have := hm.pos
    rcases Nat.le_total (shift l) (shift m) with hle | hle
    · exact h (offset l) (shift m) ⟨rfl, hle, hn.1⟩ ⟨hoff.symm, le_refl _, by omega⟩
    · exact h (offset l) (shift l) ⟨rfl, le_refl _, by omega⟩ ⟨hoff.symm, hle, hn.2⟩
  · rintro h k i ⟨rfl, h₁, h₂⟩ ⟨hoff, h₃, h₄⟩
    rcases h hoff.symm with h | h <;> omega

/-- A set of labels whose fields are disjoint. -/
structure Fields (labels : Set UInt32) : Prop where
  label : ∀ l ∈ labels, Label l
  apart : labels.Pairwise Apart

/-- The labels of a list: a check on their numbers. -/
theorem Fields.of_list {ls : List UInt32} (hall : ls.all (fun l => Label l) = true)
    (h : ls.Pairwise Ordered) : Fields {l | l ∈ ls} := by
  have hl : ∀ l ∈ ls, Label l := fun l hin => of_decide_eq_true (List.all_eq_true.mp hall l hin)
  refine ⟨hl, ?_⟩
  intro l hin m hm hne
  exact (apart_iff (hl l hin) (hl m hm)).mpr (h.forall hin hm hne)

/-! ### One word -/

/-- Bit `i` of word `k` of the registers. -/
def bit (r : Regs) (k : Fin 14) (i : ℕ) : Bool := (r k).toNat.testBit i

theorem regs_ext {r s : Regs} (h : ∀ k i, i < 32 → bit r k i = bit s k i) : r = s := by
  funext k
  refine UInt32.toNat_inj.mp (Nat.eq_of_testBit_eq ?_)
  intro i
  rcases Nat.lt_or_ge i 32 with hi | hi
  · exact h k i hi
  · rw [testBit_high (r k) hi, testBit_high (s k) hi]

/-- What the loop of `GetRegMask` has set after its first `n` turns. -/
theorem testBit_mask {s : UInt32} {n i : ℕ} (h : s.toNat + n ≤ 32) (hi : i < 32) :
    ((List.range n).foldl (fun uiMask j => uiMask ||| ((1 : UInt32) <<< (s + UInt32.ofNat j)))
      0).toNat.testBit i = decide (s.toNat ≤ i ∧ i < s.toNat + n) := by
  induction n with
  | zero =>
    have : ¬ (s.toNat ≤ i ∧ i < s.toNat + 0) := by omega
    simp only [List.range_zero, List.foldl_nil, this, decide_false]
    exact Nat.zero_testBit i
  | succ n ih =>
    have hsn : (s + UInt32.ofNat n).toNat = s.toNat + n := by
      rw [UInt32.toNat_add, UInt32.toNat_ofNat']; omega
    rw [List.range_succ, List.foldl_append, List.foldl_cons, List.foldl_nil, UInt32.toNat_or,
      Nat.testBit_or, ih (by omega), testBit_shiftLeft _ _ (by omega) hi, hsn]
    rw [Bool.eq_iff_iff]
    simp only [Bool.or_eq_true, Bool.and_eq_true, decide_eq_true_eq, UInt32.toNat_one,
      Nat.testBit_one_eq_true_iff_self_eq_zero]
    omega

theorem testBit_getRegMask {l : UInt32} (hl : Label l) {i : ℕ} (hi : i < 32) :
    (getRegMask l).toNat.testBit i = decide (shift l ≤ i ∧ i < shift l + width l) :=
  testBit_mask hl.fits hi

/-! ### One write, one read -/

theorem Label.shift_lt {l : UInt32} (hl : Label l) : (regShift l).toNat < 32 := by
  have h₁ := hl.pos
  have h₂ := hl.fits
  unfold shift at h₂
  omega

theorem axiCsrRead_of_lt {r : Regs} {off : UInt32} (h : off.toNat < 14) :
    axiCsrRead r off = r ⟨off.toNat, h⟩ := dif_pos h

/-- RULE (`RegWrite`): the bits of the field become the low bits of the value; every other bit of
    the registers stays. -/
theorem bit_regWrite (r : Regs) {l : UInt32} (hl : Label l) (v : UInt32) (k : Fin 14) {i : ℕ}
    (hi : i < 32) :
    bit (regWrite r l v) k i =
      if Covers l k i then v.toNat.testBit (i - shift l) else bit r k i := by
  have hoff : (regOffset l).toNat < 14 := hl.word
  rcases eq_or_ne k ⟨(regOffset l).toNat, hoff⟩ with rfl | hk
  · rw [bit, regWrite, axiCsrWrite, dif_pos hoff, Function.update_self, axiCsrRead_of_lt hoff,
      UInt32.toNat_or, UInt32.toNat_and, UInt32.toNat_and, Nat.testBit_or, Nat.testBit_and,
      Nat.testBit_and, testBit_not _ hi, testBit_getRegMask hl hi,
      testBit_shiftLeft _ _ hl.shift_lt hi]
    rcases Decidable.em (shift l ≤ i ∧ i < shift l + width l) with hc | hc
    · have hs : (regShift l).toNat ≤ i := hc.1
      rw [if_pos ⟨rfl, hc⟩, decide_eq_true hc, decide_eq_true hs]
      simp [shift]
    · rw [if_neg fun h => hc h.2, decide_eq_false hc]
      simp [bit]
  · have hc : ¬ Covers l k i := fun h => hk (Fin.ext h.1.symm)
    rw [if_neg hc, bit, regWrite, axiCsrWrite, dif_pos hoff, Function.update_of_ne hk, bit]

/-- `RegRead` shifts the field down. -/
theorem testBit_regRead (r : Regs) {l : UInt32} (hl : Label l) (i : ℕ) :
    (regRead r l).toNat.testBit i =
      (decide (i < width l) && bit r ⟨offset l, hl.word⟩ (shift l + i)) := by
  have hfits := hl.fits
  rw [regRead, testBit_shiftRight _ _ _ hl.shift_lt, UInt32.toNat_and, Nat.testBit_and,
    axiCsrRead_of_lt hl.word]
  change ((r ⟨offset l, _⟩).toNat.testBit (shift l + i) &&
    (getRegMask l).toNat.testBit (shift l + i)) = _
  rcases Nat.lt_or_ge (shift l + i) 32 with hi | hi
  · rw [testBit_getRegMask hl hi, Bool.and_comm, bit]
    have : (shift l ≤ shift l + i ∧ shift l + i < shift l + width l) ↔ i < width l := by omega
    simp only [this]
  · have hw : ¬ i < width l := by omega
    rw [testBit_high _ hi]
    simp [hw]

/-- RULE (`RegRead` after `RegWrite`): the value, cut to the width of the field. -/
theorem regRead_regWrite (r : Regs) {l : UInt32} (hl : Label l) (v : UInt32) :
    (regRead (regWrite r l v) l).toNat = v.toNat % 2 ^ width l := by
  refine Nat.eq_of_testBit_eq ?_
  intro i
  rw [testBit_regRead _ hl, Nat.testBit_mod_two_pow]
  rcases Nat.lt_or_ge i (width l) with hi | hi
  · have hfits := hl.fits
    rw [bit_regWrite r hl v _ (by omega), if_pos ⟨rfl, by omega, by omega⟩, Nat.add_sub_cancel_left]
  · simp [Nat.not_lt.mpr hi]

/-- RULE (frame of `RegWrite`): another field reads as before. -/
theorem regRead_regWrite_apart (r : Regs) {l m : UInt32} (hl : Label l) (hm : Label m)
    (h : Apart l m) (v : UInt32) : regRead (regWrite r l v) m = regRead r m := by
  refine UInt32.toNat_inj.mp (Nat.eq_of_testBit_eq ?_)
  intro i
  rw [testBit_regRead _ hm, testBit_regRead _ hm]
  rcases Nat.lt_or_ge i (width m) with hi | hi
  · have hfits := hm.fits
    rw [bit_regWrite r hl v _ (by omega), if_neg]
    intro hc
    exact h _ _ hc ⟨rfl, by omega, by omega⟩
  · simp [Nat.not_lt.mpr hi]

/-! ### Sequences of writes -/

/-- A sequence of `RegWrite(label, value)` calls. -/
def regWrites (r : Regs) (ws : List (UInt32 × UInt32)) : Regs :=
  ws.foldl (fun r w => regWrite r w.1 w.2) r

/-- The values written to a label, in order. -/
def valuesOf (l : UInt32) (ws : List (UInt32 × UInt32)) : List UInt32 :=
  (ws.filter fun w => w.1 = l).map Prod.snd

theorem regWrites_concat (r : Regs) (ws : List (UInt32 × UInt32)) (w : UInt32 × UInt32) :
    regWrites r (ws ++ [w]) = regWrite (regWrites r ws) w.1 w.2 := by
  rw [regWrites, List.foldl_append]; rfl

theorem valuesOf_concat_self (ws : List (UInt32 × UInt32)) (w : UInt32 × UInt32) :
    valuesOf w.1 (ws ++ [w]) = valuesOf w.1 ws ++ [w.2] := by
  simp [valuesOf, List.filter_append]

theorem valuesOf_concat_ne {l : UInt32} (ws : List (UInt32 × UInt32)) {w : UInt32 × UInt32}
    (h : w.1 ≠ l) : valuesOf l (ws ++ [w]) = valuesOf l ws := by
  simp [valuesOf, List.filter_append, h]

theorem mem_of_valuesOf {w : UInt32 × UInt32} {ws ws' : List (UInt32 × UInt32)} (hw : w ∈ ws')
    (h : valuesOf w.1 ws = valuesOf w.1 ws') : ∃ w' ∈ ws, w'.1 = w.1 := by
  have hmem : w.2 ∈ valuesOf w.1 ws := by
    rw [h]
    exact List.mem_map.mpr ⟨w, by simpa using hw, rfl⟩
  obtain ⟨w', hw', -⟩ := List.mem_map.mp hmem
  obtain ⟨hin, hl⟩ := List.mem_filter.mp hw'
  exact ⟨w', hin, of_decide_eq_true hl⟩

/-- A bit that no written field covers stays. -/
theorem bit_regWrites_frame (r : Regs) {ws : List (UInt32 × UInt32)} (hl : ∀ w ∈ ws, Label w.1)
    {k : Fin 14} {i : ℕ} (hi : i < 32) (h : ∀ w ∈ ws, ¬ Covers w.1 k i) :
    bit (regWrites r ws) k i = bit r k i := by
  induction ws using List.reverseRecOn with
  | nil => rfl
  | append_singleton ws w ih =>
    rw [regWrites_concat, bit_regWrite _ (hl w (by simp)) _ _ hi, if_neg (h w (by simp))]
    exact ih (fun x hx => hl x (by simp [hx])) fun x hx => h x (by simp [hx])

section
variable {labels : Set UInt32} (hs : Fields labels)
include hs

/-- A bit of the field `l` is a bit of the last value written to `l`: the writes to other labels
    of the set pass it by. -/
theorem bit_regWrites (r : Regs) {l : UInt32} (hin : l ∈ labels) {ws : List (UInt32 × UInt32)}
    (hws : ∀ w ∈ ws, w.1 ∈ labels) {k : Fin 14} {i : ℕ} (hi : i < 32) (hc : Covers l k i) :
    bit (regWrites r ws) k i =
      match (valuesOf l ws).getLast? with
      | some v => v.toNat.testBit (i - shift l)
      | none => bit r k i := by
  induction ws using List.reverseRecOn with
  | nil => rfl
  | append_singleton ws w ih =>
    have hw : w.1 ∈ labels := hws w (by simp)
    rw [regWrites_concat, bit_regWrite _ (hs.label _ hw) _ _ hi]
    rcases eq_or_ne w.1 l with rfl | hne
    · rw [if_pos hc, valuesOf_concat_self, List.getLast?_concat]
    · rw [if_neg (hs.apart hin hw hne.symm k i hc), valuesOf_concat_ne ws hne]
      exact ih fun x hx => hws x (by simp [hx])

/-- RULE (fields): a label reads as the last value written to it, cut to its width. -/
theorem regRead_regWrites (r : Regs) {l : UInt32} (hin : l ∈ labels)
    {ws : List (UInt32 × UInt32)} (hws : ∀ w ∈ ws, w.1 ∈ labels) :
    (regRead (regWrites r ws) l).toNat =
      match (valuesOf l ws).getLast? with
      | some v => v.toNat % 2 ^ width l
      | none => (regRead r l).toNat := by
  have hbit : ∀ i, i < width l → bit (regWrites r ws) ⟨offset l, (hs.label l hin).word⟩ (shift l + i) =
      match (valuesOf l ws).getLast? with
      | some v => v.toNat.testBit i
      | none => bit r ⟨offset l, (hs.label l hin).word⟩ (shift l + i) := by
    intro i hi
    have hfits := (hs.label l hin).fits
    rw [bit_regWrites hs r hin hws (by omega) ⟨rfl, by omega, by omega⟩,
      Nat.add_sub_cancel_left]
  refine Nat.eq_of_testBit_eq ?_
  intro i
  rw [testBit_regRead _ (hs.label l hin)]
  cases hlast : (valuesOf l ws).getLast? with
  | some v =>
    rw [Nat.testBit_mod_two_pow]
    rcases Nat.lt_or_ge i (width l) with hi | hi
    · rw [hbit i hi, hlast]
    · simp [Nat.not_lt.mpr hi]
  | none =>
    rw [testBit_regRead _ (hs.label l hin)]
    rcases Nat.lt_or_ge i (width l) with hi | hi
    · rw [hbit i hi, hlast]
    · simp [Nat.not_lt.mpr hi]

/-- The registers after a sequence of writes depend on the values of each label only. -/
theorem regWrites_congr (r : Regs) {ws ws' : List (UInt32 × UInt32)}
    (hws : ∀ w ∈ ws, w.1 ∈ labels) (h : ∀ l, valuesOf l ws = valuesOf l ws') :
    regWrites r ws = regWrites r ws' := by
  have hws' : ∀ w ∈ ws', w.1 ∈ labels := by
    intro w hw
    obtain ⟨w', hin, heq⟩ := mem_of_valuesOf hw (h w.1)
    exact heq ▸ hws w' hin
  refine regs_ext ?_
  intro k i hi
  rcases Classical.em (∃ l ∈ labels, Covers l k i) with ⟨l, hin, hc⟩ | hno
  · rw [bit_regWrites hs r hin hws hi hc, bit_regWrites hs r hin hws' hi hc, h l]
  · push Not at hno
    rw [bit_regWrites_frame r (fun w hw => hs.label _ (hws w hw)) hi fun w hw => hno _ (hws w hw),
      bit_regWrites_frame r (fun w hw => hs.label _ (hws' w hw)) hi fun w hw => hno _ (hws' w hw)]

end

/-- CORRECT (fields): for labels whose bit ranges are disjoint, any sequence of writes leaves each
    label's last value in its field, cut to the field's width, and every bit outside the written
    fields as it was; and only the order of the writes to one label matters. -/
theorem regWrites_fields {labels : Set UInt32} (hs : Fields labels) (r : Regs)
    {ws : List (UInt32 × UInt32)} (hws : ∀ w ∈ ws, w.1 ∈ labels) :
    (∀ l ∈ labels, (regRead (regWrites r ws) l).toNat =
      match (valuesOf l ws).getLast? with
      | some v => v.toNat % 2 ^ width l
      | none => (regRead r l).toNat) ∧
    (∀ (k : Fin 14) (i : ℕ), i < 32 → (∀ w ∈ ws, ¬ Covers w.1 k i) →
      bit (regWrites r ws) k i = bit r k i) ∧
    ∀ ws' : List (UInt32 × UInt32), (∀ l, valuesOf l ws = valuesOf l ws') →
      regWrites r ws = regWrites r ws' := by
  refine ⟨?_, ?_, ?_⟩
  · intro l hin
    exact regRead_regWrites hs r hin hws
  · intro k i hi h
    exact bit_regWrites_frame r (fun w hw => hs.label _ (hws w hw)) hi h
  · intro ws' h
    exact regWrites_congr hs r hws h

/-- The fields of word 6, written out of order and one of them twice, on set registers. -/
theorem regWrites_fields_word6 :
    (regRead (regWrites (fun _ => 0xFFFFFFFF)
      [(csrTDelta, 7), (csrTAcq, 65541), (csrTStart, 1), (csrTDelta, 3)]) csrTDelta).toNat =
        3 % 2 ^ width csrTDelta := by
  have hs : Fields {l | l ∈ [csrTStart, csrTDelta, csrTAcq]} :=
    Fields.of_list (by decide) (by decide)
  exact (regWrites_fields hs _ (by simp)).1 csrTDelta (by simp)

end AcqBoard.Csr
