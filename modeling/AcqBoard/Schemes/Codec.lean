import Mathlib.Data.Nat.Notation
import Mathlib.Tactic.Common

/-! Values laid out in a fixed number of bytes.

    A codec is an encoder with a decoder that undoes it. Codecs compose as the members of a C struct
    do, one behind the other. A sequence of values is the concatenation of their bytes, and whoever
    receives the first bytes of it, cut anywhere, reads the first values and no other ones. -/

namespace Schemes

structure Codec (α : Type) where
  size : ℕ
  encode : α → List UInt8
  decode : List UInt8 → Option α
  length_encode : ∀ x, (encode x).length = size
  decode_encode : ∀ x, decode (encode x) = some x

namespace Codec

variable {α β : Type}

theorem encode_inj (c : Codec α) {x y : α} (h : c.encode x = c.encode y) : x = y := by
  have hx := c.decode_encode x
  rw [h, c.decode_encode y] at hx
  exact (Option.some.inj hx).symm

/-- One value behind the other. -/
def pair (c : Codec α) (d : Codec β) : Codec (α × β) where
  size := c.size + d.size
  encode x := c.encode x.1 ++ d.encode x.2
  decode bs := do
    let a ← c.decode (bs.take c.size)
    let b ← d.decode (bs.drop c.size)
    pure (a, b)
  length_encode x := by rw [List.length_append, c.length_encode, d.length_encode]
  decode_encode x := by
    rw [List.take_left' (c.length_encode x.1), List.drop_left' (c.length_encode x.1),
      c.decode_encode, d.decode_encode]
    rfl

/-- The values of one type in the bytes of another one. -/
def map (c : Codec α) (f : β → α) (g : α → β) (h : ∀ y, g (f y) = y) : Codec β where
  size := c.size
  encode y := c.encode (f y)
  decode bs := (c.decode bs).map g
  length_encode y := c.length_encode (f y)
  decode_encode y := by rw [c.decode_encode, Option.map_some, h]

/-- Bytes that say nothing. -/
def blank (n : ℕ) : Codec Unit where
  size := n
  encode _ := List.replicate n 0
  decode _ := some ()
  length_encode _ := List.length_replicate
  decode_encode _ := rfl

def one : Codec UInt8 where
  size := 1
  encode b := [b]
  decode bs := bs.head?
  length_encode _ := rfl
  decode_encode _ := rfl

/-! ### Sequences -/

/-- The first `n` values. -/
def readCount (c : Codec α) : ℕ → List UInt8 → Option (List α)
  | 0, _ => some []
  | n + 1, bs => do
    let x ← c.decode (bs.take c.size)
    let xs ← c.readCount n (bs.drop c.size)
    pure (x :: xs)

/-- All values that have arrived whole. -/
def readAll (c : Codec α) (bs : List UInt8) : Option (List α) := c.readCount (bs.length / c.size) bs

theorem length_flatMap (c : Codec α) (l : List α) : (l.flatMap c.encode).length = l.length * c.size := by
  induction l with
  | nil => simp
  | cons x l ih =>
    rw [List.flatMap_cons, List.length_append, c.length_encode, ih, List.length_cons,
      Nat.succ_mul, Nat.add_comm]

theorem readCount_append (c : Codec α) {n : ℕ} {l : List α} (hn : n ≤ l.length) {bs : List UInt8}
    (hlen : n * c.size ≤ bs.length) (hbs : bs <+: l.flatMap c.encode) :
    c.readCount n bs = some (l.take n) := by
  induction n generalizing l bs with
  | zero => rfl
  | succ n ih =>
    cases l with
    | nil => simp at hn
    | cons x l =>
      rw [Nat.succ_mul] at hlen
      rw [List.flatMap_cons] at hbs
      obtain ⟨t, rfl⟩ : ∃ t, bs = c.encode x ++ t := by
        obtain ⟨t, ht⟩ := List.prefix_of_prefix_length_le (List.prefix_append _ _) hbs
          (by rw [c.length_encode]; omega)
        exact ⟨t, ht.symm⟩
      rw [List.length_append, c.length_encode] at hlen
      rw [List.length_cons] at hn
      rw [readCount, List.take_left' (c.length_encode x), List.drop_left' (c.length_encode x),
        c.decode_encode, ih (by omega) (by omega) ((List.prefix_append_right_inj _).mp hbs)]
      rfl

/-- RULE (stream): of the first bytes of a sequence the values that are whole are read, in order. -/
theorem readAll_cut (c : Codec α) {l : List α} {bs : List UInt8}
    (h : bs <+: l.flatMap c.encode) : c.readAll bs = some (l.take (bs.length / c.size)) := by
  have hle := h.length_le
  rw [c.length_flatMap] at hle
  exact c.readCount_append (Nat.div_le_of_le_mul (by rwa [Nat.mul_comm] at hle))
    (Nat.div_mul_le_self _ _) h

end Codec

end Schemes
