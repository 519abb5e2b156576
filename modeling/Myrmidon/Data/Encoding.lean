import Mathlib.Data.List.Basic
import Mathlib.Tactic.Ring

namespace Myrmidon.Data

/-- The `width` big-endian bytes of a number; higher digits are dropped. -/
def encodeBE : Nat → Nat → List UInt8
  | 0, _ => []
  | width + 1, number => UInt8.ofNat (number / 256 ^ width) :: encodeBE width number

def decodeBE : List UInt8 → Nat
  | [] => 0
  | byte :: rest => byte.toNat * 256 ^ rest.length + decodeBE rest

theorem length_encodeBE (width number : Nat) : (encodeBE width number).length = width := by
  induction width with
  | zero => rfl
  | succ width ih => rw [encodeBE, List.length_cons, ih]

theorem decodeBE_lt (bytes : List UInt8) : decodeBE bytes < 256 ^ bytes.length := by
  induction bytes with
  | nil => decide
  | cons byte rest ih =>
    have bound : byte.toNat + 1 ≤ 256 := byte.toNat_lt
    have scaled := Nat.mul_le_mul_right (256 ^ rest.length) bound
    rw [decodeBE, List.length_cons, Nat.pow_succ, Nat.mul_comm (256 ^ rest.length)]
    rw [Nat.add_mul, Nat.one_mul] at scaled
    omega

theorem decodeBE_encodeBE (width number : Nat) : decodeBE (encodeBE width number) = number % 256 ^ width := by
  induction width with
  | zero => rw [Nat.pow_zero, Nat.mod_one]; rfl
  | succ width ih =>
    have digit : (UInt8.ofNat (number / 256 ^ width)).toNat = number / 256 ^ width % 256 := UInt8.toNat_ofNat'
    have split : number % 256 ^ (width + 1) = number % 256 ^ width + 256 ^ width * (number / 256 ^ width % 256) := by
      rw [Nat.pow_succ, Nat.mod_mul]
    rw [encodeBE, decodeBE, length_encodeBE, ih, digit, split, Nat.mul_comm, Nat.add_comm]

theorem encodeBE_add_mul (width number factor : Nat) :
    encodeBE width (factor * 256 ^ width + number) = encodeBE width number := by
  induction width generalizing factor with
  | zero => rfl
  | succ width ih =>
    have split : factor * 256 ^ (width + 1) = factor * 256 * 256 ^ width := by ring
    have quotient : (factor * 256 * 256 ^ width + number) / 256 ^ width =
        factor * 256 + number / 256 ^ width := Nat.add_comm _ number ▸
      (Nat.add_mul_div_right number (factor * 256) (Nat.pow_pos (by decide))).trans (Nat.add_comm _ _)
    rw [split, encodeBE, encodeBE, ih, quotient]
    congr 1
    apply UInt8.toNat_inj.mp
    rw [UInt8.toNat_ofNat', UInt8.toNat_ofNat']
    omega

theorem encodeBE_decodeBE (bytes : List UInt8) : encodeBE bytes.length (decodeBE bytes) = bytes := by
  induction bytes with
  | nil => rfl
  | cons byte rest ih =>
    have quotient : (byte.toNat * 256 ^ rest.length + decodeBE rest) / 256 ^ rest.length = byte.toNat := by
      rw [Nat.add_comm, Nat.add_mul_div_right _ _ (Nat.pow_pos (by decide)),
        Nat.div_eq_of_lt (decodeBE_lt rest), Nat.zero_add]
    rw [List.length_cons, encodeBE, decodeBE, quotient, UInt8.ofNat_toNat, encodeBE_add_mul, ih]

def utf8Bytes (text : String) : List UInt8 := text.toByteArray.data.toList

/-- UTF-8 decoding; ill-formed bytes have no text. -/
def utf8Decode (bytes : List UInt8) : Option String := String.fromUTF8? ⟨bytes.toArray⟩

theorem utf8Decode_utf8Bytes (text : String) : utf8Decode (utf8Bytes text) = some text := by
  have same : (⟨(utf8Bytes text).toArray⟩ : ByteArray) = text.toByteArray := rfl
  rw [utf8Decode, same, String.fromUTF8?, dif_pos text.isValidUTF8]
  rfl

theorem utf8Bytes_of_decode {bytes : List UInt8} {text : String} (decoded : utf8Decode bytes = some text) :
    utf8Bytes text = bytes := by
  unfold utf8Decode String.fromUTF8? at decoded
  split at decoded
  · cases decoded
    rfl
  · cases decoded

end Myrmidon.Data
